/-
  File: ChCore/Tmpfs/RequestSpecs.lean
  Subject: What each request that changes a directory does to the memory.

  * `TreeInv.fsRename`, `TreeInv.renameTo` -- nothing, or one dentry more and one less.
-/
import ChCore.Tmpfs.TreeInv

namespace ChCore.Tmpfs

open Fs Function Option List

variable {fs fs' : Fs} {d i dir : Nat} {l : List Nat} {name : Name} {junk : Nat → Int}
  {depth : Nat} {dirfd dirfd2 : Dirfd} {follow : Bool} {w w' : Walk} {err : Option Errno}
  {cb : Callback} {r : Except Errno Nat} {out : WalkEnd}

/-! ## 1. The walk -/

/-- Whatever a walk ends with, `P` holds of it. -/
def OnWalk (depth : Nat) (fs : Fs) (dirfd : Dirfd) (path : Name) (follow : Bool)
    (P : Fs → Walk → WalkEnd → Prop) : Prop :=
  ∀ a ∈ walkTo depth fs dirfd path follow, P a.1 a.2.1 a.2.2

instance {P : Fs → Walk → WalkEnd → Prop} [∀ fs w out, Decidable (P fs w out)] :
    Decidable (OnWalk depth fs dirfd name follow P) :=
  inferInstanceAs (Decidable (∀ a ∈ walkTo depth fs dirfd name follow, P a.1 a.2.1 a.2.2))

/-- `fs_mkdirat` and `fs_rename` take the name for missing. -/
def Fs.WalkEnd.GoesOn (out : WalkEnd) : Prop := ∀ e, out = .error e → e = .ENOENT

instance : (out : WalkEnd) → Decidable out.GoesOn
  | .error e => decidable_of_iff (e = .ENOENT) (by simp [WalkEnd.GoesOn])
  | .found => isTrue nofun
  | .missing => isTrue nofun

/-- What a callback makes of a missing file. -/
def Fs.Callback.makes : Callback → Option (FsType × Name)
  | .nothing => none
  | .openat creat => if creat then some (.reg, []) else none
  | .symlinkat link => some (.sym, link)

variable {type : FsType} {link : Name} {fs2 : Fs}

theorem makes_leaf (h : cb.makes = some (type, link)) : type ≠ .dir := by
  cases cb with
  | nothing => cases h
  | openat creat =>
    cases creat with
    | false => cases h
    | true =>
      cases h
      decide
  | symlinkat link =>
    cases h
    decide

/-- The end of a walk as an error code. -/
def EndErr (out : WalkEnd) (err : Option Errno) : Prop :=
  match out with
  | .error e => err = some e
  | .found => err = none
  | .missing => err = some .ENOENT

/-- The callback of a request has made the missing file. -/
structure Made (junk : Nat → Int) (fs : Fs) (w : Walk) (cb : Callback) (fs' : Fs) (w' : Walk)
    (dir d : Nat) : Prop where
  parent : fs.pathLastInode w.path = some dir
  made : ∃ type link, cb.makes = some (type, link) ∧
    tfsMknod junk fs dir w.leaf type link true = some (fs', .ok d)
  walk : w' = { w with targetDent := some d, target := some (fs'.dents d).inode }

theorem Made.creat {fs₁ : Fs} {creat : Bool} (h : Made junk fs w (.openat creat) fs₁ w' dir d) :
    creat = true := by
  obtain ⟨type, link, hmakes, -⟩ := h.made
  cases creat with
  | false => cases hmakes
  | true => rfl

theorem notFound_cases (hleaf : w.leaf ≠ []) (h : notFound junk fs w cb = some (fs', w', err)) :
    err = none ∧ ((cb.makes = none ∧ fs' = fs ∧ w' = w) ∨ ∃ dir d type link,
      fs.pathLastInode w.path = some dir ∧ cb.makes = some (type, link) ∧
      tfsMknod junk fs dir w.leaf type link true = some (fs', .ok d) ∧
      w' = { w with targetDent := some d }) := by
  cases cb with
  | nothing =>
    cases h
    exact ⟨rfl, .inl ⟨rfl, rfl, rfl⟩⟩
  | openat creat =>
    cases creat with
    | false =>
      cases h
      exact ⟨rfl, .inl ⟨rfl, rfl, rfl⟩⟩
    | true =>
    obtain ⟨dir, hdir, h⟩ := bind_eq_some_iff.mp h
    obtain ⟨⟨fs₁, r⟩, h1, h⟩ := bind_eq_some_iff.mp h
    obtain ⟨-, hm⟩ := ite_none_left_eq_some.mp h1
    obtain ⟨-, -, -, d, -, -, -, -, rfl⟩ := tfsMknod_steps hleaf hm
    cases h
    exact ⟨rfl, .inr ⟨dir, d, .reg, [], hdir, rfl, hm, rfl⟩⟩
  | symlinkat link =>
    obtain ⟨dir, hdir, h⟩ := bind_eq_some_iff.mp h
    obtain ⟨⟨fs₁, r⟩, hm, h⟩ := bind_eq_some_iff.mp h
    obtain ⟨-, -, -, d, -, -, -, -, rfl⟩ := tfsMknod_steps hleaf hm
    cases h
    exact ⟨rfl, .inr ⟨dir, d, .sym, link, hdir, rfl, hm, rfl⟩⟩

/-- **`handle_xxxat`** is a walk, or a walk that ends at a missing file and makes it. -/
theorem handleXxxat_cases
    (h : handleXxxat junk depth fs dirfd name follow cb = some (fs', w', err)) :
    ∃ fs₁ w out, walkTo depth fs dirfd name follow = some (fs₁, w, out) ∧
      ((fs' = fs₁ ∧ w' = w ∧ EndErr out err ∧ (out = .missing → cb.makes = none)) ∨
        (out = .missing ∧ err = none ∧ ∃ dir d, Made junk fs₁ w cb fs' w' dir d)) := by
  obtain ⟨⟨fs₁, w1, out⟩, h1, h⟩ := bind_eq_some_iff.mp h
  have hend := (walkTo_walked h1).2
  refine ⟨fs₁, w1, out, h1, ?_⟩
  cases out with
  | error e | found =>
    cases h
    exact .inl ⟨rfl, rfl, rfl, nofun⟩
  | missing =>
  obtain ⟨hleaf, hnone, -⟩ := hend
  obtain ⟨⟨fs2, w2, err2⟩, h2, hret⟩ := bind_eq_some_iff.mp h
  obtain ⟨rfl, ⟨hmakes, rfl, rfl⟩ | ⟨dir, d, type, link, hdir, hmakes, hm, rfl⟩⟩ :=
    notFound_cases hleaf h2
  · simp only [hnone] at hret
    cases hret
    exact .inl ⟨rfl, rfl, rfl, fun _ => hmakes⟩
  · cases hret
    exact .inr ⟨rfl, rfl, dir, d, hdir, ⟨type, link, hmakes, hm⟩, rfl⟩

theorem handleXxxat_nothing
    (h : handleXxxat junk depth fs dirfd name follow .nothing = some (fs', w, err)) :
    ∃ out, walkTo depth fs dirfd name follow = some (fs', w, out) ∧ EndErr out err := by
  obtain ⟨fs₁, w1, out, h1, ⟨rfl, rfl, hend, -⟩ | ⟨-, -, dir, d, hmade⟩⟩ := handleXxxat_cases h
  · exact ⟨out, h1, hend⟩
  · obtain ⟨type, link, hmakes, -⟩ := hmade.made
    cases hmakes

theorem TreeInv.walk_finish {r' : Except Errno Nat} (h : TreeInv fs [])
    (hw : walkTo depth fs dirfd name follow = some (fs', w, out))
    (hf : fs'.finish w r = some (fs2, r')) : fs2 = fs ∧ r' = r := by
  have hwalk := (walkTo_walked hw).1
  obtain ⟨hfs, hr, -⟩ := (h.walked hwalk).finish hf
  rw [hwalk.refs, dropRefs_addRefs] at hfs
  exact ⟨hfs, hr⟩

theorem targetType_eq {i : Nat} (hl : (fs.inodes i).live) (ht : w.target = some i) :
    fs.targetType w = some (fs.inodes i).type := by
  simp [Fs.targetType, ht, Fs.inode, hl]

/-- The type of what a walk finds is the one it had before the walk. -/
theorem walk_targetType {i : Nat} (hw : walkTo depth fs dirfd name follow = some (fs', w, out))
    (hl : (fs.inodes i).live) (ht : w.target = some i) :
    fs'.targetType w = some (fs.inodes i).type := by
  rw [(walkTo_walked hw).1.refs]
  exact targetType_eq hl ht

/-- The end of `fs_open`: an error, or a fid for the target. -/
theorem fsOpen_cases {flags : OpenFlags} (h : fsOpen junk depth fs dirfd name flags = some (fs', r)) :
    ∃ fs2 w2 err, handleXxxat junk depth fs dirfd name (!flags.nofollow) (.openat flags.creat) =
        some (fs2, w2, err) ∧
      ((∃ e, r = .error e ∧ fs' = fs2 ∧ (err = none → fs2.openCheck w2 flags = some (some e))) ∨
        ∃ fid, r = .ok fid ∧ err = none ∧ fs2.openCheck w2 flags = some none ∧
          fs2.newFidRecord w2.target = some (fs', fid)) := by
  obtain ⟨⟨fs2, w2, err⟩, h2, h⟩ := bind_eq_some_iff.mp h
  refine ⟨fs2, w2, err, h2, ?_⟩
  cases err with
  | some e =>
    cases h
    exact .inl ⟨e, rfl, rfl, nofun⟩
  | none =>
  obtain ⟨bad, hbad, h⟩ := bind_eq_some_iff.mp h
  cases bad with
  | some e =>
    cases h
    exact .inl ⟨e, rfl, rfl, fun _ => hbad⟩
  | none =>
    obtain ⟨⟨fs3, fid⟩, h3, h⟩ := bind_eq_some_iff.mp h
    cases h
    exact .inr ⟨fid, rfl, rfl, hbad, h3⟩

theorem fsSymlinkat_walk (h : fsSymlinkat junk depth fs dirfd name link follow = some (fs', r)) :
    ∃ w err, handleXxxat junk depth fs dirfd name follow (.symlinkat link) = some (fs', w, err) := by
  obtain ⟨⟨fs2, w, err⟩, hh, h⟩ := bind_eq_some_iff.mp h
  cases err with
  | some e =>
    cases h
    exact ⟨w, some e, hh⟩
  | none =>
    cases h
    exact ⟨w, none, hh⟩

theorem IsDir.of_setInode {x : Inode} (hl : x.live → (fs.inodes i).live)
    (ht : x.type = (fs.inodes i).type) {j : Nat} (h : IsDir (fs.setInode i x) j) : IsDir fs j := by
  by_cases hj : j = i
  · subst hj
    simp only [IsDir, Fs.setInode, update_self] at h
    exact ⟨hl h.1, ht ▸ h.2⟩
  · simpa [IsDir, Fs.setInode, hj] using h

theorem newNode_type {inode : Nat} (h : newNode junk fs dir type link = some (fs', inode)) :
    inode = fs.nextInode ∧ (fs'.inodes inode).type = type := by
  have hnew : ∀ type link, (((fs.newInode type link).1.refInode fs.nextInode).inodes
      fs.nextInode).type = type := fun type link => by
    rw [refInode_type]
    simp [Fs.newInode, Fs.setInode]
  rw [newNode] at h
  split at h
  next hd =>
    obtain ⟨rfl, fs₁, d1, d2, h1, h2⟩ := newDir_steps h
    refine ⟨rfl, ?_⟩
    rw [addNewDent_type h2, addNewDent_type h1, hnew, hd]
  next hd =>
    obtain ⟨rfl, rfl⟩ := newLeaf_eq h
    exact ⟨rfl, hnew type link⟩

theorem tfsMknod_type {ret : Bool} (hne : name ≠ [])
    (h : tfsMknod junk fs dir name type link ret = some (fs', .ok d)) :
    (fs'.dents d).live ∧ (fs'.dents d).inode = fs.nextInode ∧
      (fs'.inodes fs.nextInode).type = type := by
  obtain ⟨fs₁, fs2, inode, d', err, h1, h2, h3, heq⟩ := tfsMknod_steps hne h
  obtain rfl := Except.ok.inj heq
  obtain ⟨rfl, htype⟩ := newNode_type h1
  obtain ⟨-, x, rfl, hx, -⟩ := putInode_setInode h3
  have hdent := addNewDent_eq h2
  refine ⟨?_, ?_, ?_⟩
  · obtain ⟨-, -, rfl, rfl⟩ := hdent
    simp [Fs.setInode, Fs.linkDent, Fs.growDir, Fs.refInode]
  · obtain ⟨-, -, rfl, rfl⟩ := hdent
    simp [Fs.setInode, Fs.linkDent, Fs.growDir, Fs.refInode]
  · rw [setInode_keeps Inode.type hx, addNewDent_type h2, htype]

/-- The dentry that a rename moves, if the old name is there. -/
def Fs.oldDent (depth : Nat) (fs : Fs) (dirfd : Dirfd) (path : Name) : Option Nat := do
  let (_, w, out) ← walkTo depth fs dirfd path false
  if out = .found then w.oldDent else none

/-- The requests that keep the tree: the memory of a new dentry may not hold a negative count, that
    of a renamed one not 0. -/
def TreeOk (junk : Nat → Int) (depth : Nat) (fs : Fs) : Req → Prop
  | .open dirfd path flags => flags.creat →
    OnWalk depth fs dirfd path (!flags.nofollow) fun _ _ out =>
      out = .missing → 0 ≤ junk fs.nextDent
  | .symlinkat dirfd path _ follow =>
    OnWalk depth fs dirfd path follow fun _ _ out => out = .missing → 0 ≤ junk fs.nextDent
  | .mkdirat dirfd path follow =>
    OnWalk depth fs dirfd path follow fun _ _ out =>
      out.GoesOn → ∀ k < 3, 0 ≤ junk (fs.nextDent + k)
  | .rename dirfd path dirfd2 path2 =>
    ∀ d ∈ fs.oldDent depth dirfd path, (fs.inodes (fs.dents d).inode).refcnt ≠ 0 ∧
      OnWalk depth fs dirfd2 path2 false fun _ _ out =>
        out.GoesOn → out ≠ .found → 1 ≤ junk fs.nextDent
  | _ => True

instance (req : Req) : Decidable (TreeOk junk depth fs req) := by
  cases req <;> unfold TreeOk <;> infer_instance

theorem TreeInv.made {fs₁ : Fs} (h : TreeInv fs [])
    (hw : walkTo depth fs dirfd name follow = some (fs₁, w, .missing))
    (hm : Made junk fs₁ w cb fs2 w' dir d) (hj : 0 ≤ junk fs.nextDent) : TreeInv fs2 [] := by
  have hwalked := (walkTo_walked hw).1
  obtain ⟨type, link, hmakes, hmk⟩ := hm.made
  have hnd : newDents type = 0 := if_neg (makes_leaf hmakes)
  refine (h.walked hwalked).leak.tfsMknod hmk fun k hk => ?_
  obtain rfl : k = 0 := by omega
  rw [hwalked.refs]
  exact hj

/-- `fs_mkdirat` fails in the walk, or makes a directory where the walk has ended. -/
theorem TreeInv.fsMkdirat (h : TreeInv fs [])
    (hok : TreeOk junk depth fs (.mkdirat dirfd name follow))
    (hm : fsMkdirat junk depth fs dirfd name follow = some (fs', r)) :
    (∃ e, r = .error e ∧ fs' = fs) ∨ ∃ fs₁ w out dir fs2 d,
      walkTo depth fs dirfd name follow = some (fs₁, w, out) ∧ out.GoesOn ∧
      fs₁.pathLastInode w.path = some dir ∧ IsDir fs₁ dir ∧ w.leaf ≠ [] ∧
      Fs.tfsMknod junk fs₁ dir w.leaf .dir [] false = some (fs2, .ok d) ∧
      fs' = fs2.dropRefs w.path ∧ r = .ok 0 ∧ TreeInv fs' [] := by
  obtain ⟨⟨fs₁, w, err⟩, hh, hm⟩ := bind_eq_some_iff.mp hm
  obtain ⟨out, hw, herr⟩ := handleXxxat_nothing hh
  have hwalked := (walkTo_walked hw).1
  simp only at hm
  split at hm
  next =>
    obtain ⟨hfs, hr⟩ := h.walk_finish hw hm
    exact .inl ⟨_, hr, hfs⟩
  next hgo =>
    have hout : out.GoesOn := by
      intro e he
      subst he
      obtain rfl := herr
      simpa using hgo
    obtain ⟨dir, hdir, hm⟩ := bind_eq_some_iff.mp hm
    obtain ⟨⟨fs2, r2⟩, hmk, hfin⟩ := bind_eq_some_iff.mp hm
    obtain ⟨hleaf, hmk⟩ := ite_none_left_eq_some.mp hmk
    obtain ⟨fs3, _, _, d, _, hnode, hadd, -, rfl⟩ := tfsMknod_steps hleaf hmk
    have hinv := h.walked hwalked
    -- a directory is on the path of some dentry: it is not the new one
    have hne : dir ≠ fs₁.nextInode := by
      obtain ⟨e, -, hdent⟩ := bind_eq_some_iff.mp hdir
      obtain ⟨x, hx, hdent⟩ := bind_eq_some_iff.mp hdent
      obtain ⟨hl, rfl⟩ := dent_eq_some hx
      exact ne_of_lt (some.inj hdent ▸ hinv.target e hl)
    obtain ⟨hl, ht⟩ := newNode_old hnode hne
    have hisDir : IsDir fs₁ dir := by
      rw [IsDir, ← hl, ← ht]
      exact (addNewDent_eq hadd).2.1
    have hjunk : ∀ k < newDents .dir + 1, 0 ≤ junk (fs₁.nextDent + k) := by
      rw [hwalked.refs]
      exact hok _ hw hout
    obtain ⟨hfs, hr, htree⟩ := (hinv.tfsMknod hmk hjunk).finish hfin
    exact .inr ⟨fs₁, w, out, dir, fs2, d, hw, hout, hdir, hisDir, hleaf, hmk, hfs, hr, htree⟩

/-! ## 2. Removing -/

theorem finiLoop_live (h : fs.finiLoop l = some fs') (hd : d ∈ l) : (fs.dents d).live := by
  induction l generalizing fs with
  | nil => exact absurd hd not_mem_nil
  | cons e l ih =>
    obtain ⟨fs₁, h1, h⟩ := bind_eq_some_iff.mp h
    obtain ⟨x, hx, h1⟩ := bind_eq_some_iff.mp h1
    obtain ⟨hl, rfl⟩ := dent_eq_some hx
    obtain ⟨-, h1⟩ := ite_none_left_eq_some.mp h1
    by_cases hde : d = e
    · exact hde ▸ hl
    have hin := ih h ((mem_cons.mp hd).resolve_left hde)
    rw [← some.inj h1] at hin
    simp only [Fs.setDent, update_of_ne hde] at hin
    exact hin

theorem dropRefs_linkDent (fs : Fs) {x : Dentry} (hl : fs.nextDent ∉ l) :
    ((fs.addRefs l).linkDent dir x).dropRefs l = fs.linkDent dir x := by
  simp only [Fs.dropRefs, Fs.linkDent, Fs.addRefs]
  congr 1
  funext e
  by_cases he : e = fs.nextDent
  · subst he
    simp [count_eq_zero.mpr hl]
  · simp [he]

theorem dropRefs_unlinkDent (hl : d ∉ l) :
    ((fs.addRefs l).unlinkDent dir d).dropRefs l = fs.unlinkDent dir d := by
  simp only [Fs.dropRefs, Fs.unlinkDent, Fs.addRefs, Fs.setDent]
  congr 1
  funext e
  by_cases he : e = d
  · subst he
    simp [count_eq_zero.mpr hl]
  · simp [he]

theorem putInode_addRefs (fs : Fs) (l : List Nat) (i : Nat) :
    (fs.addRefs l).putInode i = (fs.putInode i).map fun r => (r.1.addRefs l, r.2) := by
  cases hl : (fs.inodes i).live with
  | false => simp [Fs.putInode, Fs.inode, Fs.addRefs, hl]
  | true =>
    simp only [Fs.putInode, Fs.inode, Fs.addRefs, hl, if_true, bind_eq_bind, bind_some]
    split_ifs <;> rfl

/-- **`tfs_remove` at the end of a walk** is `put_inode` and, without an error, the end of the
    entry. A path through the dentry that is freed cannot be given back. -/
theorem TreeInv.remove_finish {fs₁ : Fs} (h : TreeInv fs []) (hw : Walked fs fs₁ w)
    (hleaf : w.leaf ≠ []) (hf : fs₁.tfsLookup dir w.leaf = some (some d)) :
    ((fs₁.tfsRemove dir w.leaf).bind fun r => r.1.finish w (match r.2 with
      | some e => .error e
      | none => .ok 0)) =
    (fs.putInode (fs.dents d).inode).bind fun r => match r.2 with
      | some e => some (r.1, .error e)
      | none => if d ∈ w.path then none else some (r.1.unlinkDent dir d, .ok 0) := by
  have hinv := h.walked hw
  have hmem := (hinv.lookup_some hf).1
  obtain ⟨rfl, hlive⟩ := hw
  have hpar : IsDir (fs.addRefs w.path) dir := tfsLookup_dir hf
  change IsDir fs dir at hpar
  have hrem : (fs.addRefs w.path).tfsRemove dir w.leaf =
      ((fs.putInode (fs.dents d).inode).map fun r => (r.1.addRefs w.path, r.2)).bind fun r =>
        match r.2 with
        | some e => some (r.1, some e)
        | none => (r.1.htableDel d).bind fun fs => some (fs, none) := by
    rw [← putInode_addRefs, Fs.tfsRemove, if_neg hleaf, hf]
    rfl
  rw [hrem]
  cases hput : fs.putInode (fs.dents d).inode with
  | none => rfl
  | some r =>
  obtain ⟨fs2, err⟩ := r
  have hinv2 := hinv.putInode ((putInode_addRefs fs w.path _).trans (by rw [hput]; rfl))
  cases err with
  | some e => simp [Fs.finish, hinv2.fini.1]
  | none =>
  -- the directory itself is not freed: the entry is in it
  have hpar2 : (fs2.inodes dir).live := by
    obtain ⟨-, ⟨-, -, rfl⟩ | ⟨-, -, hno, -⟩ | ⟨-, hempty, -, rfl⟩⟩ := putInode_cases hput
    · by_cases hi : dir = (fs.dents d).inode
      · simpa [Fs.setInode, ← hi] using hpar.1
      · simpa [Fs.setInode, hi] using hpar.1
    · cases hno
    · have hi : dir ≠ (fs.dents d).inode := by
        rintro rfl
        exact hempty ⟨hpar.2, ne_nil_of_mem hmem⟩
      simpa [Fs.setInode, hi] using hpar.1
  have hn : (fs2.dents d).live ∧ (fs2.dents d).node = some dir := by
    obtain ⟨-, x, rfl, -⟩ := putInode_setInode hput
    exact (hinv.mem_iff dir d).mp hmem
  have hdel : (fs2.addRefs w.path).htableDel d = some ((fs2.addRefs w.path).unlinkDent dir d) := by
    simp [Fs.htableDel, Fs.dent, Fs.inode, Fs.addRefs, hn, hpar2, Fs.unlinkDent]
  by_cases hd : d ∈ w.path
  · have hfini : ((fs2.addRefs w.path).unlinkDent dir d).pathFini w.path = none := by
      refine eq_none_iff_forall_ne_some.mpr fun fs3 h3 => ?_
      have hlive' := finiLoop_live h3 (mem_reverse.mpr hd)
      rw [unlinkDent_live] at hlive'
      cases hlive'
    simp [hdel, Fs.finish, hd, hfini]
  · have hfini := (hinv2.unlinkDent hn.2 hd).fini.1
    rw [dropRefs_unlinkDent hd] at hfini
    simp [hdel, Fs.finish, hd, hfini]

/-- The entry that a request names, if it is there. -/
structure Names (depth : Nat) (fs : Fs) (dirfd : Dirfd) (name : Name) (follow : Bool)
    (dir d : Nat) : Prop where
  walk : ∃ fs₁ w, walkTo depth fs dirfd name follow = some (fs₁, w, .found) ∧ w.leaf ≠ [] ∧
    fs₁.pathLastInode w.path = some dir ∧ (fs.dents d).name = w.leaf ∧
    w.targetDent = some d ∧ w.target = some (fs.dents d).inode
  mem : d ∈ fs.entries dir

/-- **`fs_unlinkat`** leaves the memory as it was, or drops the reference of a dentry to its inode
    and then fails or takes the dentry out. -/
theorem TreeInv.fsUnlinkat {rmdir : Bool} {flags : BitVec 32} (h : TreeInv fs [])
    (hu : fsUnlinkat junk depth fs dirfd name rmdir follow flags = some (fs', r)) :
    (∃ e, r = .error e ∧ fs' = fs) ∨ flagsIn flags AT_SYMLINK_NOFOLLOW ∧
      ∃ dir d, Names depth fs dirfd name follow dir d ∧
      ((fs.inodes (fs.dents d).inode).type = .dir ↔ rmdir = true) ∧
      ((∃ e, r = .error e ∧ fs.putInode (fs.dents d).inode = some (fs', some e)) ∨
        ∃ fs₁, r = .ok 0 ∧ fs.putInode (fs.dents d).inode = some (fs₁, none) ∧
          fs' = fs₁.unlinkDent dir d) := by
  by_cases hflags : flagsIn flags AT_SYMLINK_NOFOLLOW
  case neg =>
    cases (if_pos hflags).symm.trans hu
    exact .inl ⟨_, rfl, rfl⟩
  rw [Fs.fsUnlinkat, if_neg (not_not.mpr hflags)] at hu
  obtain ⟨⟨fs₁, w, err⟩, h1, hu⟩ := bind_eq_some_iff.mp hu
  obtain ⟨out, hwalk, hend⟩ := handleXxxat_nothing h1
  obtain ⟨hwalked, hendOk⟩ := walkTo_walked hwalk
  have hback : ∀ {e : Errno}, fs₁.finish w (.error e) = some (fs', r) →
      ∃ e, r = .error e ∧ fs' = fs := fun hf =>
    ⟨_, (h.walk_finish hwalk hf).2, (h.walk_finish hwalk hf).1⟩
  cases err with
  | some e => exact .inl (hback hu)
  | none =>
  obtain ⟨t, ht, hu⟩ := bind_eq_some_iff.mp hu
  obtain ⟨i, hi, ht⟩ := bind_eq_some_iff.mp ht
  obtain ⟨x, hx, ht⟩ := bind_eq_some_iff.mp ht
  obtain ⟨-, rfl⟩ := inode_eq_some hx
  obtain rfl := some.inj ht
  split at hu
  next => exact .inl (hback hu)
  next hfile =>
    split at hu
    next => exact .inl (hback hu)
    next hdirectory =>
      -- the entry that is removed is the one the walk has found
      cases out with
      | error e => cases hend
      | missing => cases hend
      | found =>
      obtain ⟨dir, hdir, hu⟩ := bind_eq_some_iff.mp hu
      obtain ⟨hleaf, -⟩ | ⟨dir', d, hleaf, hdir', hf, htd, htarget⟩ := hendOk
      · rw [hleaf] at hu
        exact .inl (hback hu)
      obtain rfl := some.inj (hdir.symm.trans hdir')
      obtain rfl := some.inj (hi.symm.trans htarget)
      have hrem := (h.remove_finish hwalked hleaf hf).symm.trans hu
      obtain ⟨hmem, hname⟩ := (h.walked hwalked).lookup_some hf
      obtain rfl := hwalked.refs
      refine .inr ⟨hflags, dir, d, ⟨⟨_, w, hwalk, hleaf, hdir, hname, htd, htarget⟩, hmem⟩, ?_, ?_⟩
      · cases rmdir with
        | false => exact iff_of_false (fun ht => hfile ⟨rfl, ht⟩) Bool.false_ne_true
        | true => exact iff_of_true (not_not.mp fun ht => hdirectory ⟨rfl, ht⟩) rfl
      obtain ⟨⟨fs2, err⟩, hput, hu⟩ := bind_eq_some_iff.mp hrem
      cases err with
      | some e =>
        cases hu
        exact .inl ⟨e, rfl, hput⟩
      | none =>
        obtain ⟨-, hu⟩ := ite_none_left_eq_some.mp hu
        cases hu
        exact .inr ⟨fs2, rfl, hput, rfl⟩

/-! ## 3. Renaming -/

/-- **`fs_rename`** fails and leaks a path at most, finds the new name and does nothing, or goes on
    to `renameTo`. -/
theorem TreeInv.rename_cases {name2 : Name} (h : TreeInv fs [])
    (hr : fsRename junk depth fs dirfd name dirfd2 name2 = some (fs', r)) :
    (∃ e l, r = .error e ∧ (∀ d ∈ l, (fs.dents d).live) ∧ fs' = fs.addRefs l) ∨
      ∃ d fs2 w2 out, fs.oldDent depth dirfd name = some d ∧
        walkTo depth fs dirfd2 name2 false = some (fs2, w2, out) ∧ out.GoesOn ∧
        ((out = .found ∧ r = .ok 0 ∧ fs' = fs) ∨
          (out ≠ .found ∧ renameTo junk fs2 d w2 = some (fs', r))) := by
  obtain ⟨⟨fs₁, w, err⟩, h1, hr⟩ := bind_eq_some_iff.mp hr
  obtain ⟨out, hwalk, hend⟩ := handleXxxat_nothing h1
  have hwalked := (walkTo_walked hwalk).1
  cases err with
  | some e =>
    cases hr
    exact .inl ⟨e, w.path, rfl, hwalked.live, hwalked.refs⟩
  | none =>
  obtain ⟨d, hd, hr1⟩ := bind_eq_some_iff.mp hr
  obtain ⟨fs2, h2, hr2⟩ := bind_eq_some_iff.mp hr1
  have hfs2 : fs2 = fs := by
    have hfini := (h.walked hwalked).fini.1
    rw [hfini] at h2
    rw [← some.inj h2, hwalked.refs, dropRefs_addRefs]
  subst hfs2
  have hold : fs2.oldDent depth dirfd name = some d := by
    cases out with
    | error e => cases hend
    | missing => cases hend
    | found => simpa [Fs.oldDent, hwalk] using hd
  obtain ⟨⟨fs3, w3, err3⟩, h3, hr3⟩ := bind_eq_some_iff.mp hr2
  obtain ⟨out3, hwalk3, hend3⟩ := handleXxxat_nothing h3
  have hback : ∀ {r0}, fs3.finish w3 r0 = some (fs', r) → r = r0 ∧ fs' = fs2 := fun hf =>
    ⟨(h.walk_finish hwalk3 hf).2, (h.walk_finish hwalk3 hf).1⟩
  have hfail : ∀ {e}, fs3.finish w3 (.error e) = some (fs', r) →
      ∃ e l, r = .error e ∧ (∀ d ∈ l, (fs2.dents d).live) ∧ fs' = fs2.addRefs l := fun hf =>
    ⟨_, [], (hback hf).1, nofun, (hback hf).2 ▸ (addRefs_nil _).symm⟩
  cases out3 with
  | found =>
    obtain rfl := hend3
    exact .inr ⟨d, fs3, w3, .found, hold, hwalk3, (by decide : WalkEnd.found.GoesOn),
      .inl ⟨rfl, hback hr3⟩⟩
  | missing =>
    obtain rfl := hend3
    exact .inr ⟨d, fs3, w3, .missing, hold, hwalk3, (by decide : WalkEnd.missing.GoesOn),
      .inr ⟨by decide, hr3⟩⟩
  | error e =>
  obtain rfl := hend3
  cases e with
  | ENOENT =>
    exact .inr ⟨d, fs3, w3, .error .ENOENT, hold, hwalk3,
      (by decide : (WalkEnd.error .ENOENT).GoesOn), .inr ⟨by decide, hr3⟩⟩
  | _ => exact .inl (hfail hr3)

theorem pathLastInode_congr (h : ∀ e ∈ l, fs'.dents e = fs.dents e) :
    fs'.pathLastInode l = fs.pathLastInode l := by
  cases hl : l.getLast? with
  | none => simp [Fs.pathLastInode, hl]
  | some d => simp [Fs.pathLastInode, hl, Fs.dent, h d (mem_of_getLast? hl)]

/-- The reference that `new_dent` takes and the one `fs_rename` gives back cancel. -/
theorem setInode_refInode (fs : Fs) (i dir : Nat) (x : Dentry) :
    ((fs.refInode i).linkDent dir x).setInode i
        { ((fs.refInode i).linkDent dir x).inodes i with
          refcnt := (((fs.refInode i).linkDent dir x).inodes i).refcnt - 1 } =
      fs.linkDent dir x := by
  simp [Fs.refInode, Fs.linkDent, Fs.setInode]

/-- One dentry more in `dir`, one less in `dirOld`. -/
def Fs.moveDent (fs : Fs) (dir : Nat) (x : Dentry) (dirOld dOld : Nat) : Fs :=
  (fs.linkDent dir x).unlinkDent dirOld dOld

theorem TreeInv.moveDent {x : Dentry} {dirOld dOld : Nat} (h : TreeInv fs []) (hx : x.live)
    (hn : x.node = some dir) (hr : 1 ≤ x.refcnt) (hdir : dir < fs.nextInode)
    (hx' : x.inode < fs.nextInode) (hold : dOld ∈ fs.entries dirOld) :
    TreeInv (fs.moveDent dir x dirOld dOld) [] := by
  have hne : dOld ≠ fs.nextDent := ne_of_lt (h.freshDent _ (h.live hold))
  refine (h.linkDent hx hn hr hdir hx').unlinkDent ?_ not_mem_nil
  rw [linkDent_of_ne x hne]
  exact ((h.mem_iff _ _).mp hold).2

/-- **A rename**: one dentry more in the new directory, one less in the old one, and no inode has
    changed. -/
theorem TreeInv.renameTo {dOld : Nat} (h : TreeInv fs []) (hw : Walked fs fs2 w)
    (hr : renameTo junk fs2 dOld w = some (fs', r)) (hj : 1 ≤ junk fs.nextDent)
    (hcnt : (fs.inodes (fs.dents dOld).inode).refcnt ≠ 0) :
    ∃ dir dirOld, fs2.pathLastInode w.path = some dir ∧
      IsDir fs dir ∧ dOld ∈ fs.entries dirOld ∧ (fs.inodes (fs.dents dOld).inode).live ∧ r = .ok 0 ∧
      fs' = fs.moveDent dir ⟨w.leaf, (fs.dents dOld).inode, junk fs.nextDent, some dir, true⟩
        dirOld dOld := by
  have hinv := h.walked hw
  obtain ⟨rfl, hlive⟩ := hw
  obtain ⟨x, hx, hr⟩ := bind_eq_some_iff.mp hr
  obtain ⟨hold, rfl⟩ := dent_eq_some hx
  obtain ⟨⟨fs3, d⟩, h3, hr⟩ := bind_eq_some_iff.mp hr
  obtain ⟨dir, hdir, hr⟩ := bind_eq_some_iff.mp hr
  obtain ⟨fs4, h4, hr⟩ := bind_eq_some_iff.mp hr
  obtain ⟨fs5, h5, hr⟩ := bind_eq_some_iff.mp hr
  obtain ⟨y, hy, hr⟩ := bind_eq_some_iff.mp hr
  obtain ⟨⟨fs6, err⟩, h6, hr⟩ := bind_eq_some_iff.mp hr
  obtain ⟨hl, ⟨hdl, hdt⟩, -, rfl⟩ := newDent_link h3 h4
  have hne : dOld ≠ fs.nextDent := ne_of_lt (h.freshDent _ hold)
  have hfresh : fs.nextDent ∉ w.path := fun hin => lt_irrefl _ (h.freshDent _ (hlive _ hin))
  -- the new directory is the last of the walk: the new dentry is not on the path
  have hdir' : (fs.addRefs w.path).pathLastInode w.path = some dir := by
    obtain ⟨-, -, rfl⟩ := newDent_eq h3
    rw [← hdir]
    refine (pathLastInode_congr fun e he => ?_).symm
    have hee : e ≠ fs.nextDent := fun heq => hfresh (heq ▸ he)
    exact update_of_ne hee _ _
  set x : Dentry := ⟨w.leaf, (fs.dents dOld).inode, junk fs.nextDent, some dir, true⟩
  -- the path is given back: the memory is the old one with a dentry more
  have hlink : TreeInv (((fs.addRefs w.path).refInode (fs.dents dOld).inode).linkDent dir x) w.path :=
    (hinv.refInode hl).linkDent rfl rfl hj (h.freshInode dir hdl) (h.freshInode _ hl)
  have h5' := hlink.fini.1.symm.trans h5
  have hfs5 : fs5 = (fs.refInode (fs.dents dOld).inode).linkDent dir x := by
    rw [← some.inj h5']
    exact dropRefs_linkDent (fs.refInode _) hfresh
  subst hfs5
  obtain ⟨-, rfl⟩ := dent_eq_some hy
  have hsame : ((fs.refInode (fs.dents dOld).inode).linkDent dir x).dents dOld = fs.dents dOld :=
    update_of_ne hne _ _
  rw [hsame] at h6
  obtain ⟨-, hput⟩ := putInode_cases h6
  have hself : (((fs.refInode (fs.dents dOld).inode).linkDent dir x).inodes
      (fs.dents dOld).inode).refcnt = (fs.inodes (fs.dents dOld).inode).refcnt + 1 := by
    simp [Fs.linkDent, Fs.refInode, Fs.setInode]
  rcases hput with ⟨-, rfl, hfs6⟩ | ⟨hone, -⟩ | ⟨hone, -⟩
  · obtain ⟨fs7, h7, hr⟩ := bind_eq_some_iff.mp hr
    cases hr
    have hfs6' := hfs6.trans (setInode_refInode fs _ dir _)
    subst hfs6'
    obtain ⟨-, dirOld, hn, -, rfl⟩ := htableDel_eq h7
    rw [linkDent_of_ne _ hne] at hn
    exact ⟨dir, dirOld, hdir', ⟨hdl, hdt⟩, (h.mem_iff _ _).mpr ⟨hold, hn⟩, hl, rfl, rfl⟩
  · rw [hself] at hone
    omega
  · rw [hself] at hone
    omega

/-- **A whole `fs_rename`**: references that are leaked, or one dentry in the place of another. -/
theorem TreeInv.fsRename {name2 : Name} (h : TreeInv fs [])
    (hok : TreeOk junk depth fs (.rename dirfd name dirfd2 name2))
    (hr : Fs.fsRename junk depth fs dirfd name dirfd2 name2 = some (fs', r)) :
    (∃ l, (∀ d ∈ l, (fs.dents d).live) ∧ fs' = fs.addRefs l ∧ ((∃ e, r = .error e) ∨
      ∃ d fs2 w2, fs.oldDent depth dirfd name = some d ∧
        walkTo depth fs dirfd2 name2 false = some (fs2, w2, .found))) ∨
      ∃ d fs2 w2 out dir dirOld, fs.oldDent depth dirfd name = some d ∧
        walkTo depth fs dirfd2 name2 false = some (fs2, w2, out) ∧ out.GoesOn ∧ out ≠ .found ∧
        fs2.pathLastInode w2.path = some dir ∧ IsDir fs dir ∧ d ∈ fs.entries dirOld ∧ r = .ok 0 ∧
        fs' = fs.moveDent dir ⟨w2.leaf, (fs.dents d).inode, junk fs.nextDent, some dir, true⟩
          dirOld d ∧ TreeInv fs' [] := by
  rcases h.rename_cases hr with ⟨e, l, rfl, hl, hfs⟩ | ⟨d, fs2, w2, out, hold, hw, hgo, hdone⟩
  · exact .inl ⟨l, hl, hfs, .inl ⟨e, rfl⟩⟩
  rcases hdone with ⟨rfl, rfl, rfl⟩ | ⟨hnf, hto⟩
  · exact .inl ⟨[], nofun, (addRefs_nil _).symm, .inr ⟨d, fs2, w2, hold, hw⟩⟩
  obtain ⟨hcnt, hjunk⟩ := hok d hold
  have hj : 1 ≤ junk fs.nextDent := hjunk _ hw hgo hnf
  obtain ⟨dir, dirOld, hdir, hisDir, hmem, hlive, hr, hfs⟩ :=
    h.renameTo (walkTo_walked hw).1 hto hj hcnt
  refine .inr ⟨d, fs2, w2, out, dir, dirOld, hold, hw, hgo, hnf, hdir, hisDir, hmem, hr, hfs, ?_⟩
  rw [hfs]
  exact h.moveDent rfl rfl hj (h.freshInode dir hisDir.1) (h.freshInode _ hlive) hmem

/-! ## 4. Fids -/

/-- A fid comes into use. -/
def Fs.openFid (fs : Fs) (slot fid : Nat) (x : FidRecord) : Fs :=
  { fs with
    fidman := ⟨update fs.fidman.bitmap fid true, slot⟩
    fidRecords := update fs.fidRecords fid x }

/-- A fid goes out of use; its path stays. -/
def Fs.closeFid (fs : Fs) (fid : Nat) : Fs :=
  { fs with
    fidman := ⟨update fs.fidman.bitmap fid false, fid / User.BITS_PER_U64⟩
    fidRecords := update fs.fidRecords fid ⟨(fs.fidRecords fid).path, none⟩ }

/-- **A new fid** was not in use. -/
theorem newFidRecord_eq {inode : Option Nat} {fid : Nat}
    (h : fs.newFidRecord inode = some (fs', fid)) :
    fs.fidman.bitmap fid = false ∧ fid < MAX_NR_FID_RECORDS ∧
      ∃ slot, fs' = fs.openFid slot fid ⟨(fs.fidRecords fid).path, inode⟩ := by
  obtain ⟨⟨m, id⟩, hm, h⟩ := bind_eq_some_iff.mp h
  obtain ⟨-, h⟩ := ite_none_left_eq_some.mp h
  cases h
  obtain ⟨hfree, hlt, hbits⟩ := User.IdManager.allocId_spec hm
  exact ⟨hfree, hlt, m.currSlot, by rw [Fs.openFid, ← hbits]⟩

theorem getFidRecord_some {fid : Nat} {x : FidRecord} (h : fs.getFidRecord fid = some (some x)) :
    fs.fidman.bitmap fid ∧ fid < MAX_NR_FID_RECORDS ∧ x = fs.fidRecords fid := by
  rw [getFidRecord] at h
  split at h
  next => cases h
  next =>
    obtain ⟨hlt, h⟩ := ite_none_left_eq_some.mp h
    split at h
    next hused =>
      cases h
      exact ⟨hused, not_le.mp hlt, rfl⟩
    next => cases h

theorem fsClose_cases {fd : Nat} (h : fs.fsClose fd = some (fs', r)) :
    (r = .error .EBADF ∧ fs' = fs) ∨
      (fs.fidman.bitmap fd ∧ fd < MAX_NR_FID_RECORDS ∧ r = .ok 0 ∧ fs' = fs.closeFid fd) := by
  obtain ⟨record, hrec, h⟩ := bind_eq_some_iff.mp h
  cases record with
  | none =>
    cases h
    exact .inl ⟨rfl, rfl⟩
  | some x =>
    obtain ⟨hused, hlt, rfl⟩ := getFidRecord_some hrec
    cases h
    exact .inr ⟨hused, hlt, rfl, rfl⟩

/-- **`fs_chdir`** fails and leaves the memory as it was, or records the path it has walked with the
    dentry it has found in a new fid. -/
theorem TreeInv.fsChdir (h : TreeInv fs [])
    (hc : fsChdir junk depth fs dirfd name follow = some (fs', r)) :
    (∃ e, r = .error e ∧ fs' = fs) ∨ ∃ fs₁ w i d slot fid,
      walkTo depth fs dirfd name follow = some (fs₁, w, .found) ∧ w.target = some i ∧
      (fs.inodes i).live ∧ w.targetDent = some d ∧ (fs.dents d).live ∧
      fs.fidman.bitmap fid = false ∧ fid < MAX_NR_FID_RECORDS ∧ r = .ok fid ∧
      fs' = (fs.addRefs (w.path ++ [d])).openFid slot fid ⟨w.path ++ [d], some i⟩ := by
  obtain ⟨⟨fs₁, w, err⟩, h1, hc⟩ := bind_eq_some_iff.mp hc
  obtain ⟨out, hwalk, hend⟩ := handleXxxat_nothing h1
  have hback : ∀ {e : Errno}, fs₁.finish w (.error e) = some (fs', r) →
      ∃ e, r = .error e ∧ fs' = fs := fun hf =>
    ⟨_, (h.walk_finish hwalk hf).2, (h.walk_finish hwalk hf).1⟩
  simp only at hc
  split at hc
  · exact .inl (hback hc)
  · exact .inl (hback hc)
  rename_i i ht
  obtain ⟨x, hx, hc⟩ := bind_eq_some_iff.mp hc
  split at hc
  next => exact .inl (hback hc)
  next =>
    obtain ⟨d, hd, hc⟩ := bind_eq_some_iff.mp hc
    obtain ⟨⟨fs2, comps⟩, h2, hc⟩ := bind_eq_some_iff.mp hc
    obtain ⟨⟨fs3, fid⟩, h3, hc⟩ := bind_eq_some_iff.mp hc
    cases hc
    obtain ⟨rfl, rfl, hlive⟩ := pathAppend_extends h2
    obtain ⟨hfree, hlt, slot, rfl⟩ := newFidRecord_eq h3
    obtain rfl := (walkTo_walked hwalk).1.refs
    cases out with
    | error e => cases hend
    | missing => cases hend
    | found =>
    refine .inr ⟨_, w, i, d, slot, fid, hwalk, ht, (inode_eq_some hx).1, hd,
      hlive d (mem_singleton_self d), hfree, hlt, rfl, ?_⟩
    rw [addRefs_append]
    simp [Fs.openFid]

/-! ## 5. Requests that change no directory -/

/-- Only reference counts have grown, and fids have come and gone. -/
structure Quiet (fs fs' : Fs) : Prop where
  entries : fs'.entries = fs.entries
  nextDent : fs'.nextDent = fs.nextDent
  nextInode : fs'.nextInode = fs.nextInode
  dent : ∀ d, fs'.dents d = { fs.dents d with refcnt := (fs'.dents d).refcnt }
  dentRefs : ∀ d, (fs.dents d).refcnt ≤ (fs'.dents d).refcnt
  inode : ∀ i, fs'.inodes i = { fs.inodes i with refcnt := (fs'.inodes i).refcnt }
  inodeRefs : ∀ i, (fs.inodes i).refcnt ≤ (fs'.inodes i).refcnt

theorem Quiet.refl (fs : Fs) : Quiet fs fs :=
  ⟨rfl, rfl, rfl, fun _ => rfl, fun _ => Int.le_rfl, fun _ => rfl, fun _ => Int.le_rfl⟩

theorem Quiet.trans {fs₁ fs3 : Fs} (h : Quiet fs₁ fs2) (h' : Quiet fs2 fs3) : Quiet fs₁ fs3 := by
  refine ⟨h'.entries.trans h.entries, h'.nextDent.trans h.nextDent, h'.nextInode.trans h.nextInode,
    fun d => ?_, fun d => Int.le_trans (h.dentRefs d) (h'.dentRefs d), fun i => ?_,
    fun i => Int.le_trans (h.inodeRefs i) (h'.inodeRefs i)⟩
  · rw [h'.dent d, h.dent d]
  · rw [h'.inode i, h.inode i]

/-- Only reference counts have grown. -/
structure Still (fs fs' : Fs) : Prop extends Quiet fs fs' where
  fidman : fs'.fidman = fs.fidman
  fidRecords : fs'.fidRecords = fs.fidRecords

theorem Still.refl (fs : Fs) : Still fs fs := ⟨.refl fs, rfl, rfl⟩

theorem still_addRefs (fs : Fs) (l : List Nat) : Still fs (fs.addRefs l) := by
  refine ⟨⟨rfl, rfl, rfl, fun d => rfl, fun d => ?_, fun i => rfl, fun i => Int.le_rfl⟩,
    rfl, rfl⟩
  simp only [Fs.addRefs]
  omega

theorem still_refInode (fs : Fs) (i : Nat) : Still fs (fs.refInode i) := by
  refine ⟨⟨rfl, rfl, rfl, fun d => rfl, fun d => Int.le_rfl, fun j => ?_, fun j => ?_⟩, rfl, rfl⟩
  · by_cases hj : j = i
    · subst hj
      simp [Fs.refInode, Fs.setInode]
    · simp [Fs.refInode, Fs.setInode, hj]
  · by_cases hj : j = i
    · subst hj
      simp only [Fs.refInode, Fs.setInode, update_self]
      omega
    · simp [Fs.refInode, Fs.setInode, hj]

theorem quiet_fids (fs : Fs) (m : User.IdManager MAX_NR_FID_RECORDS) (records : Nat → FidRecord) :
    Quiet fs { fs with fidman := m, fidRecords := records } :=
  ⟨rfl, rfl, rfl, fun _ => rfl, fun _ => Int.le_rfl, fun _ => rfl, fun _ => Int.le_rfl⟩

theorem still_walk (h : walkTo depth fs dirfd name follow = some (fs', w, out)) : Still fs fs' := by
  rw [(walkTo_walked h).1.refs]
  exact still_addRefs _ _

theorem quiet_newFidRecord {inode : Option Nat} {fid : Nat}
    (h : fs.newFidRecord inode = some (fs', fid)) : Quiet fs fs' := by
  obtain ⟨-, -, slot, rfl⟩ := newFidRecord_eq h
  exact quiet_fids _ _ _

theorem quiet_close {fd : Nat} (h : fs.fsClose fd = some (fs', r)) : Quiet fs fs' := by
  rcases fsClose_cases h with ⟨-, rfl⟩ | ⟨-, -, -, rfl⟩
  · exact .refl _
  · exact quiet_fids _ _ _

theorem Quiet.isDir (h : Quiet fs fs') : IsDir fs' i ↔ IsDir fs i := by
  rw [IsDir, h.inode i]
  rfl

theorem TreeInv.quiet (h : TreeInv fs []) (hq : Quiet fs fs') : TreeInv fs' [] := by
  have hlive : ∀ d, (fs'.dents d).live = (fs.dents d).live := fun d => by rw [hq.dent d]
  have hnode : ∀ d, (fs'.dents d).node = (fs.dents d).node := fun d => by rw [hq.dent d]
  have hinode : ∀ i, (fs'.inodes i).live = (fs.inodes i).live := fun i => by rw [hq.inode i]
  refine ⟨fun i d => ?_, fun i => ?_, ?_, fun d hd hn => ?_, fun d hd => ?_,
    nofun, fun d hd => ?_, fun i hi => ?_, fun i d hd => ?_,
    fun d hd => ?_⟩
  · rw [hq.entries, hlive, hnode]
    exact h.mem_iff i d
  · rw [hq.entries]
    exact h.nodup i
  · rw [hlive, hnode]
    exact h.root
  · rw [hlive] at hd
    rw [hnode] at hn
    exact h.loose d hd hn
  · rw [hlive] at hd
    exact Int.le_trans (h.refs d hd) (hq.dentRefs d)
  · rw [hlive] at hd
    rw [hq.nextDent]
    exact h.freshDent d hd
  · rw [hinode] at hi
    rw [hq.nextInode]
    exact h.freshInode i hi
  · rw [hq.entries] at hd
    rw [hq.nextInode]
    exact h.freshTable i d hd
  · rw [hlive] at hd
    rw [hq.dent d, hq.nextInode]
    exact h.target d hd

theorem TreeInv.quiet_chdir (h : TreeInv fs [])
    (hc : Fs.fsChdir junk depth fs dirfd name follow = some (fs', r)) : Quiet fs fs' := by
  rcases h.fsChdir hc with ⟨e, -, rfl⟩ | ⟨fs₁, w, i, d, slot, fid, -, -, -, -, -, -, -, -, rfl⟩
  · exact .refl _
  · exact (still_addRefs _ _).toQuiet.trans (quiet_fids _ _ _)

theorem TreeInv.still_fstatat {flags : BitVec 32} (h : TreeInv fs [])
    (hf : fsFstatat junk depth fs dirfd name follow flags = some (fs', r)) : Still fs fs' := by
  rw [fsFstatat] at hf
  split at hf
  · cases hf
    exact .refl _
  obtain ⟨⟨fs₁, w, err⟩, h1, hf⟩ := bind_eq_some_iff.mp hf
  obtain ⟨out, hwalk, -⟩ := handleXxxat_nothing h1
  cases err with
  | some e => exact (h.walk_finish hwalk hf).1 ▸ .refl _
  | none =>
    obtain ⟨t, -, hf⟩ := bind_eq_some_iff.mp hf
    obtain ⟨-, hf⟩ := ite_none_left_eq_some.mp hf
    exact (h.walk_finish hwalk hf).1 ▸ .refl _

theorem still_faccessat {flags : BitVec 32}
    (h : fsFaccessat junk depth fs dirfd name follow flags = some (fs', r)) : Still fs fs' := by
  rw [fsFaccessat] at h
  split at h
  · cases h
    exact .refl _
  obtain ⟨⟨fs₁, w, err⟩, h1, h⟩ := bind_eq_some_iff.mp h
  obtain ⟨out, hwalk, -⟩ := handleXxxat_nothing h1
  cases err with
  | some e | none =>
    cases h
    exact still_walk hwalk

theorem TreeInv.still_getSize (h : TreeInv fs []) (hg : fsGetSize depth fs name = some (fs', r)) :
    Still fs fs' := by
  rw [fsGetSize] at hg
  split at hg
  next =>
    obtain ⟨fs₁, h1, hg⟩ := bind_eq_some_iff.mp hg
    cases hg
    rw [(getInode_eq h1).2]
    exact still_refInode _ _
  next =>
    obtain ⟨-, hg⟩ := ite_none_left_eq_some.mp hg
    obtain ⟨⟨fs₁, path⟩, h1, hg⟩ := bind_eq_some_iff.mp hg
    obtain ⟨n, hn, hg⟩ := bind_eq_some_iff.mp hg
    obtain ⟨l, hl⟩ := tfsNamex_extends hn
    obtain ⟨hpath, hrefs, hlive⟩ := (pathAppend_extends h1).trans hl
    rw [nil_append] at hpath
    -- the path is given back whatever is found
    have hback : ∀ {fs2}, n.fs.pathFini n.path = some fs2 → fs2 = fs := by
      intro fs2 h2
      have hinv : TreeInv n.fs n.path := by
        rw [hrefs, hpath]
        exact h.walk hlive
      rw [hinv.fini.1, hrefs, hpath, dropRefs_addRefs] at h2
      exact (some.inj h2).symm
    split at hg
    next =>
      obtain ⟨fs2, h2, hg⟩ := bind_eq_some_iff.mp hg
      cases hg
      exact hback h2 ▸ .refl _
    next =>
      obtain ⟨dir2, -, hg⟩ := bind_eq_some_iff.mp hg
      obtain ⟨found, -, hg⟩ := bind_eq_some_iff.mp hg
      obtain ⟨fs2, h2, hg⟩ := bind_eq_some_iff.mp hg
      obtain rfl := hback h2
      cases found with
      | none =>
        cases hg
        exact .refl _
      | some d =>
      obtain ⟨x, -, hg⟩ := bind_eq_some_iff.mp hg
      obtain ⟨fs3, h3, hg⟩ := bind_eq_some_iff.mp hg
      cases hg
      rw [(getInode_eq h3).2]
      exact still_refInode _ _

/-! ## 6. Any request -/

theorem TreeInv.fsOpen {flags : OpenFlags} (h : TreeInv fs [])
    (hok : TreeOk junk depth fs (.open dirfd name flags))
    (ho : Fs.fsOpen junk depth fs dirfd name flags = some (fs', r)) : TreeInv fs' [] := by
  obtain ⟨fs2, w2, err, hh, hend⟩ := fsOpen_cases ho
  have htree : TreeInv fs2 [] := by
    obtain ⟨fs₁, w, out, hw, ⟨rfl, -⟩ | ⟨rfl, -, dir, d, hmade⟩⟩ := handleXxxat_cases hh
    · exact h.quiet (still_walk hw).toQuiet
    · exact h.made hw hmade (hok hmade.creat _ hw rfl)
  rcases hend with ⟨e, -, rfl, -⟩ | ⟨fid, -, -, -, hfid⟩
  · exact htree
  · exact htree.quiet (quiet_newFidRecord hfid)

theorem TreeInv.fsSymlinkat (h : TreeInv fs [])
    (hok : TreeOk junk depth fs (.symlinkat dirfd name link follow))
    (hs : Fs.fsSymlinkat junk depth fs dirfd name link follow = some (fs', r)) :
    TreeInv fs' [] := by
  obtain ⟨w2, err, hh⟩ := fsSymlinkat_walk hs
  obtain ⟨fs₁, w, out, hw, ⟨rfl, -⟩ | ⟨rfl, -, dir, d, hmade⟩⟩ := handleXxxat_cases hh
  · exact h.quiet (still_walk hw).toQuiet
  · exact h.made hw hmade (hok _ hw rfl)

/-- **Every request keeps the tree.** -/
theorem TreeInv.request {req : Req} (h : TreeInv fs []) (hok : TreeOk junk depth fs req)
    (hr : request junk depth fs req = some (fs', r)) : TreeInv fs' [] := by
  cases req with
  | «open» dirfd path flags => exact h.fsOpen hok hr
  | close fd => exact h.quiet (quiet_close hr)
  | chdir dirfd path follow => exact h.quiet (h.quiet_chdir hr)
  | mkdirat dirfd path follow =>
    rcases h.fsMkdirat hok hr with ⟨e, -, rfl⟩ | ⟨fs₁, w, out, dir, fs2, d, -, -, -, -, -, -, -, -, ht⟩
    · exact h
    · exact ht
  | unlinkat dirfd path rmdir follow flags =>
    rcases h.fsUnlinkat hr with ⟨e, -, rfl⟩ | ⟨-, dir, d, hn, -, ⟨e, -, hput⟩ | ⟨fs₁, -, hput, rfl⟩⟩
    · exact h
    · exact h.putInode hput
    have hnode := ((h.mem_iff dir d).mp hn.mem).2
    have htree := h.putInode hput
    obtain ⟨-, x, rfl, -⟩ := putInode_setInode hput
    exact htree.unlinkDent hnode not_mem_nil
  | symlinkat dirfd path link follow => exact h.fsSymlinkat hok hr
  | rename dirfd path dirfd2 path2 =>
    rcases h.fsRename hok hr with ⟨l, -, rfl, -⟩ |
      ⟨d, fs2, w2, out, dir, dirOld, -, -, -, -, -, -, -, -, -, ht⟩
    · exact h.quiet (still_addRefs fs l).toQuiet
    · exact ht
  | fstatat dirfd path follow flags => exact h.quiet (h.still_fstatat hr).toQuiet
  | faccessat dirfd path follow flags => exact h.quiet (still_faccessat hr).toQuiet
  | getSize name => exact h.quiet (h.still_getSize hr).toQuiet

/-- One request in a run. -/
def Fs.step (junk : Nat → Int) (depth : Nat) (fs : Fs) (req : Req) : Option Fs :=
  (request junk depth fs req).map Prod.fst

end ChCore.Tmpfs
