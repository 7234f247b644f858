/-
  File: ChCore/Tmpfs/Dirs.lean
  Subject: The names of the directories of tmpfs over any history of requests.

  The set of names that the successful requests have put into a directory and not taken out again
  is carried along; the dentries are compared with it.

  * `dirs_run` -- names are unique, `tfs_lookup` finds exactly them and `dir->size` is their number,
    on runs that meet `TreeOk`, `NamesOk` and `SizeOk`;
  * `dirs_run_broken` -- a directory made twice, a name removed, a name that a failed request leaves
    behind, a rename that only says it has been done.
-/
import ChCore.Lib.Run
import ChCore.Tmpfs.RequestSpecs

namespace ChCore.Tmpfs

open Lib Fs Function Option List

/-! ## 1. What requests mean -/

/-- The directory and the last name of a path. -/
def Fs.entryOf (depth : Nat) (fs : Fs) (dirfd : Dirfd) (path : Name) (follow : Bool) :
    Option (Nat × Name) := do
  let (fs, w, _) ← walkTo depth fs dirfd path follow
  let dir ← fs.pathLastInode w.path
  some (dir, w.leaf)

/-- The directory and the name of the dentry that a rename moves. -/
def Fs.oldEntry (depth : Nat) (fs : Fs) (dirfd : Dirfd) (path : Name) : Option (Nat × Name) := do
  let d ← fs.oldDent depth dirfd path
  let dir ← (fs.dents d).node
  some (dir, (fs.dents d).name)

/-- The names of every directory. -/
abbrev DirNames := Nat → List Name

def DirNames.add (added : DirNames) : Option (Nat × Name) → DirNames
  | none => added
  | some (dir, n) => update added dir (n :: added dir)

/-- A path that ends with a slash creates nothing. -/
def DirNames.create (added : DirNames) : Option (Nat × Name) → DirNames
  | none => added
  | some (dir, n) => if n = [] then added else update added dir (n :: added dir)

def DirNames.drop (added : DirNames) : Option (Nat × Name) → DirNames
  | none => added
  | some (dir, n) => update added dir ((added dir).filter (· ≠ n))

/-- **What a successful request means** for the names of the directories. -/
def Fs.Req.means (depth : Nat) (fs : Fs) (added : DirNames) : Req → DirNames
  | .open dirfd path flags =>
    if flags.creat then added.create (fs.entryOf depth dirfd path (!flags.nofollow)) else added
  | .mkdirat dirfd path follow =>
    DirNames.add (update added fs.nextInode [['.', '.'], ['.']])
      (fs.entryOf depth dirfd path follow)
  | .symlinkat dirfd path _ follow => added.create (fs.entryOf depth dirfd path follow)
  | .unlinkat dirfd path _ follow _ => added.drop (fs.entryOf depth dirfd path follow)
  | .rename dirfd path dirfd2 path2 =>
    (added.drop (fs.oldEntry depth dirfd path)).add (fs.entryOf depth dirfd2 path2 false)
  | _ => added

structure DirState where
  fs : Fs
  added : DirNames

/-- After `init_tmpfs` the root has its two names. -/
def DirState.start (fs : Fs) : DirState :=
  ⟨fs, update (fun _ => []) tmpfsRoot [['.', '.'], ['.']]⟩

section Steps

variable (junk : Nat → Int) (depth : Nat)

/-- The state after a request that has returned. -/
def DirState.after (s : DirState) (req : Req) (fs : Fs) : Except Errno Nat → DirState
  | .ok _ => ⟨fs, req.means depth s.fs s.added⟩
  | .error _ => ⟨fs, s.added⟩

def dirStep (s : DirState) (req : Req) : Option DirState :=
  (request junk depth s.fs req).map fun r => s.after depth req r.1 r.2

/-- **The directories are right.** -/
structure NamesRight (s : DirState) : Prop where
  unique : ∀ i, IsDir s.fs i → ∀ d ∈ s.fs.entries i, ∀ e ∈ s.fs.entries i,
    (s.fs.dents d).name = (s.fs.dents e).name → d = e
  finds : ∀ i, IsDir s.fs i → ∀ n ∈ s.added i, ∃ d, s.fs.tfsLookup i n = some (some d)
  findsOnly : ∀ i, IsDir s.fs i → ∀ n, n ∉ s.added i → s.fs.tfsLookup i n = some none

structure DirsRight (s : DirState) : Prop extends NamesRight s where
  size : ∀ i, IsDir s.fs i → (s.fs.inodes i).size = (s.fs.entries i).length

/-! ## 2. What the runs have to keep to -/

/-- No dentry of the name is found where a walk has ended. -/
def NotThere (fs : Fs) (w : Walk) : Prop :=
  ∀ dir ∈ fs.pathLastInode w.path, ∀ found ∈ fs.tfsLookup dir w.leaf, found = none
  deriving Decidable

/-- The requests that keep the names right, in the state before them. -/
def NamesOk (fs : Fs) : Req → Prop
  | .open dirfd path flags => flags.creat →
    OnWalk depth fs dirfd path (!flags.nofollow) fun _ _ out => out = .missing →
      flags.excl = false ∧ flags.directory = false ∧
        (flags.write ∨ flags.trunc = false ∧ flags.append = false)
  | .mkdirat dirfd path follow =>
    OnWalk depth fs dirfd path follow fun fs' w out => out.GoesOn → NotThere fs' w
  | .rename dirfd path dirfd2 path2 => fs.oldDent depth dirfd path ≠ none →
    OnWalk depth fs dirfd2 path2 false fun fs' w out =>
      out.GoesOn → out ≠ .found ∧ NotThere fs' w
  | _ => True

/-- The requests that keep the sizes right: nothing is removed, and a rename stays in its
    directory. -/
def SizeOk (fs : Fs) : Req → Prop
  | .unlinkat dirfd path rmdir follow flags => flagsIn flags AT_SYMLINK_NOFOLLOW →
    OnWalk depth fs dirfd path follow fun fs' w out => out = .found → w.leaf ≠ [] →
      (fs'.targetType w = some .dir ↔ rmdir = false)
  | .rename dirfd path dirfd2 path2 => ∀ d ∈ fs.oldDent depth dirfd path,
    OnWalk depth fs dirfd2 path2 false fun fs' w out =>
      out.GoesOn → fs'.pathLastInode w.path = (fs.dents d).node
  | _ => True

instance (fs : Fs) : (req : Req) → Decidable (NamesOk depth fs req)
  | .open .. | .mkdirat .. | .rename .. => by
    unfold NamesOk
    infer_instance
  | .close .. | .chdir .. | .unlinkat .. | .symlinkat .. | .fstatat .. | .faccessat ..
  | .getSize .. => isTrue trivial

instance (fs : Fs) : (req : Req) → Decidable (SizeOk depth fs req)
  | .unlinkat .. | .rename .. => by
    unfold SizeOk
    infer_instance
  | .open .. | .close .. | .chdir .. | .mkdirat .. | .symlinkat .. | .fstatat .. | .faccessat ..
  | .getSize .. => isTrue trivial

end Steps

/-! ## 3. The invariant -/

variable {fs fs' : Fs} {added added' : DirNames} {held l : List Nat} {d i dir : Nat} {name : Name}
  {junk : Nat → Int} {depth : Nat} {r : Except Errno Nat}

structure NamesInv (fs : Fs) (added : DirNames) : Prop where
  unique : ∀ i, IsDir fs i → ∀ d ∈ fs.entries i, ∀ e ∈ fs.entries i,
    (fs.dents d).name = (fs.dents e).name → d = e
  added : ∀ i, IsDir fs i → ∀ n, n ∈ added i ↔ ∃ d ∈ fs.entries i, (fs.dents d).name = n

def SizeInv (fs : Fs) : Prop :=
  ∀ i, IsDir fs i → (fs.inodes i).size = (fs.entries i).length

theorem NamesInv.namesRight {s : DirState} (h : NamesInv s.fs s.added) (ht : TreeInv s.fs []) :
    NamesRight s := by
  refine ⟨h.unique, fun i hi n hn => ?_, fun i hi n hn => ?_⟩
  · obtain ⟨d, hd, hname⟩ := (h.added i hi n).mp hn
    rw [ht.tfsLookup hi.1 hi.2]
    cases hf : (s.fs.entries i).find? fun d => (s.fs.dents d).name = n with
    | none => exact absurd hname (by simpa using List.find?_eq_none.mp hf d hd)
    | some e => exact ⟨e, rfl⟩
  · rw [ht.tfsLookup hi.1 hi.2, some_inj, List.find?_eq_none]
    intro d hd hname
    exact hn ((h.added i hi n).mpr ⟨d, hd, of_decide_eq_true hname⟩)

theorem NamesInv.congr (h : NamesInv fs added)
    (ha : ∀ i, IsDir fs i → ∀ n, n ∈ added' i ↔ n ∈ added i) : NamesInv fs added' :=
  ⟨h.unique, fun i hi n => (ha i hi n).trans (h.added i hi n)⟩

theorem NamesInv.quiet (h : NamesInv fs added) (hq : Quiet fs fs') : NamesInv fs' added := by
  have hname : ∀ d, (fs'.dents d).name = (fs.dents d).name := fun d => by rw [hq.dent d]
  refine ⟨fun i hi d hd e he => ?_, fun i hi n => ?_⟩
  · rw [hname, hname]
    rw [hq.entries] at hd he
    exact h.unique i (hq.isDir.mp hi) d hd e he
  · simp only [hname, hq.entries]
    exact h.added i (hq.isDir.mp hi) n

theorem SizeInv.quiet (h : SizeInv fs) (hq : Quiet fs fs') : SizeInv fs' := by
  intro i hi
  rw [hq.entries, hq.inode i]
  exact h i (hq.isDir.mp hi)

/-! ## 4. Changes of a directory -/

theorem NamesInv.setInode {x : Inode} (h : NamesInv fs added) (hl : x.live → (fs.inodes i).live)
    (ht : x.type = (fs.inodes i).type) : NamesInv (fs.setInode i x) added :=
  ⟨fun _ hj => h.unique _ (hj.of_setInode hl ht), fun _ hj => h.added _ (hj.of_setInode hl ht)⟩

theorem SizeInv.setInode {x : Inode} (h : SizeInv fs) (hl : x.live → (fs.inodes i).live)
    (ht : x.type = (fs.inodes i).type) (hs : x.size = (fs.inodes i).size) :
    SizeInv (fs.setInode i x) := by
  intro j hj
  have hold := h j (hj.of_setInode hl ht)
  by_cases hji : j = i
  · subst hji
    simp only [Fs.setInode, update_self, hs]
    exact hold
  · simp only [Fs.setInode, update_of_ne hji]
    exact hold

theorem newInode_of_ne (type : FsType) (link : Name) (h : i ≠ fs.nextInode) :
    (fs.newInode type link).1.inodes i = fs.inodes i ∧
      (fs.newInode type link).1.entries i = fs.entries i :=
  ⟨update_of_ne h _ _, update_of_ne h _ _⟩

theorem newInode_entries (type : FsType) (link : Name) :
    (fs.newInode type link).1.entries fs.nextInode = [] := update_self _ _ _

theorem NamesInv.newInode (h : NamesInv fs added) (type : FsType) (link : Name) :
    NamesInv (fs.newInode type link).1 (update added fs.nextInode []) := by
  refine ⟨fun i hi d hd e he => ?_, fun i hi n => ?_⟩
  · by_cases hn : i = fs.nextInode
    · rw [hn, newInode_entries] at hd
      exact absurd hd not_mem_nil
    obtain ⟨hino, hent⟩ := newInode_of_ne type link hn
    rw [hent] at hd he
    rw [IsDir, hino] at hi
    exact h.unique i hi d hd e he
  by_cases hn : i = fs.nextInode
  · rw [hn, newInode_entries]
    simp
  obtain ⟨hino, hent⟩ := newInode_of_ne type link hn
  rw [hent, update_of_ne hn]
  rw [IsDir, hino] at hi
  exact h.added i hi n

theorem SizeInv.newInode (h : SizeInv fs) {type : FsType} {link : Name}
    (hlink : type = .dir → link = []) : SizeInv (fs.newInode type link).1 := by
  intro i hi
  by_cases hn : i = fs.nextInode
  · subst hn
    simp only [IsDir, Fs.newInode, Fs.setInode, update_self] at hi ⊢
    rw [hlink hi.2]
    rfl
  · obtain ⟨hino, hent⟩ := newInode_of_ne type link hn
    rw [IsDir, hino] at hi
    rw [hino, hent]
    exact h i hi

theorem NamesInv.linkDent {x : Dentry} (h : NamesInv fs added) (ht : TreeInv fs held)
    (hnew : ∀ e ∈ fs.entries dir, (fs.dents e).name ≠ x.name) :
    NamesInv (fs.linkDent dir x) (update added dir (x.name :: added dir)) := by
  have hname : ∀ {j e}, e ∈ fs.entries j → ((fs.linkDent dir x).dents e).name = (fs.dents e).name :=
    fun he => by rw [linkDent_of_ne x (ne_of_lt (ht.freshDent _ (ht.live he)))]
  refine ⟨fun j hj d hd e he heq => ?_, fun j hj n => ?_⟩
  · -- the new name differs from every old one
    rcases (mem_linkDent x).mp hd with ⟨rfl, rfl⟩ | hd'
    · rcases (mem_linkDent x).mp he with ⟨-, rfl⟩ | he'
      · rfl
      · rw [linkDent_self, hname he'] at heq
        exact absurd heq.symm (hnew e he')
    · rcases (mem_linkDent x).mp he with ⟨rfl, rfl⟩ | he'
      · rw [linkDent_self, hname hd'] at heq
        exact absurd heq (hnew d hd')
      · rw [hname hd', hname he'] at heq
        exact h.unique j hj d hd' e he' heq
  have hold : (∃ e ∈ fs.entries j, ((fs.linkDent dir x).dents e).name = n) ↔ n ∈ added j := by
    rw [h.added j hj n]
    exact exists_congr fun e => and_congr_right fun he => by rw [hname he]
  simp only [mem_linkDent, or_and_right, exists_or, hold]
  by_cases hjd : j = dir
  · subst hjd
    simp [linkDent_self, eq_comm]
  · simp [hjd]

theorem SizeInv.grow (h : SizeInv fs) (x : Dentry) : SizeInv ((fs.growDir dir).linkDent dir x) := by
  intro i hi
  have hold := h i ((setInode_keeps (fun x => x.live ∧ x.type = .dir) (by rfl) i).mp hi)
  by_cases hid : i = dir
  · subst hid
    simp [Fs.linkDent, Fs.growDir, Fs.setInode, hold]
  · simp [Fs.linkDent, Fs.growDir, Fs.setInode, hid, hold]

theorem NamesInv.unlinkDent (h : NamesInv fs added) (ht : TreeInv fs held)
    (hd : d ∈ fs.entries dir) :
    NamesInv (fs.unlinkDent dir d)
      (update added dir ((added dir).filter (· ≠ (fs.dents d).name))) := by
  have hnode := ((ht.mem_iff dir d).mp hd).2
  refine ⟨fun j hj a ha b hb heq => ?_, fun j hj n => ?_⟩
  · obtain ⟨had, ha⟩ := (ht.mem_unlinkDent hnode).mp ha
    obtain ⟨hbd, hb⟩ := (ht.mem_unlinkDent hnode).mp hb
    rw [unlinkDent_of_ne had, unlinkDent_of_ne hbd] at heq
    exact h.unique j hj a ha b hb heq
  have hmem : (∃ e ∈ (fs.unlinkDent dir d).entries j, ((fs.unlinkDent dir d).dents e).name = n) ↔
      ∃ e ∈ fs.entries j, e ≠ d ∧ (fs.dents e).name = n := by
    refine exists_congr fun e => ?_
    rw [ht.mem_unlinkDent hnode]
    constructor
    · rintro ⟨⟨hed, he⟩, hn⟩
      rw [unlinkDent_of_ne hed] at hn
      exact ⟨he, hed, hn⟩
    · rintro ⟨he, hed, hn⟩
      exact ⟨⟨hed, he⟩, by rw [unlinkDent_of_ne hed, hn]⟩
  rw [hmem]
  by_cases hjd : j = dir
  · subst hjd
    rw [update_self, mem_filter, h.added j hj n]
    constructor
    · rintro ⟨⟨e, he, rfl⟩, hne⟩
      exact ⟨e, he, fun hed => of_decide_eq_true hne (hed ▸ rfl), rfl⟩
    · rintro ⟨e, he, hed, rfl⟩
      exact ⟨⟨e, he, rfl⟩, decide_eq_true fun heq => hed (h.unique j hj e he d hd heq)⟩
  rw [update_of_ne hjd, h.added j hj n]
  refine exists_congr fun e => and_congr_right fun he => ?_
  have hed : e ≠ d := by
    rintro rfl
    have := ((ht.mem_iff j e).mp he).2
    rw [hnode] at this
    exact hjd (some.inj this).symm
  simp [hed]

/-! ## 5. Creating -/

variable {type : FsType} {link : Name} {inode : Nat} {ret : Bool}

theorem NamesInv.refInode (h : NamesInv fs added) (i : Nat) : NamesInv (fs.refInode i) added :=
  h.setInode id rfl

theorem NamesInv.growDir (h : NamesInv fs added) (i : Nat) : NamesInv (fs.growDir i) added :=
  h.setInode id rfl

theorem SizeInv.refInode (h : SizeInv fs) (i : Nat) : SizeInv (fs.refInode i) :=
  h.setInode id rfl rfl

theorem NamesInv.addNewDent (h : NamesInv fs added) (ht : TreeInv fs held)
    (ha : addNewDent junk fs dir name inode ret = some (fs', d))
    (hnew : ∀ e ∈ fs.entries dir, (fs.dents e).name ≠ name) :
    NamesInv fs' (update added dir (name :: added dir)) := by
  obtain ⟨hl, ⟨hd, -⟩, -, rfl⟩ := addNewDent_eq ha
  have hgrow : TreeInv ((fs.refInode inode).growDir dir) held :=
    (ht.refInode hl).setInode _ (ht.freshInode dir hd)
  exact ((h.refInode inode).growDir dir).linkDent hgrow hnew

theorem SizeInv.addNewDent (h : SizeInv fs)
    (ha : addNewDent junk fs dir name inode ret = some (fs', d)) : SizeInv fs' := by
  obtain ⟨-, -, -, rfl⟩ := addNewDent_eq ha
  exact (h.refInode inode).grow _

/-- The names a new inode starts with. -/
def newNames (type : FsType) : List Name := if type = .dir then [['.', '.'], ['.']] else []

theorem NamesInv.newNode (h : NamesInv fs added) (ht : TreeInv fs held)
    (hn : newNode junk fs dir type link = some (fs', inode))
    (hj : ∀ k < newDents type, 0 ≤ junk (fs.nextDent + k)) :
    NamesInv fs' (update added fs.nextInode (newNames type)) := by
  have htree : ∀ type link, TreeInv ((fs.newInode type link).1.refInode fs.nextInode) held :=
    fun type link => (ht.newInode type link).setInode _ (Nat.lt_succ_self _)
  rw [Fs.newNode] at hn
  split at hn
  next hd =>
    rw [newDents, if_pos hd] at hj
    obtain ⟨-, fs1, d1, d2, h1, h2⟩ := newDir_steps hn
    have hnil : ((fs.newInode .dir []).1.refInode fs.nextInode).entries fs.nextInode = [] :=
      newInode_entries .dir []
    have hdot := ((h.newInode .dir []).refInode fs.nextInode).addNewDent (htree .dir []) h1
      (fun e he => absurd (hnil ▸ he) not_mem_nil)
    have htree1 := (htree .dir []).addNewDent h1 (hj 0 (by decide))
    -- the only name so far is `.`
    have hdots := hdot.addNewDent htree1 h2 fun e he => by
      obtain ⟨-, -, -, rfl⟩ := addNewDent_eq h1
      rcases (mem_linkDent _).mp he with ⟨-, rfl⟩ | he
      · rw [linkDent_self]
        show (['.'] : Name) ≠ ['.', '.']
        decide
      · exact absurd (hnil ▸ he) not_mem_nil
    rw [newNames, if_pos hd]
    simpa using hdots
  next hd =>
    obtain ⟨-, rfl⟩ := newLeaf_eq hn
    rw [newNames, if_neg hd]
    exact (h.newInode type link).refInode _

theorem SizeInv.newNode (h : SizeInv fs) (hn : newNode junk fs dir type link = some (fs', inode)) :
    SizeInv fs' := by
  rw [Fs.newNode] at hn
  split at hn
  next hd =>
    obtain ⟨-, fs1, d1, d2, h1, h2⟩ := newDir_steps hn
    have hnew : SizeInv ((fs.newInode .dir []).1.refInode fs.nextInode) :=
      (h.newInode fun _ => rfl).refInode _
    exact (hnew.addNewDent h1).addNewDent h2
  next hd =>
    obtain ⟨-, rfl⟩ := newLeaf_eq hn
    exact (h.newInode fun ht => absurd ht hd).refInode _

theorem NamesInv.putInode {err : Option Errno} (h : NamesInv fs added)
    (hp : fs.putInode i = some (fs', err)) : NamesInv fs' added := by
  obtain ⟨hl, x, rfl, hx, -⟩ := putInode_setInode hp
  exact h.setInode (fun _ => hl) hx

theorem SizeInv.putInode {err : Option Errno} (h : SizeInv fs)
    (hp : fs.putInode i = some (fs', err)) : SizeInv fs' := by
  obtain ⟨hl, x, rfl, hx, hs⟩ := putInode_setInode hp
  exact h.setInode (fun _ => hl) hx hs

/-- **`tfs_mknod`** adds its name. -/
theorem NamesInv.tfsMknod (h : NamesInv fs added) (ht : TreeInv fs held) (hdir : IsDir fs dir)
    (hne : name ≠ []) (hm : tfsMknod junk fs dir name type link ret = some (fs', r))
    (hj : ∀ k < newDents type, 0 ≤ junk (fs.nextDent + k))
    (hnew : ∀ e ∈ fs.entries dir, (fs.dents e).name ≠ name) :
    NamesInv fs' (DirNames.add (update added fs.nextInode (newNames type))
      (some (dir, name))) := by
  obtain ⟨fs1, fs2, inode, d, err, h1, h2, h3, -⟩ := tfsMknod_steps hne hm
  have hnode := h.newNode ht h1 hj
  have hold : dir ≠ fs.nextInode := ne_of_lt (ht.freshInode dir hdir.1)
  refine (hnode.addNewDent (ht.newNode h1 hj) h2 fun e he heq => ?_).putInode h3
  -- the new inode has not changed the names of the directory
  have hin := (hnode.added dir (addNewDent_eq h2).2.1 name).mpr ⟨e, he, heq⟩
  rw [update_of_ne hold] at hin
  obtain ⟨e', he', heq'⟩ := (h.added dir hdir name).mp hin
  exact hnew e' he' heq'

theorem SizeInv.tfsMknod (h : SizeInv fs)
    (hm : tfsMknod junk fs dir name type link ret = some (fs', r)) : SizeInv fs' := by
  by_cases hne : name = []
  · rw [Fs.tfsMknod, if_pos hne] at hm
    cases hm
    exact h
  · obtain ⟨fs1, fs2, inode, d, err, h1, h2, h3, -⟩ := tfsMknod_steps hne hm
    exact ((h.newNode h1).addNewDent h2).putInode h3

/-! ## 6. Requests -/

variable {dirfd dirfd2 : Dirfd} {follow : Bool} {w w' : Walk} {out : WalkEnd} {cb : Callback}

theorem entryOf_eq (hw : walkTo depth fs dirfd name follow = some (fs', w, out))
    (hdir : fs'.pathLastInode w.path = some dir) :
    fs.entryOf depth dirfd name follow = some (dir, w.leaf) := by
  simp [Fs.entryOf, hw, hdir]

theorem mem_create {e : Option (Nat × Name)} {n : Name}
    (h : ∀ dir m, e = some (dir, m) → m = [] ∨ m ∈ added dir) :
    n ∈ added.create e i ↔ n ∈ added i := by
  cases e with
  | none => rfl
  | some p =>
  obtain ⟨dir, m⟩ := p
  rw [DirNames.create]
  split
  · rfl
  next hm =>
    have hin := (h dir m rfl).resolve_left hm
    by_cases hi : i = dir
    · subst hi
      rw [update_self, mem_cons]
      exact ⟨fun hn => hn.elim (fun he => he ▸ hin) id, .inr⟩
    · rw [update_of_ne hi]

theorem entryOf_walk {p : Nat × Name} (he : fs.entryOf depth dirfd name follow = some p)
    (hw : walkTo depth fs dirfd name follow = some (fs', w, out)) :
    fs'.pathLastInode w.path = some p.1 ∧ w.leaf = p.2 := by
  simp only [Fs.entryOf, hw, bind_eq_bind, bind_some] at he
  obtain ⟨dir, hdir, he⟩ := bind_eq_some_iff.mp he
  obtain rfl := some.inj he
  exact ⟨hdir, rfl⟩

theorem NamesInv.found (h : NamesInv fs added) (ht : TreeInv fs [])
    (hw : walkTo depth fs dirfd name follow = some (fs', w, .found)) :
    NamesInv fs' (added.create (fs.entryOf depth dirfd name follow)) := by
  have hq := (still_walk hw).toQuiet
  refine (h.quiet hq).congr fun i hi n => mem_create fun dir m he => ?_
  obtain ⟨hdir, rfl⟩ := entryOf_walk he hw
  obtain ⟨hl, -⟩ | ⟨dir', d, -, hdir', hf, -, -⟩ := (walkTo_walked hw).2
  · exact .inl hl
  · obtain rfl := some.inj (hdir.symm.trans hdir')
    obtain ⟨hd, hname⟩ := (ht.quiet hq).lookup_some hf
    exact .inr (((h.quiet hq).added dir (tfsLookup_dir hf) w.leaf).mpr ⟨d, hd, hname⟩)

/-- A request that makes its file adds the name. -/
theorem NamesInv.made {fs1 fs2 : Fs} (h : NamesInv fs added) (ht : TreeInv fs [])
    (hw : walkTo depth fs dirfd name follow = some (fs1, w, .missing))
    (hm : Made junk fs1 w cb fs2 w' dir d) :
    NamesInv fs2 (added.create (fs.entryOf depth dirfd name follow)) := by
  have hq := (still_walk hw).toQuiet
  obtain ⟨hleaf, -, dir', hdir', hf⟩ := (walkTo_walked hw).2
  obtain rfl := some.inj (hdir'.symm.trans hm.parent)
  obtain ⟨type, link, hmakes, hmk⟩ := hm.made
  have hnd : newDents type = 0 := if_neg (makes_leaf hmakes)
  have htree1 := ht.quiet hq
  rw [entryOf_eq hw hdir', DirNames.create, if_neg hleaf]
  refine ((h.quiet hq).tfsMknod htree1 (tfsLookup_dir hf) hleaf hmk ?_ fun e he =>
    htree1.lookup_none hf he).congr fun i hi n => ?_
  · rw [hnd]
    exact fun k hk => absurd hk (Nat.not_lt_zero k)
  -- the new inode is no directory: its names do not matter
  have hne : i ≠ fs1.nextInode := by
    intro he
    subst he
    exact makes_leaf hmakes ((tfsMknod_type hleaf hmk).2.2.symm.trans hi.2)
  have hold : dir' ≠ fs1.nextInode :=
    ne_of_lt (htree1.freshInode dir' (tfsLookup_dir hf).1)
  by_cases hi : i = dir'
  · subst hi
    simp [DirNames.add, hne]
  · simp [DirNames.add, hi, hne]

theorem openCheck_made {flags : OpenFlags} {e : Errno} (hex : flags.excl = false)
    (hdir : flags.directory = false) (hw : flags.write ∨ flags.trunc = false ∧ flags.append = false)
    (ht : fs.targetType w ≠ some .dir) : fs.openCheck w flags ≠ some (some e) := by
  simp only [Fs.openCheck, hex, hdir]
  cases hwr : flags.write with
  | false =>
    obtain ⟨htr, hap⟩ := hw.resolve_left (by rw [hwr]; decide)
    simp [htr, hap]
  | true =>
  cases htt : fs.targetType w with
  | none => simp
  | some t =>
    have hne : t ≠ .dir := fun he => ht (he ▸ htt)
    simp [hne]

/-- What one request keeps: the names, and the sizes if it meets `SizeOk`. -/
structure Keeps (depth : Nat) (s : DirState) (req : Req) (fs' : Fs) (r : Except Errno Nat) :
    Prop where
  names : NamesInv fs' (s.after depth req fs' r).added
  size : SizeInv s.fs → SizeOk depth s.fs req → SizeInv fs'

section Requests

variable {s : DirState} {req : Req} (ht : TreeInv s.fs []) (h : NamesInv s.fs s.added)
include ht h

omit ht in
theorem keeps_quiet (hq : Quiet s.fs fs') (hmeans : req.means depth s.fs s.added = s.added) :
    Keeps depth s req fs' r := by
  refine ⟨?_, fun hs _ => hs.quiet hq⟩
  cases r with
  | ok n =>
    rw [DirState.after, hmeans]
    exact h.quiet hq
  | error e => exact h.quiet hq

theorem keeps_open {flags : OpenFlags} (hok : NamesOk depth s.fs (.open dirfd name flags))
    (ho : fsOpen junk depth s.fs dirfd name flags = some (fs', r)) :
    Keeps depth s (.open dirfd name flags) fs' r := by
  obtain ⟨fs2, w2, err, hh, hend⟩ := fsOpen_cases ho
  obtain ⟨fs1, w, out, hw, ⟨rfl, rfl, herr, -⟩ | ⟨rfl, rfl, dir, d, hmade⟩⟩ := handleXxxat_cases hh
  · have hq := (still_walk hw).toQuiet
    rcases hend with ⟨e, rfl, rfl, -⟩ | ⟨fid, rfl, rfl, -, hfid⟩
    · exact ⟨h.quiet hq, fun hs _ => hs.quiet hq⟩
    have hq' := quiet_newFidRecord hfid
    refine ⟨?_, fun hs _ => hs.quiet (hq.trans hq')⟩
    cases out with
    | error e => cases herr
    | missing => cases herr
    | found =>
    rw [DirState.after, Req.means]
    split
    · exact (h.found ht hw).quiet hq'
    · exact (h.quiet hq).quiet hq'
  obtain ⟨type, link, hmakes, hmk⟩ := hmade.made
  obtain ⟨hex, hdirf, hwr⟩ := hok hmade.creat _ hw rfl
  have hnames := h.made ht hw hmade
  have hsize : SizeInv s.fs → SizeInv fs2 := fun hs =>
    (hs.quiet (still_walk hw).toQuiet).tfsMknod hmk
  rcases hend with ⟨e, rfl, rfl, hbad⟩ | ⟨fid, rfl, -, -, hfid⟩
  · -- the new file is regular: no check of the flags fails
    obtain ⟨-, hino, htype⟩ := tfsMknod_type (walkTo_walked hw).2.1 hmk
    refine absurd (hbad rfl) (openCheck_made hex hdirf hwr fun htt => ?_)
    rw [hmade.walk] at htt
    simp only [Fs.targetType, hino, bind_eq_bind, bind_some] at htt
    obtain ⟨x, hx, htt⟩ := bind_eq_some_iff.mp htt
    obtain ⟨-, rfl⟩ := inode_eq_some hx
    exact makes_leaf hmakes (htype.symm.trans (some.inj htt))
  · have hq' := quiet_newFidRecord hfid
    refine ⟨?_, fun hs _ => (hsize hs).quiet hq'⟩
    rw [DirState.after, Req.means, if_pos hmade.creat]
    exact hnames.quiet hq'

theorem keeps_symlinkat {link : Name}
    (ho : fsSymlinkat junk depth s.fs dirfd name link follow = some (fs', r)) :
    Keeps depth s (.symlinkat dirfd name link follow) fs' r := by
  obtain ⟨⟨fs2, w2, err⟩, hh, ho⟩ := bind_eq_some_iff.mp ho
  obtain ⟨fs1, w, out, hw, ⟨rfl, rfl, herr, -⟩ | ⟨rfl, rfl, dir, d, hmade⟩⟩ := handleXxxat_cases hh
  · have hq := (still_walk hw).toQuiet
    cases err with
    | some e =>
      cases ho
      exact ⟨h.quiet hq, fun hs _ => hs.quiet hq⟩
    | none =>
    cases ho
    cases out with
    | error e => cases herr
    | missing => cases herr
    | found => exact ⟨h.found ht hw, fun hs _ => hs.quiet hq⟩
  · have hnames := h.made ht hw hmade
    obtain ⟨type, link, hmakes, hmk⟩ := hmade.made
    cases ho
    exact ⟨hnames, fun hs _ => (hs.quiet (still_walk hw).toQuiet).tfsMknod hmk⟩

omit ht h in
theorem NotThere.names (hn : NotThere fs w) (ht : TreeInv fs held) (hdir : IsDir fs dir)
    (hw : fs.pathLastInode w.path = some dir) : ∀ e ∈ fs.entries dir, (fs.dents e).name ≠ w.leaf := by
  intro e he
  have hfind := hn dir hw _ (ht.tfsLookup hdir.1 hdir.2)
  simpa using List.find?_eq_none.mp hfind e he

theorem keeps_mkdirat (htok : TreeOk junk depth s.fs (.mkdirat dirfd name follow))
    (hok : NamesOk depth s.fs (.mkdirat dirfd name follow))
    (hm : fsMkdirat junk depth s.fs dirfd name follow = some (fs', r)) :
    Keeps depth s (.mkdirat dirfd name follow) fs' r := by
  rcases ht.fsMkdirat htok hm with ⟨e, rfl, rfl⟩ |
    ⟨fs1, w, out, dir, fs2, d, hw, hgo, hdir, hisDir, hleaf, hmk, rfl, rfl, -⟩
  · exact ⟨h, fun hs _ => hs⟩
  have hj := htok _ hw hgo
  have hthere : NotThere fs1 w := hok _ hw hgo
  have hq := (still_walk hw).toQuiet
  have hinv := ht.walked (walkTo_walked hw).1
  rw [← hq.nextDent] at hj
  have hnames := (h.quiet hq).tfsMknod hinv hisDir hleaf hmk
    (fun k hk => hj k (Nat.lt_succ_of_lt hk)) (hthere.names hinv hisDir hdir)
  refine ⟨?_, fun hs _ => ?_⟩
  · rw [DirState.after, Req.means, entryOf_eq hw hdir, ← hq.nextInode]
    exact ⟨hnames.unique, hnames.added⟩
  · have hsize : SizeInv fs2 := (hs.quiet hq).tfsMknod hmk
    exact hsize

omit ht h in
theorem entryOf_names {d : Nat} (hn : Names depth fs dirfd name follow dir d) :
    fs.entryOf depth dirfd name follow = some (dir, (fs.dents d).name) := by
  obtain ⟨⟨fs1, w, hw, -, hdir, hname, -, -⟩, -⟩ := hn
  rw [entryOf_eq hw hdir, hname]

theorem keeps_unlinkat {rmdir : Bool} {flags : BitVec 32}
    (hu : fsUnlinkat junk depth s.fs dirfd name rmdir follow flags = some (fs', r)) :
    Keeps depth s (.unlinkat dirfd name rmdir follow flags) fs' r := by
  rcases ht.fsUnlinkat hu with ⟨e, rfl, rfl⟩ | ⟨hflags, dir, d, hn, htype, ⟨e, rfl, hput⟩ |
    ⟨fs1, rfl, hput, rfl⟩⟩
  · exact ⟨h, fun hs _ => hs⟩
  · exact ⟨h.putInode hput, fun hs _ => hs.putInode hput⟩
  obtain ⟨hl, x, rfl, -⟩ := putInode_setInode hput
  refine ⟨?_, fun hs hok => ?_⟩
  · rw [DirState.after, Req.means, entryOf_names hn]
    exact (h.putInode hput).unlinkDent (ht.putInode hput) hn.mem
  -- what is removed is of the kind that was asked for
  obtain ⟨⟨fs1, w, hw, hleaf, -, -, -, htarget⟩, -⟩ := hn
  have hkind := hok hflags _ hw rfl hleaf
  rw [walk_targetType hw hl htarget, some_inj, htype] at hkind
  cases rmdir with
  | false => exact absurd (hkind.mpr rfl) Bool.false_ne_true
  | true => exact absurd (hkind.mp rfl) (by decide)

end Requests

theorem oldEntry_eq {dOld dirOld : Nat} (ho : fs.oldDent depth dirfd name = some dOld)
    (hn : (fs.dents dOld).node = some dirOld) :
    fs.oldEntry depth dirfd name = some (dirOld, (fs.dents dOld).name) := by
  simp [Fs.oldEntry, ho, hn]

theorem mem_drop_add {dirOld : Nat} {n m k : Name} (hne : dirOld = dir → n ≠ m) :
    k ∈ DirNames.drop (DirNames.add added (some (dir, n))) (some (dirOld, m)) i ↔
      k ∈ DirNames.add (DirNames.drop added (some (dirOld, m))) (some (dir, n)) i := by
  simp only [DirNames.add, DirNames.drop]
  by_cases ho : i = dirOld
  · subst ho
    by_cases hd : i = dir
    · subst hd
      have hnm := hne rfl
      simp only [update_self, mem_filter, mem_cons, decide_eq_true_eq]
      constructor
      · rintro ⟨rfl | hk, hkm⟩
        · exact .inl rfl
        · exact .inr ⟨hk, hkm⟩
      · rintro (rfl | ⟨hk, hkm⟩)
        · exact ⟨.inl rfl, hnm⟩
        · exact ⟨.inr hk, hkm⟩
    · simp [hd]
  · by_cases hd : i = dir
    · subst hd
      simp [ho]
    · simp [ho, hd]

theorem NamesInv.moveDent {x : Dentry} {dirOld dOld : Nat} (h : NamesInv fs added)
    (ht : TreeInv fs []) (hlink : TreeInv (fs.linkDent dir x) [])
    (hnew : ∀ e ∈ fs.entries dir, (fs.dents e).name ≠ x.name) (hold : dOld ∈ fs.entries dirOld) :
    NamesInv (fs.moveDent dir x dirOld dOld)
      ((added.drop (some (dirOld, (fs.dents dOld).name))).add (some (dir, x.name))) := by
  have hne : dOld ≠ fs.nextDent := ne_of_lt (ht.freshDent _ (ht.live hold))
  have hmoved := (h.linkDent ht hnew).unlinkDent hlink ((mem_linkDent x).mpr (.inr hold))
  rw [linkDent_of_ne x hne] at hmoved
  refine hmoved.congr fun i _ n => (mem_drop_add fun hd => ?_).symm
  exact (hnew dOld (hd ▸ hold)).symm

theorem SizeInv.moveDent {x : Dentry} {dOld : Nat} (h : SizeInv fs) (hold : dOld ∈ fs.entries dir) :
    SizeInv (fs.moveDent dir x dir dOld) := by
  intro i hi
  have hsize : (fs.inodes i).size = (fs.entries i).length := h i hi
  by_cases hid : i = dir
  · subst hid
    have hlen := length_erase_of_mem (mem_cons_of_mem fs.nextDent hold)
    simp only [Fs.moveDent, Fs.unlinkDent, Fs.linkDent, Fs.setDent, update_self]
    rw [hlen]
    exact hsize
  · simp only [Fs.moveDent, Fs.unlinkDent, Fs.linkDent, Fs.setDent, update_of_ne hid]
    exact hsize

theorem keeps_rename {s : DirState} {name2 : Name} (ht : TreeInv s.fs [])
    (h : NamesInv s.fs s.added) (htok : TreeOk junk depth s.fs (.rename dirfd name dirfd2 name2))
    (hok : NamesOk depth s.fs (.rename dirfd name dirfd2 name2))
    (hr : fsRename junk depth s.fs dirfd name dirfd2 name2 = some (fs', r)) :
    Keeps depth s (.rename dirfd name dirfd2 name2) fs' r := by
  rcases ht.fsRename htok hr with ⟨l, -, rfl, hwhy⟩ |
    ⟨dOld, fs2, w, out, dir, dirOld, hold, hw, hgo, hnf, hdir, hisDir, hmem, rfl, rfl, -⟩
  · have hq := (still_addRefs s.fs l).toQuiet
    rcases hwhy with ⟨e, rfl⟩ | ⟨d, fs2, w, hold, hw⟩
    · exact ⟨h.quiet hq, fun hs _ => hs.quiet hq⟩
    · exact absurd rfl (hok (by rw [hold]; exact some_ne_none d) _ hw
        (by decide : WalkEnd.found.GoesOn)).1
  obtain ⟨hcnt, hjunk⟩ := htok dOld hold
  have hthere : NotThere fs2 w :=
    (hok (by rw [hold]; exact some_ne_none dOld) _ hw hgo).2
  have hwalked := (walkTo_walked hw).1
  have hnode := ((ht.mem_iff _ _).mp hmem).2
  have hnew : ∀ e ∈ s.fs.entries dir, (s.fs.dents e).name ≠ w.leaf := by
    have hnames := hthere.names (ht.walked hwalked) ((still_walk hw).toQuiet.isDir.mpr hisDir) hdir
    rw [hwalked.refs] at hnames
    exact hnames
  refine ⟨?_, fun hs hso => ?_⟩
  · have hlink := ht.linkDent (x := ⟨w.leaf, (s.fs.dents dOld).inode, junk s.fs.nextDent, some dir,
      true⟩) rfl rfl (hjunk _ hw hgo hnf) (ht.freshInode dir hisDir.1)
      (ht.target dOld (ht.live hmem))
    rw [DirState.after, Req.means, oldEntry_eq hold hnode, entryOf_eq hw hdir]
    exact h.moveDent ht hlink hnew hmem
  · have hsame : fs2.pathLastInode w.path = (s.fs.dents dOld).node := hso dOld hold _ hw hgo
    rw [hdir, hnode] at hsame
    obtain rfl := some.inj hsame
    exact hs.moveDent hmem

/-! ## 7. Runs -/

structure DirInv (s : DirState) : Prop where
  tree : TreeInv s.fs []
  names : NamesInv s.fs s.added

variable {s : DirState} {req : Req}

theorem DirInv.keeps (h : DirInv s) (htok : TreeOk junk depth s.fs req)
    (hok : NamesOk depth s.fs req) (hr : request junk depth s.fs req = some (fs', r)) :
    Keeps depth s req fs' r := by
  cases req with
  | «open» dirfd path flags => exact keeps_open h.tree h.names hok hr
  | close fd => exact keeps_quiet h.names (quiet_close hr) rfl
  | chdir dirfd path follow => exact keeps_quiet h.names (h.tree.quiet_chdir hr) rfl
  | mkdirat dirfd path follow => exact keeps_mkdirat h.tree h.names htok hok hr
  | unlinkat dirfd path rmdir follow flags => exact keeps_unlinkat h.tree h.names hr
  | symlinkat dirfd path link follow => exact keeps_symlinkat h.tree h.names hr
  | rename dirfd path dirfd2 path2 => exact keeps_rename h.tree h.names htok hok hr
  | fstatat dirfd path follow flags => exact keeps_quiet h.names (h.tree.still_fstatat hr).toQuiet rfl
  | faccessat dirfd path follow flags => exact keeps_quiet h.names (still_faccessat hr).toQuiet rfl
  | getSize name => exact keeps_quiet h.names (h.tree.still_getSize hr).toQuiet rfl

theorem dirStep_keeps {s' : DirState} (h : DirInv s) (htok : TreeOk junk depth s.fs req)
    (hok : NamesOk depth s.fs req) (hs : dirStep junk depth s req = some s') :
    DirInv s' ∧ (SizeInv s.fs → SizeOk depth s.fs req → SizeInv s'.fs) := by
  obtain ⟨⟨fs', r⟩, hr, rfl⟩ := map_eq_some_iff.mp hs
  obtain ⟨hnames, hsize⟩ := h.keeps htok hok hr
  have htree := h.tree.request htok hr
  cases r with
  | error e | ok n => exact ⟨⟨htree, hnames⟩, hsize⟩

theorem dirInv_start (h : initTmpfs junk = some fs) (h0 : 0 ≤ junk 0) (h1 : 0 ≤ junk 1)
    (h2 : 1 ≤ junk 2) : DirInv (.start fs) ∧ SizeInv fs := by
  obtain rfl := initTmpfs_eq h
  have hroot : ∀ {i}, IsDir (Fs.booted junk) i → i = 0 := by
    intro i hi
    by_contra hne
    simp [IsDir, Fs.booted, Fs.empty, hne] at hi
  have hentries : ∀ {d}, d ∈ (Fs.booted junk).entries 0 → d = 1 ∨ d = 0 := by
    intro d hd
    simpa [Fs.booted] using hd
  refine ⟨⟨treeInv_booted h0 h1 h2, fun i hi d hd e he heq => ?_, fun i hi n => ?_⟩, fun i hi => ?_⟩
  · obtain rfl := hroot hi
    rcases hentries hd with rfl | rfl <;> rcases hentries he with rfl | rfl
    · rfl
    · cases heq
    · cases heq
    · rfl
  · obtain rfl := hroot hi
    simp [DirState.start, Fs.booted, tmpfsRoot, eq_comm]
  · obtain rfl := hroot hi
    rfl

/-- **The directories are right** after every request of a run that also meets `SizeOk`. -/
theorem dirs_run (reqs : List Req) (hinit : initTmpfs junk = some fs) (h₀ : 0 ≤ junk 0)
    (h₁ : 0 ≤ junk 1) (h₂ : 1 ≤ junk 2) (hok : ∀ t ∈ trace (dirStep junk depth) (.start fs) reqs,
      TreeOk junk depth t.pre.fs t.act ∧ NamesOk depth t.pre.fs t.act ∧
        SizeOk depth t.pre.fs t.act) :
    ∀ t ∈ trace (dirStep junk depth) (.start fs) reqs, DirsRight t.post := by
  intro t ht
  have hstep : ∀ s req s', DirInv s ∧ SizeInv s.fs →
      TreeOk junk depth s.fs req ∧ NamesOk depth s.fs req ∧ SizeOk depth s.fs req →
      dirStep junk depth s req = some s' → DirInv s' ∧ SizeInv s'.fs := by
    intro s req s' h hc hs
    obtain ⟨hinv, hsize⟩ := dirStep_keeps h.1 hc.1 hc.2.1 hs
    exact ⟨hinv, hsize h.2 hc.2.2⟩
  obtain ⟨hinv, hsize⟩ := (trace_inv hstep reqs _ (dirInv_start hinit h₀ h₁ h₂) hok t ht).2
  exact ⟨hinv.names.namesRight hinv.tree, hsize⟩

/-- A directory, a file in it, a link beside it; the file gets another name. -/
def treeRun : List Req :=
  [.mkdirat .root ['/', 'a'] true, .open .root ['/', 'a', '/', 'f'] creatFlags,
    .symlinkat .root ['/', 'l'] ['a', '/', 'f'] true,
    .rename .root ['/', 'a', '/', 'f'] .root ['/', 'a', '/', 'g'],
    .unlinkat .root ['/', 'x'] false true 0]

theorem dirs_run_tree :
    (trace (dirStep ones 4) (.start (.booted ones)) treeRun).length = 5 ∧
      ∀ t ∈ trace (dirStep ones 4) (.start (.booted ones)) treeRun, DirsRight t.post :=
  ⟨by decide +kernel, dirs_run treeRun initTmpfs_ones (by decide) (by decide) (by decide)
    (by decide +kernel)⟩

/-- A directory is made twice. -/
def twiceRun : List Req := [.mkdirat .root ['/', 'a'] true, .mkdirat .root ['/', 'a'] true]

/-- A file is made and removed. -/
def removeRun : List Req :=
  [.open .root ['/', 'f'] creatFlags, .unlinkat .root ['/', 'f'] false true 0]

/-- `O_CREAT | O_EXCL` -/
def exclRun : List Req := [.open .root ['/', 'f'] ⟨true, true, false, true, false, false, false⟩]

/-- A file gets the name of another one. -/
def ontoRun : List Req :=
  [.open .root ['/', 'f'] creatFlags, .open .root ['/', 'g'] creatFlags,
    .rename .root ['/', 'f'] .root ['/', 'g']]

/-- A run that ends with a name in the root that nobody has put there. -/
theorem exists_not_dirsRight {reqs : List Req} (n : Name)
    (h : (exec (dirStep ones 4) (.start (.booted ones)) (req :: reqs)).any (fun s =>
      ((s.fs.inodes 0).live ∧ (s.fs.inodes 0).type = .dir) ∧ n ∉ s.added 0 ∧
        s.fs.tfsLookup 0 n ≠ some none) = true) :
    ∃ t ∈ trace (dirStep ones 4) (.start (.booted ones)) (req :: reqs), ¬ DirsRight t.post := by
  obtain ⟨t, ht, hdir, hnot, hfound⟩ := trace_of_exec h
  exact ⟨t, ht, fun h => hfound (h.findsOnly 0 hdir n hnot)⟩

/-- **Four runs that leave a directory wrong.** In the first two dentries have one name. In the
    second `dir->size` is 3 and there are 2 dentries. In the third `open` fails and its file is
    there. In the last `rename` returns 0 and the old name is still there. -/
theorem dirs_run_broken :
    (∃ t ∈ trace (dirStep ones 4) (.start (.booted ones)) twiceRun, ¬ DirsRight t.post) ∧
    (∃ t ∈ trace (dirStep ones 4) (.start (.booted ones)) removeRun, ¬ DirsRight t.post) ∧
    (∃ t ∈ trace (dirStep ones 4) (.start (.booted ones)) exclRun, ¬ DirsRight t.post) ∧
    ∃ t ∈ trace (dirStep ones 4) (.start (.booted ones)) ontoRun, ¬ DirsRight t.post := by
  refine ⟨?_, ?_, ?_, ?_⟩
  · have hend : (exec (dirStep ones 4) (.start (.booted ones)) twiceRun).any (fun s =>
        ((s.fs.inodes 0).live ∧ (s.fs.inodes 0).type = .dir) ∧ 5 ∈ s.fs.entries 0 ∧
          8 ∈ s.fs.entries 0 ∧ (s.fs.dents 5).name = (s.fs.dents 8).name) = true := by
      decide +kernel
    obtain ⟨t, ht, hdir, h5, h8, hname⟩ := trace_of_exec hend
    refine ⟨t, ht, fun h => ?_⟩
    cases h.unique 0 hdir 5 h5 8 h8 hname
  · have hend : (exec (dirStep ones 4) (.start (.booted ones)) removeRun).any (fun s =>
        ((s.fs.inodes 0).live ∧ (s.fs.inodes 0).type = .dir) ∧
          (s.fs.inodes 0).size ≠ (s.fs.entries 0).length) = true := by
      decide +kernel
    obtain ⟨t, ht, hdir, hsize⟩ := trace_of_exec hend
    exact ⟨t, ht, fun h => hsize (h.size 0 hdir)⟩
  · exact exists_not_dirsRight ['f'] (by decide +kernel)
  · exact exists_not_dirsRight ['f'] (by decide +kernel)

end ChCore.Tmpfs
