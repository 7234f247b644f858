/-
  File: ChCore/Tmpfs/TreeInv.lean
  Subject: References of paths, and the invariant of the directory tree.

  * `TreeInv` -- a dentry of a directory is live and knows its directory, a live dentry has one
    reference more than the paths that are `held`.
-/
import ChCore.Tmpfs.Requests

namespace ChCore.Tmpfs

open Fs Function Option List

/-! ## 1. References -/

/-- One more reference for each dentry of the list. -/
def Fs.addRefs (fs : Fs) (l : List Nat) : Fs :=
  { fs with dents := fun d => { fs.dents d with refcnt := (fs.dents d).refcnt + l.count d } }

/-- One reference less for each dentry of the list. -/
def Fs.dropRefs (fs : Fs) (l : List Nat) : Fs :=
  { fs with dents := fun d => { fs.dents d with refcnt := (fs.dents d).refcnt - l.count d } }

variable {fs fs' : Fs} {d i dir : Nat} {l m path path' : List Nat} {name : Name}

@[simp] theorem addRefs_nil (fs : Fs) : fs.addRefs [] = fs := by
  simp [Fs.addRefs]

theorem addRefs_append (fs : Fs) (l m : List Nat) : (fs.addRefs l).addRefs m = fs.addRefs (l ++ m) := by
  simp [Fs.addRefs, count_append, Int.add_assoc]

@[simp] theorem dropRefs_addRefs (fs : Fs) (l : List Nat) : (fs.addRefs l).dropRefs l = fs := by
  simp [Fs.addRefs, Fs.dropRefs]

theorem dent_eq_some {x : Dentry} (h : fs.dent d = some x) : (fs.dents d).live ∧ x = fs.dents d := by
  obtain ⟨hl, hx⟩ := ite_none_right_eq_some.mp h
  exact ⟨hl, (some.inj hx).symm⟩

theorem inode_eq_some {x : Inode} (h : fs.inode i = some x) :
    (fs.inodes i).live ∧ x = fs.inodes i := by
  obtain ⟨hl, hx⟩ := ite_none_right_eq_some.mp h
  exact ⟨hl, (some.inj hx).symm⟩

theorem setDent_refcnt (fs : Fs) (d : Nat) :
    fs.setDent d { fs.dents d with refcnt := (fs.dents d).refcnt + 1 } = fs.addRefs [d] := by
  simp only [Fs.setDent, Fs.addRefs]
  congr 1
  funext e
  by_cases he : e = d
  · subst he
    simp
  · simp [update_of_ne he, Ne.symm he]

theorem getDent_eq (h : fs.getDent d = some fs') : (fs.dents d).live ∧ fs' = fs.addRefs [d] := by
  obtain ⟨x, hx, h⟩ := bind_eq_some_iff.mp h
  obtain ⟨hl, rfl⟩ := dent_eq_some hx
  obtain ⟨-, h⟩ := ite_none_right_eq_some.mp h
  exact ⟨hl, by rw [← setDent_refcnt]; exact (some.inj h).symm⟩

/-! ## 2. Walks -/

/-- The path has become longer by `l`, and holds a reference to each dentry of it. -/
structure Extends (fs : Fs) (path : List Nat) (fs' : Fs) (path' : List Nat) (l : List Nat) : Prop where
  path : path' = path ++ l
  refs : fs' = fs.addRefs l
  live : ∀ d ∈ l, (fs.dents d).live

theorem Extends.refl (fs : Fs) (path : List Nat) : Extends fs path fs path [] :=
  ⟨(append_nil _).symm, (addRefs_nil fs).symm, nofun⟩

theorem Extends.trans {fs1 fs2 fs3 : Fs} {p1 p2 p3 l m : List Nat} (h : Extends fs1 p1 fs2 p2 l)
    (h' : Extends fs2 p2 fs3 p3 m) : Extends fs1 p1 fs3 p3 (l ++ m) := by
  obtain ⟨rfl, rfl, hl⟩ := h
  obtain ⟨rfl, rfl, hm⟩ := h'
  refine ⟨append_assoc _ _ _, addRefs_append _ _ _, fun d hd => ?_⟩
  rcases mem_append.mp hd with h | h
  · exact hl d h
  · exact hm d h

theorem pathAppend_extends (h : fs.pathAppend path d = some (fs', path')) :
    Extends fs path fs' path' [d] := by
  obtain ⟨fs1, h1, h⟩ := bind_eq_some_iff.mp h
  obtain ⟨hl, rfl⟩ := getDent_eq h1
  cases h
  exact ⟨rfl, rfl, fun e he => by rw [mem_singleton.mp he]; exact hl⟩

theorem pathCopy_extends {src : List Nat} (h : fs.pathCopy path src = some (fs', path')) :
    Extends fs path fs' path' src := by
  induction src generalizing fs path with
  | nil =>
    cases h
    exact .refl _ _
  | cons d src ih =>
    obtain ⟨⟨fs1, path1⟩, h1, h⟩ := bind_eq_some_iff.mp h
    exact (pathAppend_extends h1).trans (ih h)

variable {depth : Nat} (x : Dentry) {n : Namex}

theorem namexLoop_extends {link : Fs → List Nat → Name → Option Namex}
    (hlink : ∀ {fs path name n}, link fs path name = some n → ∃ l, Extends fs path n.fs n.path l)
    {inLink : Bool} {fuel parent : Nat}
    (h : namexLoop link inLink fs parent path fuel name = some n) :
    ∃ l, Extends fs path n.fs n.path l := by
  induction fuel generalizing fs path parent name with
  | zero => cases h
  | succ fuel ih =>
    rw [namexLoop] at h
    split at h
    · cases h
      exact ⟨[], .refl _ _⟩
    split at h
    · cases (ite_none_left_eq_some.mp h).2
      exact ⟨[], .refl _ _⟩
    obtain ⟨found, -, h⟩ := bind_eq_some_iff.mp h
    cases found with
    | none =>
      cases h
      exact ⟨[], .refl _ _⟩
    | some d =>
    obtain ⟨⟨fs1, path1⟩, h1, h⟩ := bind_eq_some_iff.mp h
    obtain ⟨x, -, h⟩ := bind_eq_some_iff.mp h
    split at h
    · obtain ⟨n', hn, rfl⟩ := map_eq_some_iff.mp h
      obtain ⟨l, hl⟩ := hlink hn
      exact ⟨[d] ++ l, (pathAppend_extends h1).trans hl⟩
    obtain ⟨-, h⟩ := ite_none_left_eq_some.mp h
    split at h
    · cases h
      exact ⟨[d], pathAppend_extends h1⟩
    · obtain ⟨l, hl⟩ := ih h
      exact ⟨[d] ++ l, (pathAppend_extends h1).trans hl⟩

theorem namexLink_extends (h : namexLink depth fs path name = some n) :
    ∃ l, Extends fs path n.fs n.path l := by
  induction depth generalizing fs path name n with
  | zero => cases h
  | succ depth ih =>
    obtain ⟨-, h⟩ := ite_none_left_eq_some.mp h
    obtain ⟨dir, -, h⟩ := bind_eq_some_iff.mp h
    exact namexLoop_extends ih h

theorem tfsNamex_extends (h : fs.tfsNamex depth path name = some n) :
    ∃ l, Extends fs path n.fs n.path l := by
  obtain ⟨dir, -, h⟩ := bind_eq_some_iff.mp h
  exact namexLoop_extends namexLink_extends h

/-- What is known where a walk has ended. -/
def EndOk (fs : Fs) (w : Walk) : WalkEnd → Prop
  | .error _ => True
  | .missing => w.leaf ≠ [] ∧ w.targetDent = none ∧
      ∃ dir, fs.pathLastInode w.path = some dir ∧ fs.tfsLookup dir w.leaf = some none
  | .found => (w.leaf = [] ∧ (w.target = none ∨ w.target = fs.pathLastInode w.path)) ∨
      ∃ dir d, w.leaf ≠ [] ∧ fs.pathLastInode w.path = some dir ∧
      fs.tfsLookup dir w.leaf = some (some d) ∧ w.targetDent = some d ∧
      w.target = some (fs.dents d).inode

variable {w : Walk} {r : Except Errno Nat} {err : Option Errno}

theorem walkInternal_extends {follow : Bool} {w' : Walk} {out : WalkEnd}
    (h : walkInternal follow depth fs w name = some (fs', w', out)) (hw : w.target = none) :
    (∃ l, Extends fs w.path fs' w'.path l) ∧ EndOk fs' w' out := by
  induction depth generalizing fs w name with
  | zero => cases h
  | succ depth ih =>
    obtain ⟨-, h⟩ := ite_none_left_eq_some.mp h
    split at h
    next =>
      -- the path is over: the target is where the walk stands
      obtain ⟨i, hi, h⟩ := bind_eq_some_iff.mp h
      cases h
      exact ⟨⟨[], .refl _ _⟩, .inl ⟨rfl, .inr hi.symm⟩⟩
    next =>
      obtain ⟨n, hn, h⟩ := bind_eq_some_iff.mp h
      obtain ⟨l, hl⟩ := tfsNamex_extends hn
      split at h
      next =>
        cases h
        exact ⟨⟨l, hl⟩, trivial⟩
      next =>
        obtain ⟨parent, hp, h⟩ := bind_eq_some_iff.mp h
        split at h
        next hleaf =>
          obtain ⟨x, -, h⟩ := bind_eq_some_iff.mp h
          split at h <;> cases h
          · exact ⟨⟨l, hl⟩, trivial⟩
          · exact ⟨⟨l, hl⟩, .inl ⟨hleaf, .inl hw⟩⟩
        next hleaf =>
          obtain ⟨found, hf, h⟩ := bind_eq_some_iff.mp h
          cases found with
          | none =>
            cases h
            exact ⟨⟨l, hl⟩, hleaf, rfl, parent, hp, hf⟩
          | some d =>
          obtain ⟨x, -, h⟩ := bind_eq_some_iff.mp h
          split at h
          next =>
            obtain ⟨⟨fs1, path1⟩, h1, h⟩ := bind_eq_some_iff.mp h
            have hl1 := hl.trans (pathAppend_extends h1)
            obtain ⟨-, h⟩ := ite_none_left_eq_some.mp h
            split at h
            next =>
              obtain ⟨⟨fs2, path2⟩, h2, h⟩ := bind_eq_some_iff.mp h
              obtain ⟨⟨m, hm⟩, hend⟩ := ih h hw
              exact ⟨⟨_, (hl1.trans (pathAppend_extends h2)).trans hm⟩, hend⟩
            next =>
              obtain ⟨⟨m, hm⟩, hend⟩ := ih h hw
              exact ⟨⟨_, hl1.trans hm⟩, hend⟩
          next =>
            cases h
            exact ⟨⟨l, hl⟩, .inr ⟨parent, d, hleaf, hp, hf, rfl, rfl⟩⟩

/-- **A walk**: the memory has one more reference for each component of the path, and nothing else
    has changed. -/
structure Walked (fs fs' : Fs) (w : Walk) : Prop where
  refs : fs' = fs.addRefs w.path
  live : ∀ d ∈ w.path, (fs.dents d).live

theorem Extends.walked (h : Extends fs [] fs' w.path l) : Walked fs fs' w := by
  obtain ⟨hp, hr, hl⟩ := h
  exact ⟨hp ▸ hr, hp ▸ hl⟩

theorem walkTo_walked {dirfd : Dirfd} {follow : Bool} {out : WalkEnd}
    (h : walkTo depth fs dirfd name follow = some (fs', w, out)) :
    Walked fs fs' w ∧ EndOk fs' w out := by
  obtain ⟨-, h⟩ := ite_none_left_eq_some.mp h
  obtain ⟨⟨fs1, start⟩, hs, h⟩ := bind_eq_some_iff.mp h
  have hstart : ∀ comps, start = some comps → ∃ l, Extends fs [] fs1 comps l := by
    rintro comps rfl
    cases dirfd with
    | root =>
      obtain ⟨⟨fs2, path2⟩, h2, hs⟩ := bind_eq_some_iff.mp hs
      cases hs
      exact ⟨_, pathAppend_extends h2⟩
    | fid n =>
    obtain ⟨record, -, hs⟩ := bind_eq_some_iff.mp hs
    cases record with
    | none => cases hs
    | some r =>
      obtain ⟨⟨fs2, path2⟩, h2, hs⟩ := bind_eq_some_iff.mp hs
      cases hs
      exact ⟨_, pathCopy_extends h2⟩
  cases start with
  | none =>
    cases h
    cases dirfd with
    | root =>
      obtain ⟨⟨fs2, path2⟩, h2, hs⟩ := bind_eq_some_iff.mp hs
      cases hs
    | fid n =>
    obtain ⟨record, -, hs⟩ := bind_eq_some_iff.mp hs
    cases record with
    | none =>
      cases hs
      exact ⟨(Extends.refl fs []).walked, trivial⟩
    | some r =>
      obtain ⟨⟨fs2, path2⟩, h2, hs⟩ := bind_eq_some_iff.mp hs
      cases hs
  | some comps =>
    obtain ⟨l, hl⟩ := hstart comps rfl
    obtain ⟨i, -, h⟩ := bind_eq_some_iff.mp h
    obtain ⟨⟨m, hm⟩, hend⟩ := walkInternal_extends h rfl
    exact ⟨(hl.trans hm).walked, hend⟩

/-! ## 3. The invariant -/

/-- **The tree**, while the paths in `held` are in use. -/
structure TreeInv (fs : Fs) (held : List Nat) : Prop where
  mem_iff : ∀ i d, d ∈ fs.entries i ↔ (fs.dents d).live ∧ (fs.dents d).node = some i
  nodup : ∀ i, (fs.entries i).Nodup
  root : (fs.dents tmpfsRootDent).live ∧ (fs.dents tmpfsRootDent).node = none
  loose : ∀ d, (fs.dents d).live → (fs.dents d).node = none → d = tmpfsRootDent
  refs : ∀ d, (fs.dents d).live → held.count d + 1 ≤ (fs.dents d).refcnt
  heldLive : ∀ d ∈ held, (fs.dents d).live
  freshDent : ∀ d, (fs.dents d).live → d < fs.nextDent
  freshInode : ∀ i, (fs.inodes i).live → i < fs.nextInode
  freshTable : ∀ i d, d ∈ fs.entries i → i < fs.nextInode
  target : ∀ d, (fs.dents d).live → (fs.dents d).inode < fs.nextInode

variable {held : List Nat}

theorem TreeInv.live (h : TreeInv fs held) (hd : d ∈ fs.entries i) : (fs.dents d).live :=
  ((h.mem_iff i d).mp hd).1

theorem TreeInv.walk (h : TreeInv fs held) (hl : ∀ d ∈ l, (fs.dents d).live) :
    TreeInv (fs.addRefs l) (held ++ l) := by
  refine { h with refs := fun d hd => ?_, heldLive := fun d hd => ?_ }
  · have := h.refs d hd
    simp only [Fs.addRefs, count_append]
    omega
  · exact (mem_append.mp hd).elim (h.heldLive d) (hl d)

theorem TreeInv.walked (h : TreeInv fs []) (hw : Walked fs fs' w) : TreeInv fs' w.path := by
  rw [hw.refs]
  exact h.walk hw.live

/-- A path that is forgotten keeps its references. -/
theorem TreeInv.leak (h : TreeInv fs held) : TreeInv fs [] := by
  refine { h with refs := fun d hd => ?_, heldLive := nofun }
  have := h.refs d hd
  simp only [count_nil]
  omega

theorem putDent_eq (hl : (fs.dents d).live) (hr : 2 ≤ (fs.dents d).refcnt) :
    fs.putDent d = some (fs.dropRefs [d]) := by
  have hstep : fs.setDent d { fs.dents d with refcnt := (fs.dents d).refcnt - 1
                                              live := decide ((fs.dents d).refcnt - 1 ≠ 0) } =
      fs.dropRefs [d] := by
    simp only [Fs.setDent, Fs.dropRefs]
    congr 1
    funext e
    by_cases he : e = d
    · subst he
      have hne : (fs.dents e).refcnt - 1 ≠ 0 := by omega
      simp [hne, hl]
    · simp [update_of_ne he, Ne.symm he]
  simp only [Fs.putDent, Fs.dent, hl, if_true, bind_eq_bind, bind_some]
  rw [if_neg (by omega), hstep]

theorem finiLoop_eq (hl : ∀ d ∈ l, (fs.dents d).live)
    (hr : ∀ d ∈ l, l.count d + 1 ≤ (fs.dents d).refcnt) :
    fs.finiLoop l = some (fs.dropRefs l) := by
  induction l generalizing fs with
  | nil => simp [Fs.finiLoop, Fs.dropRefs]
  | cons d l ih =>
    have hd := hr d mem_cons_self
    rw [count_cons_self] at hd
    rw [Fs.finiLoop, putDent_eq (hl d mem_cons_self) (by omega)]
    refine (ih ?_ fun e he => ?_).trans ?_
    · exact fun e he => hl e (mem_cons_of_mem _ he)
    · have := hr e (mem_cons_of_mem _ he)
      simp only [Fs.dropRefs, count_cons, count_nil] at this ⊢
      omega
    simp only [Fs.dropRefs, count_cons, count_nil]
    congr 2
    funext e
    congr 1
    omega

/-- **`path_fini` frees nothing**: every dentry keeps a reference of its own. -/
theorem TreeInv.fini (h : TreeInv fs held) :
    fs.pathFini held = some (fs.dropRefs held) ∧ TreeInv (fs.dropRefs held) [] := by
  have hperm : ∀ d, held.reverse.count d = held.count d := fun d => count_reverse
  constructor
  · rw [Fs.pathFini, finiLoop_eq]
    · simp only [Fs.dropRefs, hperm]
    · exact fun d hd => h.heldLive d (mem_reverse.mp hd)
    · exact fun d hd => hperm d ▸ h.refs d (h.heldLive d (mem_reverse.mp hd))
  · refine { h with refs := fun d hd => ?_, heldLive := nofun }
    have := h.refs d hd
    simp only [Fs.dropRefs, count_nil]
    omega

theorem TreeInv.finish {r' : Except Errno Nat} (h : TreeInv fs w.path)
    (hf : fs.finish w r = some (fs', r')) : fs' = fs.dropRefs w.path ∧ r' = r ∧ TreeInv fs' [] := by
  obtain ⟨fs1, h1, hf⟩ := bind_eq_some_iff.mp hf
  rw [h.fini.1] at h1
  cases h1
  cases hf
  exact ⟨rfl, rfl, h.fini.2⟩

/-! ## 4. Changes of a directory -/

theorem TreeInv.setInode (h : TreeInv fs held) (x : Inode) (hi : i < fs.nextInode) :
    TreeInv (fs.setInode i x) held := by
  refine { h with freshInode := fun j hj => ?_ }
  by_cases hji : j = i
  · exact hji ▸ hi
  · simp only [Fs.setInode, update_of_ne hji] at hj
    exact h.freshInode j hj

theorem TreeInv.newInode (h : TreeInv fs held) (type : FsType) (link : Name) :
    TreeInv (fs.newInode type link).1 held := by
  have hempty : ∀ d, d ∉ fs.entries fs.nextInode := fun d hd =>
    lt_irrefl _ (h.freshTable _ d hd)
  have htable : update fs.entries fs.nextInode [] = fs.entries := by
    rw [update_eq_self_iff]
    exact (eq_nil_iff_forall_not_mem.mpr hempty).symm
  refine ⟨?_, ?_, h.root, h.loose, h.refs, h.heldLive, h.freshDent, fun j hj => ?_,
    fun j d hd => ?_, fun d hd => Nat.lt_succ_of_lt (h.target d hd)⟩
  · simp only [Fs.newInode, htable]
    exact h.mem_iff
  · simp only [Fs.newInode, htable]
    exact h.nodup
  · by_cases hj' : j = fs.nextInode
    · simp only [Fs.newInode, hj']
      omega
    · simp only [Fs.newInode, Fs.setInode, update_of_ne hj'] at hj ⊢
      exact Nat.lt_succ_of_lt (h.freshInode j hj)
  · simp only [Fs.newInode, htable] at hd ⊢
    exact Nat.lt_succ_of_lt (h.freshTable j d hd)

/-- A new dentry at the head of a directory. -/
def Fs.linkDent (fs : Fs) (dir : Nat) (x : Dentry) : Fs :=
  { fs with
    dents := update fs.dents fs.nextDent x
    nextDent := fs.nextDent + 1
    entries := update fs.entries dir (fs.nextDent :: fs.entries dir) }

theorem linkDent_of_ne (h : d ≠ fs.nextDent) :
    (fs.linkDent dir x).dents d = fs.dents d := update_of_ne h _ _

theorem linkDent_self : (fs.linkDent dir x).dents fs.nextDent = x :=
  update_self _ _ _

theorem mem_linkDent :
    d ∈ (fs.linkDent dir x).entries i ↔ i = dir ∧ d = fs.nextDent ∨ d ∈ fs.entries i := by
  by_cases hi : i = dir
  · subst hi
    simp [Fs.linkDent]
  · simp [Fs.linkDent, hi]

theorem TreeInv.linkDent (h : TreeInv fs held) {x : Dentry} (hx : x.live) (hn : x.node = some dir)
    (hr : 1 ≤ x.refcnt) (hdir : dir < fs.nextInode) (hx' : x.inode < fs.nextInode) :
    TreeInv (fs.linkDent dir x) held := by
  have hnew : ∀ {e}, (fs.dents e).live → e ≠ fs.nextDent := fun he =>
    ne_of_lt (h.freshDent _ he)
  have hroot := hnew h.root.1
  -- every fact is the old one for an old dentry and about `x` for the new one
  refine ⟨fun i e => ?_, fun i => ?_, ?_, fun e he hnode => ?_, fun e he => ?_, fun e he => ?_,
    fun e he => ?_, h.freshInode, fun i e he => ?_, fun e he => ?_⟩
  · rw [mem_linkDent]
    by_cases he : e = fs.nextDent
    · subst he
      rw [linkDent_self, hn]
      have hout : fs.nextDent ∉ fs.entries i := fun hin => hnew (h.live hin) rfl
      simp [hx, hout, eq_comm]
    · rw [linkDent_of_ne x he, ← h.mem_iff]
      simp [he]
  · by_cases hi : i = dir
    · subst hi
      simp only [Fs.linkDent, update_self, nodup_cons]
      exact ⟨fun hin => hnew (h.live hin) rfl, h.nodup i⟩
    · simp only [Fs.linkDent, update_of_ne hi]
      exact h.nodup i
  · rw [linkDent_of_ne x hroot]
    exact h.root
  · by_cases hne : e = fs.nextDent
    · rw [hne, linkDent_self, hn] at hnode
      cases hnode
    · rw [linkDent_of_ne x hne] at he hnode
      exact h.loose e he hnode
  · by_cases hne : e = fs.nextDent
    · have hcount : held.count fs.nextDent = 0 :=
        count_eq_zero.mpr fun hin => hnew (h.heldLive _ hin) rfl
      rw [hne, linkDent_self, hcount]
      exact hr
    · rw [linkDent_of_ne x hne] at he ⊢
      exact h.refs e he
  · rw [linkDent_of_ne x (hnew (h.heldLive e he))]
    exact h.heldLive e he
  · by_cases hne : e = fs.nextDent
    · simp only [Fs.linkDent, hne]
      omega
    · rw [linkDent_of_ne x hne] at he
      exact Nat.lt_succ_of_lt (h.freshDent e he)
  · rcases (mem_linkDent x).mp he with ⟨rfl, -⟩ | he
    · exact hdir
    · exact h.freshTable i e he
  by_cases hne : e = fs.nextDent
  · rw [hne, linkDent_self]
    exact hx'
  · rw [linkDent_of_ne x hne] at he ⊢
    exact h.target e he

/-- `get_inode`. -/
def Fs.refInode (fs : Fs) (i : Nat) : Fs :=
  fs.setInode i { fs.inodes i with refcnt := (fs.inodes i).refcnt + 1 }

theorem getInode_eq (h : fs.getInode i = some fs') : (fs.inodes i).live ∧ fs' = fs.refInode i := by
  obtain ⟨x, hx, h⟩ := bind_eq_some_iff.mp h
  obtain ⟨hl, rfl⟩ := inode_eq_some hx
  obtain ⟨-, h⟩ := ite_none_right_eq_some.mp h
  exact ⟨hl, (some.inj h).symm⟩

theorem setInode_keeps {β : Type} (f : Inode → β) {x : Inode} (hx : f x = f (fs.inodes i)) (j : Nat) :
    f ((fs.setInode i x).inodes j) = f (fs.inodes j) := by
  by_cases hj : j = i
  · subst hj
    simpa [Fs.setInode] using hx
  · simp [Fs.setInode, hj]

theorem refInode_live (fs : Fs) (i j : Nat) :
    ((fs.refInode i).inodes j).live = (fs.inodes j).live := setInode_keeps Inode.live (by rfl) j

theorem refInode_type (fs : Fs) (i j : Nat) :
    ((fs.refInode i).inodes j).type = (fs.inodes j).type := setInode_keeps Inode.type (by rfl) j

theorem TreeInv.refInode (h : TreeInv fs held) (hi : (fs.inodes i).live) :
    TreeInv (fs.refInode i) held := h.setInode _ (h.freshInode i hi)

variable {junk : Nat → Int} {inode : Nat} {ret : Bool}

theorem newDent_eq (h : newDent junk fs inode name = some (fs', d)) :
    (fs.inodes inode).live ∧ d = fs.nextDent ∧
      fs' = { (fs.refInode inode).setDent fs.nextDent
        ⟨name, inode, junk fs.nextDent, none, true⟩ with nextDent := fs.nextDent + 1 } := by
  obtain ⟨fs1, h1, h⟩ := bind_eq_some_iff.mp h
  obtain ⟨hl, rfl⟩ := getInode_eq h1
  cases h
  exact ⟨hl, rfl, rfl⟩

theorem htableAdd_eq (h : fs.htableAdd dir d = some fs') :
    ((fs.inodes dir).live ∧ (fs.inodes dir).type = .dir) ∧
      fs' = { fs.setDent d { fs.dents d with node := some dir } with
        entries := update fs.entries dir (d :: fs.entries dir) } := by
  obtain ⟨x, hx, h⟩ := bind_eq_some_iff.mp h
  obtain ⟨hl, rfl⟩ := inode_eq_some hx
  obtain ⟨ht, h⟩ := ite_none_right_eq_some.mp h
  exact ⟨⟨hl, ht⟩, (some.inj h).symm⟩

/-- `new_dent` and `htable_add`, as in `fs_rename`. -/
theorem newDent_link {fs1 fs2 : Fs} (h : newDent junk fs inode name = some (fs1, d))
    (h' : fs1.htableAdd dir d = some fs2) :
    (fs.inodes inode).live ∧ ((fs.inodes dir).live ∧ (fs.inodes dir).type = .dir) ∧
      d = fs.nextDent ∧
      fs2 = (fs.refInode inode).linkDent dir ⟨name, inode, junk fs.nextDent, some dir, true⟩ := by
  obtain ⟨hl, rfl, rfl⟩ := newDent_eq h
  obtain ⟨⟨hd, ht⟩, rfl⟩ := htableAdd_eq h'
  refine ⟨hl, ⟨refInode_live fs inode dir ▸ hd, refInode_type fs inode dir ▸ ht⟩, rfl, ?_⟩
  simp [Fs.linkDent, Fs.setDent, Fs.refInode, Fs.setInode]

/-- **`add_new_dent`**: a dentry at the head of the directory, one reference for the table and one
    for a caller that wants it. -/
theorem addNewDent_eq (h : addNewDent junk fs dir name inode ret = some (fs', d)) :
    (fs.inodes inode).live ∧ ((fs.inodes dir).live ∧ (fs.inodes dir).type = .dir) ∧
      d = fs.nextDent ∧
      fs' = ((fs.refInode inode).growDir dir).linkDent dir
        ⟨name, inode, junk fs.nextDent + 1 + (if ret then 1 else 0), some dir, true⟩ := by
  obtain ⟨⟨fs1, d1⟩, h1, h⟩ := bind_eq_some_iff.mp h
  obtain ⟨fs2, h2, h⟩ := bind_eq_some_iff.mp h
  obtain ⟨fs3, h3, h⟩ := bind_eq_some_iff.mp h
  obtain ⟨hl, rfl, rfl⟩ := newDent_eq h1
  obtain ⟨-, rfl⟩ := getDent_eq h2
  obtain ⟨⟨hd, ht⟩, rfl⟩ := htableAdd_eq h3
  refine ⟨hl, ⟨refInode_live fs inode dir ▸ hd, refInode_type fs inode dir ▸ ht⟩, ?_⟩
  cases ret
  case' false => cases h
  case' true =>
    obtain ⟨fs4, h4, h⟩ := bind_eq_some_iff.mp h
    obtain ⟨-, rfl⟩ := getDent_eq h4
    cases h
  all_goals
    refine ⟨rfl, ?_⟩
    simp only [Fs.linkDent, Fs.growDir, Fs.setDent, Fs.setInode, Fs.addRefs, Fs.refInode]
    congr 1
    funext e
    by_cases he : e = fs.nextDent
    · simp [he]
    · simp [he, Ne.symm he]

theorem TreeInv.addNewDent (h : TreeInv fs held)
    (ha : addNewDent junk fs dir name inode ret = some (fs', d)) (hj : 0 ≤ junk fs.nextDent) :
    TreeInv fs' held := by
  obtain ⟨hl, ⟨hd, ht⟩, rfl, rfl⟩ := addNewDent_eq ha
  have href := h.refInode hl
  have hgrow : TreeInv ((fs.refInode inode).growDir dir) held :=
    href.setInode _ (h.freshInode dir hd)
  refine hgrow.linkDent rfl rfl ?_ (h.freshInode dir hd) (h.freshInode inode hl)
  simp only
  split <;> omega

theorem addNewDent_live (h : addNewDent junk fs dir name inode ret = some (fs', d)) (j : Nat) :
    (fs'.inodes j).live = (fs.inodes j).live := by
  obtain ⟨-, -, -, rfl⟩ := addNewDent_eq h
  exact (setInode_keeps Inode.live (by rfl) j).trans (refInode_live fs inode j)

theorem addNewDent_type (h : addNewDent junk fs dir name inode ret = some (fs', d)) (j : Nat) :
    (fs'.inodes j).type = (fs.inodes j).type := by
  obtain ⟨-, -, -, rfl⟩ := addNewDent_eq h
  exact (setInode_keeps Inode.type (by rfl) j).trans (refInode_type fs inode j)

/-- What `put_inode` can do. -/
theorem putInode_cases (h : fs.putInode i = some (fs', err)) :
    (fs.inodes i).live ∧
      ((1 < (fs.inodes i).refcnt ∧ err = none ∧
          fs' = fs.setInode i { fs.inodes i with refcnt := (fs.inodes i).refcnt - 1 }) ∨
        ((fs.inodes i).refcnt = 1 ∧ ((fs.inodes i).type = .dir ∧ fs.entries i ≠ []) ∧
          err = some .ENOTEMPTY ∧ fs' = fs.setInode i { fs.inodes i with refcnt := 0 }) ∨
        ((fs.inodes i).refcnt = 1 ∧ ¬ ((fs.inodes i).type = .dir ∧ fs.entries i ≠ []) ∧
          err = none ∧
          fs' = fs.setInode i { fs.inodes i with refcnt := 0, live := false })) := by
  obtain ⟨x, hx, h⟩ := bind_eq_some_iff.mp h
  obtain ⟨hl, rfl⟩ := inode_eq_some hx
  obtain ⟨hneg, h⟩ := ite_none_left_eq_some.mp h
  refine ⟨hl, ?_⟩
  split at h
  next hne =>
    cases h
    exact .inl ⟨by omega, rfl, rfl⟩
  next hne =>
    split at h
    next hdir =>
      cases h
      exact .inr (.inl ⟨by omega, hdir, rfl, rfl⟩)
    next hdir =>
      cases h
      exact .inr (.inr ⟨by omega, hdir, rfl, rfl⟩)

theorem putInode_setInode (h : fs.putInode i = some (fs', err)) :
    (fs.inodes i).live ∧ ∃ x, fs' = fs.setInode i x ∧ x.type = (fs.inodes i).type ∧
      x.size = (fs.inodes i).size := by
  obtain ⟨hl, hc⟩ := putInode_cases h
  rcases hc with ⟨-, -, rfl⟩ | ⟨-, -, -, rfl⟩ | ⟨-, -, -, rfl⟩
  · exact ⟨hl, _, rfl, rfl, rfl⟩
  · exact ⟨hl, _, rfl, rfl, rfl⟩
  · exact ⟨hl, _, rfl, rfl, rfl⟩

theorem TreeInv.putInode (h : TreeInv fs held) (hp : fs.putInode i = some (fs', err)) :
    TreeInv fs' held := by
  obtain ⟨hl, x, rfl, -⟩ := putInode_setInode hp
  exact h.setInode x (h.freshInode i hl)

/-- The memory without the dentry `d` of the directory `dir`. -/
def Fs.unlinkDent (fs : Fs) (dir d : Nat) : Fs :=
  { fs.setDent d { fs.dents d with node := none, live := false } with
    entries := update fs.entries dir ((fs.entries dir).erase d) }

theorem htableDel_eq (h : fs.htableDel d = some fs') :
    (fs.dents d).live ∧ ∃ dir, (fs.dents d).node = some dir ∧ (fs.inodes dir).live ∧
      fs' = fs.unlinkDent dir d := by
  obtain ⟨x, hx, h⟩ := bind_eq_some_iff.mp h
  obtain ⟨hl, rfl⟩ := dent_eq_some hx
  obtain ⟨dir, hn, h⟩ := bind_eq_some_iff.mp h
  obtain ⟨y, hy, h⟩ := bind_eq_some_iff.mp h
  exact ⟨hl, dir, hn, (inode_eq_some hy).1, (some.inj h).symm⟩

theorem unlinkDent_of_ne {e : Nat} (h : e ≠ d) :
    (fs.unlinkDent dir d).dents e = fs.dents e := update_of_ne h _ _

theorem unlinkDent_live : ((fs.unlinkDent dir d).dents d).live = false := by
  simp [Fs.unlinkDent, Fs.setDent]

theorem TreeInv.mem_unlinkDent {e : Nat} (h : TreeInv fs held) (hn : (fs.dents d).node = some dir) :
    e ∈ (fs.unlinkDent dir d).entries i ↔ e ≠ d ∧ e ∈ fs.entries i := by
  by_cases hi : i = dir
  · subst hi
    simp [Fs.unlinkDent, (h.nodup i).mem_erase_iff]
  have hout : d ∉ fs.entries i := by
    intro hin
    have := ((h.mem_iff i d).mp hin).2
    rw [hn] at this
    exact hi (some.inj this).symm
  simp only [Fs.unlinkDent, update_of_ne hi]
  exact ⟨fun he => ⟨fun hed => hout (hed ▸ he), he⟩, fun he => he.2⟩

theorem TreeInv.unlinkDent (h : TreeInv fs held) (hn : (fs.dents d).node = some dir)
    (hheld : d ∉ held) : TreeInv (fs.unlinkDent dir d) held := by
  have hroot : tmpfsRootDent ≠ d := by
    intro he
    rw [← he, h.root.2] at hn
    cases hn
  have hkept : ∀ {e}, ((fs.unlinkDent dir d).dents e).live → e ≠ d := by
    rintro e he rfl
    rw [unlinkDent_live] at he
    cases he
  have hold : ∀ {e}, ((fs.unlinkDent dir d).dents e).live → (fs.dents e).live := by
    intro e he
    rw [unlinkDent_of_ne (hkept he)] at he
    exact he
  refine ⟨fun i e => ?_, fun i => ?_, ?_, fun e he hnode => ?_, fun e he => ?_, fun e he => ?_,
    fun e he => h.freshDent e (hold he), h.freshInode, fun i e he => ?_, fun e he => ?_⟩
  · rw [h.mem_unlinkDent hn]
    by_cases he : e = d
    · subst he
      simp [unlinkDent_live]
    · rw [unlinkDent_of_ne he, ← h.mem_iff]
      simp [he]
  · by_cases hi : i = dir
    · subst hi
      simp only [Fs.unlinkDent, update_self]
      exact (h.nodup i).erase d
    · simp only [Fs.unlinkDent, update_of_ne hi]
      exact h.nodup i
  · rw [unlinkDent_of_ne hroot]
    exact h.root
  · rw [unlinkDent_of_ne (hkept he)] at hnode
    exact h.loose e (hold he) hnode
  · rw [unlinkDent_of_ne (hkept he)]
    exact h.refs e (hold he)
  · have hne : e ≠ d := fun hed => hheld (hed ▸ he)
    rw [unlinkDent_of_ne hne]
    exact h.heldLive e he
  · exact h.freshTable i e ((h.mem_unlinkDent hn).mp he).2
  · rw [unlinkDent_of_ne (hkept he)]
    exact h.target e (hold he)

/-! ## 5. Creating and removing -/

variable {type : FsType} {link : Name}

theorem newLeaf_eq (h : fs.newLeaf type link = some (fs', inode)) :
    inode = fs.nextInode ∧ fs' = (fs.newInode type link).1.refInode fs.nextInode := by
  obtain ⟨fs1, h1, h⟩ := bind_eq_some_iff.mp h
  obtain ⟨-, rfl⟩ := getInode_eq h1
  cases h
  exact ⟨rfl, rfl⟩

theorem newDir_steps {parent : Option Nat} (h : newDir junk fs parent = some (fs', inode)) :
    inode = fs.nextInode ∧ ∃ fs1 d1 d2,
      addNewDent junk ((fs.newInode .dir []).1.refInode fs.nextInode) fs.nextInode ['.']
        fs.nextInode false = some (fs1, d1) ∧
      addNewDent junk fs1 fs.nextInode ['.', '.'] (parent.getD fs.nextInode) false =
        some (fs', d2) := by
  obtain ⟨fs1, h1, h⟩ := bind_eq_some_iff.mp h
  obtain ⟨-, rfl⟩ := getInode_eq h1
  obtain ⟨⟨fs2, d1⟩, h2, h⟩ := bind_eq_some_iff.mp h
  obtain ⟨⟨fs3, d2⟩, h3, h⟩ := bind_eq_some_iff.mp h
  cases h
  exact ⟨rfl, fs2, d1, d2, h2, h3⟩

theorem tfsMknod_steps (hne : name ≠ [])
    (h : tfsMknod junk fs dir name type link ret = some (fs', r)) :
    ∃ fs1 fs2 inode d err, newNode junk fs dir type link = some (fs1, inode) ∧
      addNewDent junk fs1 dir name inode ret = some (fs2, d) ∧
      fs2.putInode inode = some (fs', err) ∧ r = .ok d := by
  rw [tfsMknod, if_neg hne] at h
  obtain ⟨⟨fs1, inode⟩, h1, h⟩ := bind_eq_some_iff.mp h
  obtain ⟨⟨fs2, d⟩, h2, h⟩ := bind_eq_some_iff.mp h
  obtain ⟨⟨fs3, err⟩, h3, h⟩ := bind_eq_some_iff.mp h
  cases h
  exact ⟨fs1, fs2, inode, d, err, h1, h2, h3, rfl⟩

/-- How many dentries `new_xxx` makes. -/
def newDents (type : FsType) : Nat := if type = .dir then 2 else 0

theorem addNewDent_nextDent (h : addNewDent junk fs dir name inode ret = some (fs', d)) :
    fs'.nextDent = fs.nextDent + 1 := by
  obtain ⟨-, -, -, rfl⟩ := addNewDent_eq h
  rfl

theorem newNode_nextDent (h : newNode junk fs dir type link = some (fs', inode)) :
    fs'.nextDent = fs.nextDent + newDents type := by
  rw [newNode] at h
  split at h
  next hd =>
    obtain ⟨-, fs1, d1, d2, h1, h2⟩ := newDir_steps h
    rw [addNewDent_nextDent h2, addNewDent_nextDent h1, newDents, if_pos hd]
    rfl
  next hd =>
    obtain ⟨-, rfl⟩ := newLeaf_eq h
    rw [newDents, if_neg hd]
    rfl

theorem newNode_old (h : newNode junk fs dir type link = some (fs', inode)) (hi : i ≠ fs.nextInode) :
    (fs'.inodes i).live = (fs.inodes i).live ∧ (fs'.inodes i).type = (fs.inodes i).type := by
  have hnew : ∀ type link, (((fs.newInode type link).1.refInode fs.nextInode).inodes i) =
      fs.inodes i := fun type link => by
    simp [Fs.newInode, Fs.refInode, Fs.setInode, hi]
  rw [newNode] at h
  split at h
  next =>
    obtain ⟨-, fs1, d1, d2, h1, h2⟩ := newDir_steps h
    rw [addNewDent_live h2, addNewDent_live h1, addNewDent_type h2, addNewDent_type h1, hnew]
    exact ⟨rfl, rfl⟩
  next =>
    obtain ⟨-, rfl⟩ := newLeaf_eq h
    rw [hnew]
    exact ⟨rfl, rfl⟩

theorem TreeInv.newNode (h : TreeInv fs held) (hn : newNode junk fs dir type link = some (fs', inode))
    (hj : ∀ k < newDents type, 0 ≤ junk (fs.nextDent + k)) : TreeInv fs' held := by
  have hnew : ∀ type link, TreeInv ((fs.newInode type link).1.refInode fs.nextInode) held :=
    fun type link => (h.newInode type link).setInode _ (Nat.lt_succ_self _)
  rw [Fs.newNode] at hn
  split at hn
  next hd =>
    rw [newDents, if_pos hd] at hj
    obtain ⟨-, fs1, d1, d2, h1, h2⟩ := newDir_steps hn
    refine ((hnew .dir []).addNewDent h1 (hj 0 (by decide))).addNewDent h2 ?_
    rw [addNewDent_nextDent h1]
    exact hj 1 (by decide)
  next hd =>
    obtain ⟨-, rfl⟩ := newLeaf_eq hn
    exact hnew type link

theorem TreeInv.tfsMknod (h : TreeInv fs held)
    (hm : tfsMknod junk fs dir name type link ret = some (fs', r))
    (hj : ∀ k < newDents type + 1, 0 ≤ junk (fs.nextDent + k)) : TreeInv fs' held := by
  by_cases hne : name = []
  · rw [Fs.tfsMknod, if_pos hne] at hm
    cases hm
    exact h
  · obtain ⟨fs1, fs2, inode, d, err, h1, h2, h3, -⟩ := tfsMknod_steps hne hm
    refine ((h.newNode h1 fun k hk => hj k (Nat.lt_succ_of_lt hk)).addNewDent h2 ?_).putInode h3
    rw [newNode_nextDent h1]
    exact hj _ (Nat.lt_succ_self _)

/-! ## 6. Lookup -/

theorem scan_eq (hl : ∀ d ∈ l, (fs.dents d).live) :
    fs.scan name l = some (l.find? fun d => (fs.dents d).name = name) := by
  induction l with
  | nil => rfl
  | cons d l ih =>
    rw [Fs.scan, Fs.dent, if_pos (hl d mem_cons_self)]
    simp only [bind_eq_bind, bind_some, List.find?_cons]
    by_cases hname : (fs.dents d).name = name
    · simp [hname]
    · simp only [hname, if_false, decide_false]
      exact ih fun e he => hl e (mem_cons_of_mem _ he)

/-- **`tfs_lookup` finds** the newest dentry of the name; which bucket it is in does not matter. -/
theorem TreeInv.tfsLookup (h : TreeInv fs held) (hi : (fs.inodes i).live)
    (ht : (fs.inodes i).type = .dir) :
    fs.tfsLookup i name = some ((fs.entries i).find? fun d => (fs.dents d).name = name) := by
  have hlive : ∀ d ∈ fs.bucket i name, (fs.dents d).live := fun d hd =>
    h.live (mem_filter.mp hd).1
  simp only [Fs.tfsLookup, Fs.inode, hi, if_true, bind_eq_bind, bind_some, ht]
  rw [scan_eq hlive, Fs.bucket, List.find?_filter]
  congr 2
  funext d
  by_cases hname : (fs.dents d).name = name
  · simp [hname]
  · simp [hname]

/-- A directory that has not been freed. -/
def IsDir (fs : Fs) (i : Nat) : Prop := (fs.inodes i).live ∧ (fs.inodes i).type = .dir

theorem tfsLookup_dir {found : Option Nat} (h : fs.tfsLookup i name = some found) :
    IsDir fs i := by
  obtain ⟨x, hx, h⟩ := bind_eq_some_iff.mp h
  obtain ⟨hl, rfl⟩ := inode_eq_some hx
  exact ⟨hl, (ite_none_right_eq_some.mp h).1⟩

theorem TreeInv.lookup_some (h : TreeInv fs held) (hf : fs.tfsLookup i name = some (some d)) :
    d ∈ fs.entries i ∧ (fs.dents d).name = name := by
  obtain ⟨hl, ht⟩ := tfsLookup_dir hf
  rw [h.tfsLookup hl ht] at hf
  have hfind := some.inj hf
  have hname := List.find?_some hfind
  exact ⟨mem_of_find?_eq_some hfind, of_decide_eq_true hname⟩

theorem TreeInv.lookup_none (h : TreeInv fs held) (hf : fs.tfsLookup i name = some none)
    (hd : d ∈ fs.entries i) : (fs.dents d).name ≠ name := by
  obtain ⟨hl, ht⟩ := tfsLookup_dir hf
  rw [h.tfsLookup hl ht] at hf
  have hnone := List.find?_eq_none.mp (some.inj hf) d hd
  exact fun he => hnone (decide_eq_true he)

/-! ## 7. The start -/

/-- The memory after `init_tmpfs`. -/
def Fs.booted (junk : Nat → Int) : Fs where
  inodes := update Fs.empty.inodes 0 ⟨.dir, 4, 2, [], true⟩
  nextInode := 1
  dents := update (update (update Fs.empty.dents
    0 ⟨['.'], 0, junk 0 + 1, some 0, true⟩)
    1 ⟨['.', '.'], 0, junk 1 + 1, some 0, true⟩)
    2 ⟨['/'], 0, junk 2, none, true⟩
  nextDent := 3
  entries := update Fs.empty.entries 0 [1, 0]
  fidman := ⟨update (fun _ => false) 0 true, 0⟩
  fidRecords := Fs.empty.fidRecords

theorem initTmpfs_eq (h : initTmpfs junk = some fs) : fs = .booted junk := by
  obtain ⟨⟨fs1, root⟩, h1, h⟩ := bind_eq_some_iff.mp h
  obtain ⟨⟨fs2, d⟩, h2, h⟩ := bind_eq_some_iff.mp h
  obtain ⟨⟨m, id⟩, h3, h⟩ := bind_eq_some_iff.mp h
  obtain ⟨-, h⟩ := ite_none_right_eq_some.mp h
  obtain ⟨rfl, fs4, d1, d2, h4, h5⟩ := newDir_steps h1
  obtain ⟨-, -, -, rfl⟩ := addNewDent_eq h4
  obtain ⟨-, -, -, rfl⟩ := addNewDent_eq h5
  obtain ⟨-, -, rfl⟩ := newDent_eq h2
  have hid : m = ⟨update (fun _ => false) 0 true, 0⟩ := by
    have : (User.IdManager.init MAX_NR_FID_RECORDS).allocId =
      some (⟨update (fun _ => false) 0 true, 0⟩, 0) := rfl
    exact (congrArg Prod.fst (some.inj (this.symm.trans h3))).symm
  obtain rfl := some.inj h
  simp [hid, Fs.booted, Fs.linkDent, Fs.growDir, Fs.refInode, Fs.setInode, Fs.setDent,
    Fs.newInode, Fs.empty]

theorem treeInv_booted (h0 : 0 ≤ junk 0) (h1 : 0 ≤ junk 1) (h2 : 1 ≤ junk 2) :
    TreeInv (.booted junk) [] := by
  have hlive : ∀ {d}, ((Fs.booted junk).dents d).live → d = 0 ∨ d = 1 ∨ d = 2 := by
    intro d hd
    by_contra hne
    obtain ⟨hne0, hne1, hne2⟩ : d ≠ 0 ∧ d ≠ 1 ∧ d ≠ 2 := by omega
    simp [Fs.booted, Fs.empty, hne0, hne1, hne2] at hd
  have hentries : ∀ {i d}, d ∈ (Fs.booted junk).entries i → i = 0 ∧ (d = 1 ∨ d = 0) := by
    intro i d hd
    by_cases hi : i = 0
    · subst hi
      simpa [Fs.booted] using hd
    · simp [Fs.booted, Fs.empty, hi] at hd
  refine ⟨fun i d => ⟨fun hd => ?_, fun hd => ?_⟩, fun i => ?_, ⟨rfl, rfl⟩, fun d hd hn => ?_,
    fun d hd => ?_, nofun, fun d hd => ?_, fun i hi => ?_,
    fun i d hd => ?_, fun d hd => ?_⟩
  · obtain ⟨rfl, rfl | rfl⟩ := hentries hd
    · exact ⟨rfl, rfl⟩
    · exact ⟨rfl, rfl⟩
  · obtain ⟨hl, hn⟩ := hd
    rcases hlive hl with rfl | rfl | rfl
    · obtain rfl : 0 = i := some.inj hn
      simp [Fs.booted]
    · obtain rfl : 0 = i := some.inj hn
      simp [Fs.booted]
    · cases hn
  · by_cases hi : i = 0
    · subst hi
      simp [Fs.booted]
    · simp [Fs.booted, Fs.empty, hi]
  · rcases hlive hd with rfl | rfl | rfl
    · cases hn
    · cases hn
    · rfl
  · rcases hlive hd with rfl | rfl | rfl
    · show 0 + 1 ≤ junk 0 + 1
      omega
    · show 0 + 1 ≤ junk 1 + 1
      omega
    · show 0 + 1 ≤ junk 2
      omega
  · have := hlive hd
    show d < 3
    omega
  · by_contra hne
    have hi' : i ≠ 0 := fun h => hne (h ▸ Nat.one_pos)
    simp [Fs.booted, Fs.empty, hi'] at hi
  · rw [(hentries hd).1]
    exact Nat.one_pos
  rcases hlive hd with rfl | rfl | rfl
  · exact Nat.one_pos
  · exact Nat.one_pos
  · exact Nat.one_pos

/-- The memory of every dentry happens to hold a one. -/
def ones : Nat → Int := fun _ => 1

theorem initTmpfs_ones : initTmpfs ones = some (.booted ones) := by
  have hsome : (initTmpfs ones).isSome := by decide +kernel
  obtain ⟨fs, h⟩ := isSome_iff_exists.mp hsome
  rw [h, initTmpfs_eq h]

/-- `O_CREAT | O_RDWR` -/
def creatFlags : OpenFlags := ⟨true, false, false, true, false, false, false⟩

end ChCore.Tmpfs
