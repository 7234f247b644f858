/-
  File: ChCore/Tmpfs/Entries.lean
  Subject: Two requests whose answer depends on what a directory holds.

  * `open_excl_iff` -- `O_CREAT | O_EXCL` refuses the file that it has just made itself;
  * `rmdir_iff` -- `rmdir` asks whether a directory is empty only when nobody refers to it.
-/
import ChCore.Tmpfs.RequestSpecs

namespace ChCore.Tmpfs

open Fs Function Option List

variable {junk : Nat → Int} {depth dir d i : Nat} {fs fs₁ : Fs} {dirfd : Dirfd} {path : Name}
  {follow : Bool} {flags : OpenFlags} {w : Walk}

/-! ## 1. Exclusive creation -/

/-- The walk ends so: the path is there, or its directory is and has no such entry. -/
def Fs.Ends (depth : Nat) (fs : Fs) (dirfd : Dirfd) (path : Name) (follow : Bool) (out : WalkEnd) :
    Prop := ∃ fs₁ w, walkTo depth fs dirfd path follow = some (fs₁, w, out)

/-- The path leads to an inode. A slash behind the name of a directory leads to none. -/
def Fs.Leads (depth : Nat) (fs : Fs) (dirfd : Dirfd) (path : Name) (follow : Bool) (i : Nat) :
    Prop := ∃ fs₁ w, walkTo depth fs dirfd path follow = some (fs₁, w, .found) ∧ w.target = some i

/-- What `O_CREAT | O_EXCL` is for. A request that fails may leave references to dentries. -/
structure ExclRight (junk : Nat → Int) (depth : Nat) (fs : Fs) (dirfd : Dirfd) (path : Name)
    (flags : OpenFlags) : Prop where
  created : (∃ fs' fid i, fsOpen junk depth fs dirfd path flags = some (fs', .ok fid) ∧
    fs'.Leads depth dirfd path (!flags.nofollow) i ∧ fs.nextInode ≤ i ∧
      (fs'.inodes i).type = .reg) ↔ fs.Ends depth dirfd path (!flags.nofollow) .missing
  refused : (∃ l, fsOpen junk depth fs dirfd path flags = some (fs.addRefs l, .error .EEXIST)) ↔
    fs.Ends depth dirfd path (!flags.nofollow) .found

/-- `EEXIST` comes from the test of the target only. -/
theorem openCheck_eexist (h : fs.openCheck w flags = some (some .EEXIST)) : w.target.isSome := by
  cases ht : w.target with
  | some i => rfl
  | none =>
    have hnone : fs.targetType w = none := by simp [targetType, ht]
    simp only [openCheck, ht, hnone] at h
    cases hd : flags.directory <;> cases hwr : flags.write <;> simp [hd, hwr, ite_eq_iff] at h

/-- **Exclusive creation is right exactly for a path that leads to an inode.** For a missing one the
    callback makes the file, and the test after the walk takes it for an old one. -/
theorem open_excl_iff (hc : flags.creat) (he : flags.excl)
    (hparent : fs.Ends depth dirfd path (!flags.nofollow) .found ∨
      fs.Ends depth dirfd path (!flags.nofollow) .missing) :
    ExclRight junk depth fs dirfd path flags ↔
      ∃ i, fs.Leads depth dirfd path (!flags.nofollow) i := by
  constructor
  · intro hr
    rcases hparent with ⟨fs₁, w, hw⟩ | ⟨fs₁, w, hw⟩
    · obtain ⟨l, ho⟩ := hr.refused.mpr ⟨fs₁, w, hw⟩
      obtain ⟨fs2, w2, err, hh, ⟨e, hre, -, hcheck⟩ | ⟨_, hok, -⟩⟩ := fsOpen_cases ho
      · cases hre
        obtain ⟨fs3, w3, out, hw3, ⟨rfl, rfl, hend, -⟩ | ⟨rfl, -⟩⟩ := handleXxxat_cases hh
        · cases hw.symm.trans hw3
          obtain ⟨i, hi⟩ := isSome_iff_exists.mp (openCheck_eexist (hcheck hend))
          exact ⟨i, _, _, hw, hi⟩
        · cases hw.symm.trans hw3
      · cases hok
    obtain ⟨fs', fid, -, ho, -⟩ := hr.created.mpr ⟨fs₁, w, hw⟩
    obtain ⟨fs2, w2, err, hh, ⟨e, hre, -⟩ | ⟨_, -, rfl, hcheck, -⟩⟩ := fsOpen_cases ho
    · cases hre
    obtain ⟨fs3, w3, out, hw3, ⟨-, -, hend, -⟩ | ⟨-, -, dir, d, hmade⟩⟩ := handleXxxat_cases hh
    · cases hw.symm.trans hw3
      cases hend
    · simp [openCheck, hc, he, hmade.walk] at hcheck
  rintro ⟨i, fs₁, w, hw, ht⟩
  have ho : fsOpen junk depth fs dirfd path flags =
      some (fs.addRefs w.path, .error .EEXIST) := by
    rw [← (walkTo_walked hw).1.refs]
    simp [fsOpen, handleXxxat, hw, openCheck, hc, he, ht]
  refine ⟨⟨?_, ?_⟩, ⟨fun _ => ⟨_, _, hw⟩, fun _ => ⟨_, ho⟩⟩⟩
  · rintro ⟨fs', fid, j, hok, -⟩
    cases ho.symm.trans hok
  · rintro ⟨fs₂, w₂, hw₂⟩
    cases hw.symm.trans hw₂

/-- `O_CREAT | O_EXCL | O_RDWR` -/
def exclFlags : OpenFlags := { creatFlags with excl := true }

/-- A tree with one file. -/
def oneFile : Fs :=
  ((fsOpen ones 4 (.booted ones) .root ['/', 'f'] creatFlags).map Prod.fst).getD (.booted ones)

theorem open_excl_file : ExclRight ones 4 oneFile .root ['/', 'f'] exclFlags := by
  have h : (walkTo 4 oneFile .root ['/', 'f'] true).map (fun r => (r.2.1.target, r.2.2)) =
      some (some 1, .found) := by decide +kernel
  obtain ⟨⟨fs₁, w, out⟩, hw, heq⟩ := map_eq_some_iff.mp h
  obtain ⟨ht, rfl⟩ := Prod.mk.inj heq
  exact (open_excl_iff rfl rfl (.inl ⟨_, _, hw⟩)).mpr ⟨_, _, _, hw, ht⟩

/-- **The first file of a new tree**: `-EEXIST`. -/
theorem open_excl_new : ¬ ExclRight ones 4 (.booted ones) .root ['/', 'f'] exclFlags := by
  intro h
  have hw : (walkTo 4 (.booted ones) .root ['/', 'f'] true).map (·.2.2) = some .missing := by
    decide
  have ho : (fsOpen ones 4 (.booted ones) .root ['/', 'f'] exclFlags).map (·.2.toOption) =
      some none := by decide
  obtain ⟨⟨fs₁, w, out⟩, hw, rfl⟩ := map_eq_some_iff.mp hw
  obtain ⟨fs', fid, i, hok, -⟩ := h.created.mpr ⟨_, _, hw⟩
  rw [hok] at ho
  cases ho

/-! ## 2. Removing a directory -/

/-- Nothing is in the directory besides `.` and `..`. -/
def Vacant (fs : Fs) (i : Nat) : Prop :=
  ∀ e ∈ fs.entries i, (fs.dents e).name = ['.'] ∨ (fs.dents e).name = ['.', '.']
  deriving Decidable

/-- What `rmdir` is for, where the path names the entry `d` of `dir`. -/
structure RmdirRight (junk : Nat → Int) (depth : Nat) (fs : Fs) (dirfd : Dirfd) (path : Name)
    (follow : Bool) (flags : BitVec 32) (dir d : Nat) : Prop where
  removed : (∃ fs', fsUnlinkat junk depth fs dirfd path true follow flags = some (fs', .ok 0) ∧
    fs'.entries = update fs.entries dir ((fs.entries dir).erase d)) ↔ Vacant fs (fs.dents d).inode
  kept : fsUnlinkat junk depth fs dirfd path true follow flags = some (fs, .error .ENOTEMPTY) ↔
    ¬ Vacant fs (fs.dents d).inode

/-- Another flag is refused before anything is looked at. -/
theorem RmdirRight.flags_in {flags : BitVec 32}
    (h : RmdirRight junk depth fs dirfd path follow flags dir d) :
    flagsIn flags AT_SYMLINK_NOFOLLOW := by
  by_contra hflags
  have heq : fsUnlinkat junk depth fs dirfd path true follow flags = some (fs, .error .EINVAL) :=
    if_pos hflags
  have hv : Vacant fs (fs.dents d).inode := by
    by_contra hv
    cases heq.symm.trans (h.kept.mpr hv)
  obtain ⟨fs', hok, -⟩ := h.removed.mpr hv
  cases heq.symm.trans hok

/-- **`rmdir` is right exactly** if it has no other flag, the directory is vacant, its count lets
    `put_inode` succeed, and the path does not go through its entry. Its own `.` is counted, so while
    that is there nobody asks whether the directory is empty. -/
theorem rmdir_iff {flags : BitVec 32} (h : TreeInv fs [])
    (hn : Names depth fs dirfd path follow dir d) (hd : IsDir fs (fs.dents d).inode) :
    RmdirRight junk depth fs dirfd path follow flags dir d ↔
      flagsIn flags AT_SYMLINK_NOFOLLOW ∧ Vacant fs (fs.dents d).inode ∧
      (1 < (fs.inodes (fs.dents d).inode).refcnt ∨
        (fs.inodes (fs.dents d).inode).refcnt = 1 ∧ fs.entries (fs.dents d).inode = []) ∧
      OnWalk depth fs dirfd path follow fun _ w _ => d ∉ w.path := by
  obtain ⟨⟨fs₁, w, hw, hleaf, hdir, -, htd, ht⟩, -⟩ := hn
  obtain ⟨hwalked, ⟨hl, -⟩ | ⟨dir', d', -, hdir', hf, htd', -⟩⟩ := walkTo_walked hw
  · exact absurd hl hleaf
  cases hdir.symm.trans hdir'
  cases htd.symm.trans htd'
  have hon : OnWalk depth fs dirfd path follow (fun _ w _ => d ∉ w.path) ↔ d ∉ w.path := by
    simp [OnWalk, hw]
  have heq (hflags : flagsIn flags AT_SYMLINK_NOFOLLOW) :=
    show fsUnlinkat junk depth fs dirfd path true follow flags = _ by
      simp [fsUnlinkat, handleXxxat, hflags, hw, walk_targetType hw hd.1 ht, hd.2, hdir]
      exact h.remove_finish hwalked hleaf hf
  rw [hon]
  refine ⟨fun hr => ⟨hr.flags_in, ?_⟩, ?_⟩
  · have heq := heq hr.flags_in
    by_cases hv : Vacant fs (fs.dents d).inode
    · obtain ⟨fs', hok, -⟩ := hr.removed.mpr hv
      obtain ⟨⟨fs2, err⟩, hput, hok⟩ := bind_eq_some_iff.mp (heq.symm.trans hok)
      refine ⟨hv, ?_⟩
      obtain ⟨-, ⟨hc, rfl, -⟩ | ⟨-, -, rfl, -⟩ | ⟨hc, hempty, rfl, -⟩⟩ := putInode_cases hput
      · exact ⟨.inl hc, (ite_none_left_eq_some.mp hok).1⟩
      · cases hok
      · have hnil := not_not.mp fun hne => hempty ⟨hd.2, hne⟩
        exact ⟨.inr ⟨hc, hnil⟩, (ite_none_left_eq_some.mp hok).1⟩
    obtain ⟨⟨fs2, err⟩, hput, hok⟩ := bind_eq_some_iff.mp (heq.symm.trans (hr.kept.mpr hv))
    obtain ⟨-, ⟨-, rfl, -⟩ | ⟨hc, -, rfl, rfl⟩ | ⟨-, -, rfl, -⟩⟩ := putInode_cases hput
    · cases (ite_none_left_eq_some.mp hok).2
    · have hsame := congrArg (fun x => (x.inodes (fs.dents d).inode).refcnt)
        (Prod.mk.inj (some.inj hok)).1
      simp [setInode, hc] at hsame
    · cases (ite_none_left_eq_some.mp hok).2
  rintro ⟨hflags, hv, hc, hpath⟩
  obtain ⟨fs2, hput, hent⟩ : ∃ fs2, fs.putInode (fs.dents d).inode = some (fs2, none) ∧
      fs2.entries = fs.entries := by
    rcases hc with hc | ⟨hc, hempty⟩
    · simp [putInode, Fs.inode, hd.1, show ¬ (fs.inodes (fs.dents d).inode).refcnt < 1 by omega,
        show (fs.inodes (fs.dents d).inode).refcnt - 1 ≠ 0 by omega, setInode]
    · simp [putInode, Fs.inode, hd.1, hc, hempty, setInode]
  have hok := (heq hflags).trans (by rw [hput, bind_some, if_neg hpath])
  refine ⟨⟨fun _ => hv, fun _ => ⟨_, hok, by simp [unlinkDent, hent]⟩⟩,
    ⟨fun hno => ?_, fun hno => absurd hv hno⟩⟩
  cases hok.symm.trans hno

/-- `mkdir` in a tree. -/
def Fs.mkdir (fs : Fs) (path : Name) : Fs :=
  ((fsMkdirat ones 4 fs .root path false).map Prod.fst).getD fs

/-- A tree with one directory. -/
def oneDir : Fs := mkdir (.booted ones) ['/', 'a']

theorem rmdir_vacant : RmdirRight ones 4 oneDir .root ['/', 'a'] false 0 0 5 := by
  have hs : (fsMkdirat ones 4 (.booted ones) .root ['/', 'a'] false).isSome := by decide +kernel
  obtain ⟨⟨fs, r⟩, hr⟩ := isSome_iff_exists.mp hs
  have hfs : oneDir = fs := by simp [oneDir, mkdir, hr]
  have hok : TreeOk ones 4 (.booted ones) (.mkdirat .root ['/', 'a'] false) := by decide +kernel
  have htree := (treeInv_booted (by decide) (by decide) (by decide)).request hok hr
  rw [← hfs] at htree
  have hw : (walkTo 4 oneDir .root ['/', 'a'] false).map (fun x =>
      (x.2.2, x.2.1.leaf, x.1.pathLastInode x.2.1.path, x.2.1.targetDent, x.2.1.target)) =
      some (.found, ['a'], some 0, some 5, some 1) := by decide +kernel
  obtain ⟨⟨fs₁, w, out⟩, hw, heq⟩ := map_eq_some_iff.mp hw
  simp only [Prod.mk.injEq] at heq
  obtain ⟨rfl, hl, hp, htd, ht⟩ := heq
  have hn : Names 4 oneDir .root ['/', 'a'] false 0 5 :=
    ⟨⟨fs₁, w, hw, hl ▸ by decide, hp, hl ▸ by decide +kernel, htd, ht⟩, by decide +kernel⟩
  exact (rmdir_iff htree hn (show _ ∧ _ by decide +kernel)).mpr (by decide +kernel)

/-- **A directory that holds another one** is removed. -/
theorem rmdir_full :
    ¬ RmdirRight ones 4 (oneDir.mkdir ['/', 'a', '/', 'b']) .root ['/', 'a'] false 0 0 5 := by
  intro h
  have ho : (fsUnlinkat ones 4 (oneDir.mkdir ['/', 'a', '/', 'b']) .root ['/', 'a'] true false 0).map
      (·.2.toBool) = some true := by decide +kernel
  rw [h.kept.mpr (by decide +kernel)] at ho
  cases ho

end ChCore.Tmpfs
