/-
  File: ChCore/Tmpfs/Fids.lean
  Subject: The fids of directories over any history of requests.

  A fid has an inode and a path. A request that starts at a fid follows the path; the inode is only
  looked at by the requests that read or write. `fs_chdir` sets both, `fs_open` the inode only, and
  `fs_close` takes back the inode only.

  * `fid_dirs_run` -- the path of a fid of a directory ends at its inode, on runs that meet `FidsOk`;
  * `fid_dirs_stale` -- a directory opened without a path, and one opened with the path of another.
-/
import ChCore.Lib.Run
import ChCore.Tmpfs.RequestSpecs

namespace ChCore.Tmpfs

open Lib Fs Function Option List

/-! ## 1. What is to hold -/

/-- The fid is in use, for the inode `i`. -/
def Fs.Opened (fs : Fs) (fid i : Nat) : Prop :=
  fs.fidman.bitmap fid ∧ (fs.fidRecords fid).inode = some i
  deriving Decidable

/-- **The fids are right**: the path of a fid of a directory ends there, and so a request with a
    relative path starts there. -/
structure FidsRight (fs : Fs) : Prop where
  path : ∀ fid i, fs.Opened fid i → IsDir fs i →
    fs.pathLastInode (fs.fidRecords fid).path = some i
  starts : ∀ fid i, fs.Opened fid i → IsDir fs i → ∀ fs' comps,
    fs.startPath (.fid fid) = some (fs', some comps) → fs'.pathLastDirInode comps = some i

/-- The path of some fid of a directory ends with the dentry. -/
def Fs.EndsFid (fs : Fs) (d : Nat) : Prop :=
  ∃ fid < MAX_NR_FID_RECORDS, fs.fidman.bitmap fid ∧
    ((fs.fidRecords fid).inode.map fun i => (fs.inodes i).type) = some .dir ∧
    (fs.fidRecords fid).path.getLast? = some d

instance (fs : Fs) (d : Nat) : Decidable (fs.EndsFid d) := by
  unfold Fs.EndsFid
  infer_instance

/-- The requests that keep the fids right: no directory is opened, no directory is entered through
    a link that is only slashes, and no dentry is removed at which the path of a directory ends. -/
def FidsOk (depth : Nat) (fs : Fs) : Req → Prop
  | .open dirfd path flags =>
    OnWalk depth fs dirfd path (!flags.nofollow) fun fs' w out =>
      out = .found → fs'.targetType w = some .dir →
        (flags.creat ∧ flags.excl) ∨ flags.write ∨ flags.trunc ∨ flags.append
  | .chdir dirfd path follow =>
    OnWalk depth fs dirfd path follow fun _ w out =>
      out = .found → w.leaf = [] → w.target ≠ none → w.targetDent = none
  | .unlinkat dirfd path rmdir follow flags => flagsIn flags AT_SYMLINK_NOFOLLOW →
    OnWalk depth fs dirfd path follow fun fs' w out => out = .found → w.leaf ≠ [] →
      (fs'.targetType w = some .dir ↔ rmdir = true) →
      ∀ d ∈ w.targetDent, ¬ fs.EndsFid d
  | .rename dirfd path dirfd2 path2 => ∀ d ∈ fs.oldDent depth dirfd path,
    OnWalk depth fs dirfd2 path2 false fun _ _ out =>
      out.GoesOn → out ≠ .found → ¬ fs.EndsFid d
  | _ => True

instance (depth : Nat) (fs : Fs) : (req : Req) → Decidable (FidsOk depth fs req)
  | .open .. | .chdir .. | .unlinkat .. | .rename .. => by
    unfold FidsOk
    infer_instance
  | .close .. | .mkdirat .. | .symlinkat .. | .fstatat .. | .faccessat .. | .getSize .. =>
    isTrue trivial

/-! ## 2. The invariant -/

variable {fs fs' : Fs} {d i dir fid slot : Nat} {name : Name} {junk : Nat → Int} {depth : Nat}
  {dirfd dirfd2 : Dirfd} {follow : Bool} {w w' : Walk} {out : WalkEnd} {r : Except Errno Nat}
  {held l : List Nat} {gone : Option Nat}

structure FidInv (fs : Fs) : Prop where
  small : ∀ fid, fs.fidman.bitmap fid → fid < MAX_NR_FID_RECORDS
  bound : ∀ fid i, fs.Opened fid i → i < fs.nextInode
  dirs : ∀ fid i, fs.Opened fid i → IsDir fs i →
    ∃ d, (fs.fidRecords fid).path.getLast? = some d ∧ (fs.dents d).live ∧ (fs.dents d).inode = i

theorem lastDirLoop_dir (hd : (fs.dents d).live) (hi : IsDir fs (fs.dents d).inode) (l : List Nat) :
    fs.lastDirLoop (d :: l) = some (fs.dents d).inode := by
  simp [Fs.lastDirLoop, Fs.dent, hd, Fs.inode, hi.1, hi.2]

theorem FidInv.fidsRight (h : FidInv fs) : FidsRight fs := by
  refine ⟨fun fid i ho hi => ?_, fun fid i ho hi fs' comps hs => ?_⟩
  · obtain ⟨d, hlast, hlive, rfl⟩ := h.dirs fid i ho hi
    simp [Fs.pathLastInode, hlast, Fs.dent, hlive]
  obtain ⟨d, hlast, hlive, rfl⟩ := h.dirs fid i ho hi
  obtain ⟨record, hrec, hs⟩ := bind_eq_some_iff.mp hs
  cases record with
  | none => cases hs
  | some x =>
  obtain ⟨⟨fs1, path⟩, hcopy, hs⟩ := bind_eq_some_iff.mp hs
  cases hs
  obtain ⟨rfl, rfl, -⟩ := pathCopy_extends hcopy
  obtain ⟨-, -, rfl⟩ := getFidRecord_some hrec
  -- the path is the one of the record, and the loop stops at its last component
  obtain ⟨init, hinit⟩ := List.getLast?_eq_some_iff.mp hlast
  rw [nil_append, Fs.pathLastDirInode, hinit, reverse_append]
  have hend : ((fs.addRefs (init ++ [d])).dents d).live := hlive
  exact lastDirLoop_dir hend hi _

/-! ## 3. Changes of the tree -/

/-- The fids are the same, and so are the dentries in use but one that is gone; no old inode has
    become a directory. -/
structure Stays (fs fs' : Fs) (gone : Option Nat) : Prop where
  fidman : fs'.fidman = fs.fidman
  fidRecords : fs'.fidRecords = fs.fidRecords
  nextInode : fs.nextInode ≤ fs'.nextInode
  dent : ∀ d, (fs.dents d).live → gone ≠ some d →
    (fs'.dents d).live ∧ (fs'.dents d).inode = (fs.dents d).inode
  isDir : ∀ i < fs.nextInode, IsDir fs' i → IsDir fs i

theorem Stays.refl (fs : Fs) : Stays fs fs none :=
  ⟨rfl, rfl, le_rfl, fun _ hd _ => ⟨hd, rfl⟩, fun _ _ => id⟩

theorem Stays.trans {fs1 fs2 fs3 : Fs} (h : Stays fs1 fs2 none) (h' : Stays fs2 fs3 gone) :
    Stays fs1 fs3 gone := by
  refine ⟨h'.fidman.trans h.fidman, h'.fidRecords.trans h.fidRecords,
    le_trans h.nextInode h'.nextInode, fun d hd hg => ?_, fun i hi hdir => ?_⟩
  · obtain ⟨hl2, hi2⟩ := h.dent d hd (by simp)
    obtain ⟨hl3, hi3⟩ := h'.dent d hl2 hg
    exact ⟨hl3, hi3.trans hi2⟩
  · exact h.isDir i hi (h'.isDir i (lt_of_lt_of_le hi h.nextInode) hdir)

theorem Still.stays (h : Still fs fs') : Stays fs fs' none := by
  refine ⟨h.fidman, h.fidRecords, le_of_eq h.nextInode.symm, fun d hd _ => ?_,
    fun i _ => h.toQuiet.isDir.mp⟩
  rw [h.dent d]
  exact ⟨hd, rfl⟩

theorem stays_setInode {x : Inode} (hl : x.live → (fs.inodes i).live)
    (ht : x.type = (fs.inodes i).type) : Stays fs (fs.setInode i x) none :=
  ⟨rfl, rfl, le_rfl, fun _ hd _ => ⟨hd, rfl⟩, fun _ _ hj => hj.of_setInode hl ht⟩

theorem stays_newInode (fs : Fs) (type : FsType) (link : Name) :
    Stays fs (fs.newInode type link).1 none := by
  refine ⟨rfl, rfl, Nat.le_succ _, fun _ hd _ => ⟨hd, rfl⟩, fun j hj hdir => ?_⟩
  simpa [IsDir, Fs.newInode, Fs.setInode, ne_of_lt hj] using hdir

theorem TreeInv.stays_linkDent (h : TreeInv fs held) (x : Dentry) :
    Stays fs (fs.linkDent dir x) none := by
  refine ⟨rfl, rfl, le_rfl, fun d hd _ => ?_, fun _ _ => id⟩
  rw [linkDent_of_ne x (ne_of_lt (h.freshDent d hd))]
  exact ⟨hd, rfl⟩

theorem stays_unlinkDent (fs : Fs) (dir d : Nat) : Stays fs (fs.unlinkDent dir d) (some d) := by
  refine ⟨rfl, rfl, le_rfl, fun e he hne => ?_, fun _ _ => id⟩
  have hed : e ≠ d := fun heq => hne (congrArg some heq.symm)
  rw [unlinkDent_of_ne hed]
  exact ⟨he, rfl⟩

theorem stays_dropRefs (fs : Fs) (l : List Nat) : Stays fs (fs.dropRefs l) none :=
  ⟨rfl, rfl, le_rfl, fun _ hd _ => ⟨hd, rfl⟩, fun _ _ => id⟩

theorem stays_putInode {err : Option Errno} (h : fs.putInode i = some (fs', err)) :
    Stays fs fs' none := by
  obtain ⟨hl, x, rfl, hx, -⟩ := putInode_setInode h
  exact stays_setInode (fun _ => hl) hx

variable {type : FsType} {link : Name} {inode : Nat} {ret : Bool}

theorem TreeInv.stays_addNewDent (h : TreeInv fs held)
    (ha : Fs.addNewDent junk fs dir name inode ret = some (fs', d)) : Stays fs fs' none := by
  obtain ⟨hl, ⟨hd, -⟩, -, rfl⟩ := addNewDent_eq ha
  have hgrow : TreeInv ((fs.refInode inode).growDir dir) held :=
    (h.refInode hl).setInode _ (h.freshInode dir hd)
  have hsize : Stays (fs.refInode inode) ((fs.refInode inode).growDir dir) none :=
    stays_setInode id rfl
  exact ((still_refInode fs inode).stays.trans hsize).trans (hgrow.stays_linkDent _)

theorem TreeInv.stays_newNode (h : TreeInv fs held)
    (hn : Fs.newNode junk fs dir type link = some (fs', inode))
    (hj : ∀ k < newDents type, 0 ≤ junk (fs.nextDent + k)) : Stays fs fs' none := by
  have hnew : ∀ type link, Stays fs ((fs.newInode type link).1.refInode fs.nextInode) none :=
    fun type link => (stays_newInode fs type link).trans (still_refInode _ _).stays
  have htree : TreeInv ((fs.newInode .dir []).1.refInode fs.nextInode) held :=
    (h.newInode .dir []).setInode _ (Nat.lt_succ_self _)
  rw [Fs.newNode] at hn
  split at hn
  next hd =>
    rw [newDents, if_pos hd] at hj
    obtain ⟨-, fs1, d1, d2, h1, h2⟩ := newDir_steps hn
    have htree1 := htree.addNewDent h1 (hj 0 (by decide))
    exact ((hnew .dir []).trans (htree.stays_addNewDent h1)).trans (htree1.stays_addNewDent h2)
  next =>
    obtain ⟨-, rfl⟩ := newLeaf_eq hn
    exact hnew type link

/-- **`tfs_mknod`** changes nothing that is there already. -/
theorem TreeInv.stays_tfsMknod (h : TreeInv fs held)
    (hm : Fs.tfsMknod junk fs dir name type link ret = some (fs', r))
    (hj : ∀ k < newDents type, 0 ≤ junk (fs.nextDent + k)) : Stays fs fs' none := by
  by_cases hne : name = []
  · rw [Fs.tfsMknod, if_pos hne] at hm
    cases hm
    exact .refl fs
  · obtain ⟨fs1, fs2, inode, d, err, h1, h2, h3, -⟩ := tfsMknod_steps hne hm
    exact ((h.stays_newNode h1 hj).trans ((h.newNode h1 hj).stays_addNewDent h2)).trans
      (stays_putInode h3)

theorem TreeInv.stays_made {fs1 fs2 : Fs} {cb : Callback} (h : TreeInv fs [])
    (hw : walkTo depth fs dirfd name follow = some (fs1, w, .missing))
    (hm : Made junk fs1 w cb fs2 w' dir d) : Stays fs fs2 none := by
  obtain ⟨type, link, hmakes, hmk⟩ := hm.made
  have hnd : newDents type = 0 := if_neg (makes_leaf hmakes)
  refine (still_walk hw).stays.trans ((h.walked (walkTo_walked hw).1).stays_tfsMknod hmk ?_)
  rw [hnd]
  exact fun k hk => absurd hk (Nat.not_lt_zero k)

theorem FidInv.stays (h : FidInv fs) (hs : Stays fs fs' gone)
    (hgone : ∀ d, gone = some d → ¬ fs.EndsFid d) : FidInv fs' := by
  have hopen : ∀ {fid i}, fs'.Opened fid i → fs.Opened fid i := by
    intro fid i ho
    rw [Fs.Opened, hs.fidman, hs.fidRecords] at ho
    exact ho
  refine ⟨fun fid hf => h.small fid (hs.fidman ▸ hf), fun fid i ho => ?_, fun fid i ho ht => ?_⟩
  · exact lt_of_lt_of_le (h.bound fid i (hopen ho)) hs.nextInode
  have ho' := hopen ho
  have hdir := hs.isDir i (h.bound fid i ho') ht
  obtain ⟨d, hlast, hlive, hinode⟩ := h.dirs fid i ho' hdir
  have hstays : gone ≠ some d := fun hg =>
    hgone d hg ⟨fid, h.small fid ho'.1, ho'.1, by rw [ho'.2, map_some, hdir.2], hlast⟩
  obtain ⟨hlive', hinode'⟩ := hs.dent d hlive hstays
  rw [hs.fidRecords]
  exact ⟨d, hlast, hlive', hinode'.trans hinode⟩

theorem FidInv.stays_all (h : FidInv fs) (hs : Stays fs fs' none) : FidInv fs' :=
  h.stays hs nofun

/-! ## 4. Changes of the fids -/

theorem FidInv.openFid {x : FidRecord} (h : FidInv fs) (hlt : fid < MAX_NR_FID_RECORDS)
    (hx : ∀ i, x.inode = some i → i < fs.nextInode ∧ (IsDir fs i →
      ∃ d, x.path.getLast? = some d ∧ (fs.dents d).live ∧ (fs.dents d).inode = i)) :
    FidInv (fs.openFid slot fid x) := by
  have hother : ∀ {f i}, f ≠ fid → (fs.openFid slot fid x).Opened f i → fs.Opened f i := by
    intro f i hf ho
    simpa [Fs.Opened, Fs.openFid, hf] using ho
  have hself : ∀ {i}, (fs.openFid slot fid x).Opened fid i → x.inode = some i := by
    intro i ho
    simpa [Fs.Opened, Fs.openFid] using ho
  refine ⟨fun f hf => ?_, fun f i ho => ?_, fun f i ho ht => ?_⟩
  · by_cases hff : f = fid
    · exact hff ▸ hlt
    · simp only [Fs.openFid, update_of_ne hff] at hf
      exact h.small f hf
  · by_cases hff : f = fid
    · subst hff
      exact (hx i (hself ho)).1
    · exact h.bound f i (hother hff ho)
  by_cases hff : f = fid
  · subst hff
    simp only [Fs.openFid, update_self]
    exact (hx i (hself ho)).2 ht
  · simp only [Fs.openFid, update_of_ne hff]
    exact h.dirs f i (hother hff ho) ht

theorem FidInv.closeFid (h : FidInv fs) (fid : Nat) : FidInv (fs.closeFid fid) := by
  have hother : ∀ {f i}, (fs.closeFid fid).Opened f i → f ≠ fid ∧ fs.Opened f i := by
    intro f i ho
    by_cases hff : f = fid
    · subst hff
      simp [Fs.Opened, Fs.closeFid] at ho
    · simp only [Fs.Opened, Fs.closeFid, update_of_ne hff] at ho
      exact ⟨hff, ho⟩
  refine ⟨fun f hf => ?_, fun f i ho => h.bound f i (hother ho).2, fun f i ho ht => ?_⟩
  · by_cases hff : f = fid
    · subst hff
      simp [Fs.closeFid] at hf
    · simp only [Fs.closeFid, update_of_ne hff] at hf
      exact h.small f hf
  · obtain ⟨hff, ho⟩ := hother ho
    simp only [Fs.closeFid, update_of_ne hff]
    exact h.dirs f i ho ht

/-! ## 5. Requests -/

theorem TreeInv.found_target (h : TreeInv fs held) (hend : EndOk fs w .found)
    (ht : w.target = some i) : ∃ d, (fs.dents d).live ∧ (fs.dents d).inode = i := by
  rcases hend with ⟨-, hnone | hlast⟩ | ⟨dir, d, -, -, hf, -, htarget⟩
  · rw [hnone] at ht
    cases ht
  · rw [ht] at hlast
    obtain ⟨d, -, hlast⟩ := bind_eq_some_iff.mp hlast.symm
    obtain ⟨x, hx, hlast⟩ := bind_eq_some_iff.mp hlast
    obtain ⟨hl, rfl⟩ := dent_eq_some hx
    exact ⟨d, hl, some.inj hlast⟩
  · rw [ht] at htarget
    exact ⟨d, h.live (h.lookup_some hf).1, (some.inj htarget).symm⟩

/-- A directory is opened for reading only. -/
theorem openCheck_dir {flags : OpenFlags} (ht : fs.targetType w = some .dir)
    (hc : fs.openCheck w flags = some none) :
    ¬ ((flags.creat ∧ flags.excl) ∨ flags.write ∨ flags.trunc ∨ flags.append) := by
  have htarget : w.target.isSome := by
    cases hw : w.target with
    | none => simp [Fs.targetType, hw] at ht
    | some i => rfl
  simp only [Fs.openCheck, htarget, ht] at hc
  revert hc
  cases flags.creat <;> cases flags.excl <;> cases flags.directory <;> cases flags.write <;>
    cases flags.trunc <;> cases flags.append <;> simp

theorem FidInv.fsOpen {flags : OpenFlags} (h : FidInv fs) (ht : TreeInv fs [])
    (htok : TreeOk junk depth fs (.open dirfd name flags))
    (hok : FidsOk depth fs (.open dirfd name flags))
    (ho : Fs.fsOpen junk depth fs dirfd name flags = some (fs', r)) : FidInv fs' := by
  obtain ⟨fs2, w2, err, hh, hend⟩ := fsOpen_cases ho
  obtain ⟨fs1, w, out, hw, ⟨rfl, rfl, herr, -⟩ | ⟨rfl, rfl, dir, d, hmade⟩⟩ := handleXxxat_cases hh
  · have hwalk := h.stays_all (still_walk hw).stays
    rcases hend with ⟨e, -, rfl, -⟩ | ⟨fid, -, rfl, hcheck, hfid⟩
    · exact hwalk
    obtain ⟨-, hlt, slot, rfl⟩ := newFidRecord_eq hfid
    cases out with
    | error e => cases herr
    | missing => cases herr
    | found =>
    -- what has been found is a dentry's, and no directory
    obtain ⟨hwalked, hendOk⟩ := walkTo_walked hw
    refine hwalk.openFid hlt fun i hi => ?_
    obtain ⟨d, hl, rfl⟩ := (ht.walked hwalked).found_target hendOk hi
    refine ⟨(ht.walked hwalked).target d hl, fun hdir => ?_⟩
    have htype := (targetType_eq hdir.1 hi).trans (congrArg some hdir.2)
    exact absurd (hok _ hw rfl htype) (openCheck_dir htype hcheck)
  have hstays := h.stays_all (ht.stays_made hw hmade)
  rcases hend with ⟨e, -, rfl, -⟩ | ⟨fid, -, -, -, hfid⟩
  · exact hstays
  obtain ⟨-, hlt, slot, rfl⟩ := newFidRecord_eq hfid
  obtain ⟨type, link, hmakes, hmk⟩ := hmade.made
  obtain ⟨hl, hino, htype⟩ := tfsMknod_type (walkTo_walked hw).2.1 hmk
  have htree := ht.made hw hmade (htok hmade.creat _ hw rfl)
  refine hstays.openFid hlt fun i hi => ?_
  rw [hmade.walk] at hi
  obtain rfl := some.inj hi
  refine ⟨htree.target d hl, fun hdir => ?_⟩
  rw [hino] at hdir
  exact absurd (htype.symm.trans hdir.2) (makes_leaf hmakes)

theorem FidInv.fsChdir (h : FidInv fs) (ht : TreeInv fs [])
    (hok : FidsOk depth fs (.chdir dirfd name follow))
    (hc : Fs.fsChdir junk depth fs dirfd name follow = some (fs', r)) : FidInv fs' := by
  rcases ht.fsChdir hc with ⟨e, -, rfl⟩ |
    ⟨fs1, w, i, d, slot, fid, hw, hi, -, hd, hl, -, hlt, -, rfl⟩
  · exact h
  obtain ⟨hwalked, hend⟩ := walkTo_walked hw
  have hinode : (fs.dents d).inode = i := by
    rcases hend with ⟨hleaf, -⟩ | ⟨dir, d', -, -, -, hd', htarget⟩
    · have hnone : w.targetDent = none := hok _ hw rfl hleaf (by rw [hi]; exact some_ne_none i)
      rw [hnone] at hd
      cases hd
    · obtain rfl := some.inj (hd.symm.trans hd')
      rw [hwalked.refs] at htarget
      exact some.inj (htarget.symm.trans hi)
  refine (h.stays_all (still_addRefs fs _).stays).openFid hlt fun j hj => ?_
  obtain rfl := some.inj hj
  exact ⟨hinode ▸ ht.target d hl, fun _ => ⟨d, List.getLast?_concat, hl, hinode⟩⟩

theorem FidInv.fsUnlinkat {rmdir : Bool} {flags : BitVec 32} (h : FidInv fs) (ht : TreeInv fs [])
    (hok : FidsOk depth fs (.unlinkat dirfd name rmdir follow flags))
    (hu : Fs.fsUnlinkat junk depth fs dirfd name rmdir follow flags = some (fs', r)) : FidInv fs' := by
  rcases ht.fsUnlinkat hu with ⟨e, -, rfl⟩ | ⟨hflags, dir, d, hn, htype, ⟨e, -, hput⟩ |
    ⟨fs1, -, hput, rfl⟩⟩
  · exact h
  · exact h.stays_all (stays_putInode hput)
  refine h.stays ((stays_putInode hput).trans (stays_unlinkDent fs1 dir d)) fun e he => ?_
  obtain rfl := some.inj he
  obtain ⟨⟨fs2, w, hw, hleaf, -, -, hd, htarget⟩, -⟩ := hn
  have hkind : fs2.targetType w = some .dir ↔ rmdir = true := by
    rw [walk_targetType hw (putInode_setInode hput).1 htarget, some_inj, htype]
  exact hok hflags _ hw rfl hleaf hkind d hd

/-- **Every request keeps the fids right.** -/
theorem FidInv.request {req : Req} (h : FidInv fs) (ht : TreeInv fs [])
    (htok : TreeOk junk depth fs req) (hok : FidsOk depth fs req)
    (hr : request junk depth fs req = some (fs', r)) : FidInv fs' := by
  cases req with
  | «open» dirfd path flags => exact h.fsOpen ht htok hok hr
  | close fd =>
    rcases fsClose_cases hr with ⟨-, rfl⟩ | ⟨-, -, -, rfl⟩
    · exact h
    · exact h.closeFid fd
  | chdir dirfd path follow => exact h.fsChdir ht hok hr
  | mkdirat dirfd path follow =>
    rcases ht.fsMkdirat htok hr with ⟨e, -, rfl⟩ |
      ⟨fs1, w, out, dir, fs2, d, hw, hgo, -, -, -, hmk, rfl, -, -⟩
    · exact h
    have hj := htok _ hw hgo
    rw [← (still_walk hw).nextDent] at hj
    have hmade := (ht.walked (walkTo_walked hw).1).stays_tfsMknod hmk
      fun k hk => hj k (Nat.lt_succ_of_lt hk)
    exact h.stays_all (((still_walk hw).stays.trans hmade).trans (stays_dropRefs _ _))
  | unlinkat dirfd path rmdir follow flags => exact h.fsUnlinkat ht hok hr
  | symlinkat dirfd path link follow =>
    obtain ⟨w2, err, hh⟩ := fsSymlinkat_walk hr
    obtain ⟨fs1, w, out, hw, ⟨rfl, -⟩ | ⟨rfl, -, dir, d, hmade⟩⟩ := handleXxxat_cases hh
    · exact h.stays_all (still_walk hw).stays
    · exact h.stays_all (ht.stays_made hw hmade)
  | rename dirfd path dirfd2 path2 =>
    rcases ht.fsRename htok hr with ⟨l, -, rfl, -⟩ |
      ⟨d, fs2, w2, out, dir, dirOld, hold, hw, hgo, hnf, -, -, -, -, rfl, -⟩
    · exact h.stays_all (still_addRefs fs l).stays
    · refine h.stays ((ht.stays_linkDent _).trans (stays_unlinkDent _ dirOld d)) fun e he => ?_
      obtain rfl := some.inj he
      exact hok d hold _ hw hgo hnf
  | fstatat dirfd path follow flags => exact h.stays_all (ht.still_fstatat hr).stays
  | faccessat dirfd path follow flags => exact h.stays_all (still_faccessat hr).stays
  | getSize name => exact h.stays_all (ht.still_getSize hr).stays

/-! ## 6. Runs -/

theorem fidInv_booted (junk : Nat → Int) : FidInv (.booted junk) := by
  have hopen : ∀ {fid i}, ¬ (Fs.booted junk).Opened fid i := by
    intro fid i ho
    cases ho.2
  refine ⟨fun fid hf => ?_, fun fid i ho => absurd ho hopen, fun fid i ho => absurd ho hopen⟩
  by_cases h0 : fid = 0
  · subst h0
    decide
  · simp [Fs.booted, h0] at hf

theorem fidInv_run (reqs : List Req) (hinit : initTmpfs junk = some fs) (h0 : 0 ≤ junk 0)
    (h1 : 0 ≤ junk 1) (h2 : 1 ≤ junk 2) (hok : ∀ t ∈ trace (Fs.step junk depth) fs reqs,
      TreeOk junk depth t.pre t.act ∧ FidsOk depth t.pre t.act) :
    ∀ t ∈ trace (Fs.step junk depth) fs reqs, TreeInv t.post [] ∧ FidInv t.post := by
  intro t ht
  obtain rfl := initTmpfs_eq hinit
  have hstep : ∀ fs req fs', TreeInv fs [] ∧ FidInv fs →
      TreeOk junk depth fs req ∧ FidsOk depth fs req → Fs.step junk depth fs req = some fs' →
      TreeInv fs' [] ∧ FidInv fs' := by
    intro fs req fs' h hc hs
    obtain ⟨⟨fs1, r⟩, hr, rfl⟩ := map_eq_some_iff.mp hs
    exact ⟨h.1.request hc.1 hr, h.2.request h.1 hc.1 hc.2 hr⟩
  exact (trace_inv hstep reqs _ ⟨treeInv_booted h0 h1 h2, fidInv_booted junk⟩ hok t ht).2

/-- **The fids of directories** are right after every request of a run from `init_tmpfs` that meets
    `TreeOk` and `FidsOk`. -/
theorem fid_dirs_run (reqs : List Req) (hinit : initTmpfs junk = some fs) (h₀ : 0 ≤ junk 0)
    (h₁ : 0 ≤ junk 1) (h₂ : 1 ≤ junk 2) (hok : ∀ t ∈ trace (Fs.step junk depth) fs reqs,
      TreeOk junk depth t.pre t.act ∧ FidsOk depth t.pre t.act) :
    ∀ t ∈ trace (Fs.step junk depth) fs reqs, FidsRight t.post :=
  fun t ht => (fidInv_run reqs hinit h₀ h₁ h₂ hok t ht).2.fidsRight

/-- A directory is made and entered, a file is made in it and opened again from there; then the fid
    is closed. -/
def enterRun : List Req :=
  [.mkdirat .root ['/', 'a'] true, .chdir .root ['/', 'a'] true,
    .open .root ['/', 'a', '/', 'f'] creatFlags, .open (.fid 1) ['f'] creatFlags, .close 1]

theorem fid_dirs_enter :
    (trace (Fs.step ones 4) (.booted ones) enterRun).length = 5 ∧
      ∀ t ∈ trace (Fs.step ones 4) (.booted ones) enterRun, FidsRight t.post :=
  ⟨by decide +kernel, fid_dirs_run enterRun initTmpfs_ones (by decide) (by decide) (by decide)
    (by decide +kernel)⟩

/-- `O_RDONLY` -/
def readFlags : OpenFlags := ⟨false, false, false, false, false, false, false⟩

/-- The root is opened. -/
def rootRun : List Req := [.open .root ['/'] readFlags]

/-- The directory `a` is entered and left again; then `b` is opened and gets the same fid. -/
def reuseRun : List Req :=
  [.mkdirat .root ['/', 'a'] true, .mkdirat .root ['/', 'b'] true, .chdir .root ['/', 'a'] true,
    .close 1, .open .root ['/', 'b'] readFlags]

/-- **Two fids that are wrong.** That of the root has no path. That of `b` has the path of `a`, and
    a request with a relative path looks there. -/
theorem fid_dirs_stale :
    (∃ t ∈ trace (Fs.step ones 4) (.booted ones) rootRun, ¬ FidsRight t.post) ∧
      ∃ t ∈ trace (Fs.step ones 4) (.booted ones) reuseRun, ¬ FidsRight t.post := by
  constructor
  · have hend : (exec (Fs.step ones 4) (.booted ones) rootRun).any (fun fs =>
        (fs.fidman.bitmap 1 ∧ (fs.fidRecords 1).inode = some 0) ∧
          ((fs.inodes 0).live ∧ (fs.inodes 0).type = .dir) ∧
          fs.pathLastInode (fs.fidRecords 1).path ≠ some 0) = true := by
      decide +kernel
    obtain ⟨t, ht, hopen, hdir, hne⟩ := trace_of_exec hend
    exact ⟨t, ht, fun h => hne (h.path 1 0 hopen hdir)⟩
  have hend : (exec (Fs.step ones 4) (.booted ones) reuseRun).any (fun fs =>
      (fs.fidman.bitmap 1 ∧ (fs.fidRecords 1).inode = some 2) ∧
        ((fs.inodes 2).live ∧ (fs.inodes 2).type = .dir) ∧
        fs.pathLastInode (fs.fidRecords 1).path = some 1) = true := by
    decide +kernel
  obtain ⟨t, ht, hopen, hdir, heq⟩ := trace_of_exec hend
  refine ⟨t, ht, fun h => ?_⟩
  cases heq.symm.trans (h.path 1 2 hopen hdir)

end ChCore.Tmpfs
