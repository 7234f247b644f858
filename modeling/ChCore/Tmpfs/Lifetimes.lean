/-
  File: ChCore/Tmpfs/Lifetimes.lean
  Subject: When inodes and dentries are freed, over any history of requests.

  An inode counts the dentries that refer to it, and whoever has called `get_inode` without giving
  it back; a fid does not count. `tfs_remove` and `fs_rename` free a dentry whatever its count is.

  * `lifetimes_run` -- what is in use is there, what is not in use is freed, on runs that meet
    `LifeOk`;
  * `lifetimes_broken` -- an inode freed under a fid, a dentry freed under a path, an inode that is
    never freed.
-/
import ChCore.Tmpfs.Fids

namespace ChCore.Tmpfs

open Lib Fs Function Option List

/-! ## 1. What is to hold -/

/-- **Lifetimes are right**: what a directory, a fid or a path refers to has not been freed, and an
    inode that no dentry and no fid refers to has. -/
structure LifetimesRight (fs : Fs) : Prop where
  inodeOfDent : ∀ dir, ∀ d ∈ fs.entries dir, (fs.inodes (fs.dents d).inode).live
  inodeOfFid : ∀ fid i, fs.Opened fid i → (fs.inodes i).live
  dentOfDir : ∀ dir, ∀ d ∈ fs.entries dir, (fs.dents d).live
  dentOfPath : ∀ fid, fs.fidman.bitmap fid → ∀ d ∈ (fs.fidRecords fid).path, (fs.dents d).live
  freed : ∀ i < fs.nextInode, (∀ d, (fs.dents d).live → (fs.dents d).inode ≠ i) →
    (∀ fid, ¬ fs.Opened fid i) → (fs.inodes i).live = false

/-- The dentries in use that refer to an inode. -/
def Fs.linksTo (fs : Fs) (i : Nat) : Finset Nat :=
  (Finset.range fs.nextDent).filter fun d => (fs.dents d).live ∧ (fs.dents d).inode = i

/-- No path of a fid, open or not, has the dentry. -/
def Fs.Unrecorded (fs : Fs) (d : Nat) : Prop :=
  ∀ fid < MAX_NR_FID_RECORDS, d ∉ (fs.fidRecords fid).path

instance (fs : Fs) (d : Nat) : Decidable (fs.Unrecorded d) := by
  unfold Fs.Unrecorded
  infer_instance

/-- A dentry may be removed: no path has it; if its inode is freed with it no fid has that and it is
    no directory with entries, and otherwise a dentry or a fid still has it. -/
def RemoveOk (fs : Fs) (d : Nat) : Prop :=
  fs.Unrecorded d ∧
    ((fs.inodes (fs.dents d).inode).refcnt = 1 →
      (∀ fid < MAX_NR_FID_RECORDS, ¬ fs.Opened fid (fs.dents d).inode) ∧
        ¬ ((fs.inodes (fs.dents d).inode).type = .dir ∧ fs.entries (fs.dents d).inode ≠ [])) ∧
    ((fs.inodes (fs.dents d).inode).refcnt ≠ 1 →
      1 < (fs.linksTo (fs.dents d).inode).card ∨
        ∃ fid < MAX_NR_FID_RECORDS, fs.Opened fid (fs.dents d).inode)

instance (fs : Fs) (d : Nat) : Decidable (RemoveOk fs d) := by
  unfold RemoveOk
  infer_instance

/-- The requests that keep lifetimes right, in the state before them. -/
def LifeOk (depth : Nat) (fs : Fs) : Req → Prop
  | .close fd => fs.fidman.bitmap fd → ∀ i ∈ (fs.fidRecords fd).inode,
    0 < (fs.linksTo i).card ∨ ∃ fid < MAX_NR_FID_RECORDS, fid ≠ fd ∧ fs.Opened fid i
  | .unlinkat dirfd path rmdir follow flags => flagsIn flags AT_SYMLINK_NOFOLLOW →
    OnWalk depth fs dirfd path follow fun fs' w out => out = .found → w.leaf ≠ [] →
      (fs'.targetType w = some .dir ↔ rmdir = true) → ∀ d ∈ w.targetDent, RemoveOk fs d
  | .rename dirfd path dirfd2 path2 => ∀ d ∈ fs.oldDent depth dirfd path,
    OnWalk depth fs dirfd2 path2 false fun _ _ out =>
      out.GoesOn → out ≠ .found → fs.Unrecorded d
  | _ => True

instance (depth : Nat) (fs : Fs) : (req : Req) → Decidable (LifeOk depth fs req)
  | .close .. | .unlinkat .. | .rename .. => by
    unfold LifeOk
    infer_instance
  | .open .. | .chdir .. | .mkdirat .. | .symlinkat .. | .fstatat .. | .faccessat ..
  | .getSize .. => isTrue trivial

/-! ## 2. Counting dentries -/

variable {fs fs' : Fs} {d i dir fid slot : Nat} {name : Name} {junk : Nat → Int} {depth : Nat}
  {dirfd dirfd2 : Dirfd} {follow : Bool} {w w' : Walk} {r : Except Errno Nat}
  {held owed : List Nat}

theorem mem_linksTo : d ∈ fs.linksTo i ↔
    d < fs.nextDent ∧ (fs.dents d).live ∧ (fs.dents d).inode = i := by
  rw [Fs.linksTo, Finset.mem_filter, Finset.mem_range]

theorem TreeInv.mem_linksTo (h : TreeInv fs held) (hd : (fs.dents d).live) :
    d ∈ fs.linksTo (fs.dents d).inode :=
  Tmpfs.mem_linksTo.mpr ⟨h.freshDent d hd, hd, rfl⟩

theorem linksTo_congr (hn : fs'.nextDent = fs.nextDent)
    (hd : ∀ d, (fs'.dents d).live = (fs.dents d).live ∧ (fs'.dents d).inode = (fs.dents d).inode) :
    fs'.linksTo i = fs.linksTo i := by
  ext d
  rw [mem_linksTo, mem_linksTo, hn, (hd d).1, (hd d).2]

theorem card_linkDent {x : Dentry} (hx : x.live) :
    ((fs.linkDent dir x).linksTo i).card =
      (fs.linksTo i).card + if x.inode = i then 1 else 0 := by
  have hold : ∀ {e}, e ≠ fs.nextDent → (e ∈ (fs.linkDent dir x).linksTo i ↔ e ∈ fs.linksTo i) := by
    intro e he
    have hlt : e < (fs.linkDent dir x).nextDent ↔ e < fs.nextDent := by
      show e < fs.nextDent + 1 ↔ _
      omega
    rw [mem_linksTo, mem_linksTo, hlt, linkDent_of_ne x he]
  have hnew : fs.nextDent ∈ (fs.linkDent dir x).linksTo i ↔ x.inode = i := by
    rw [mem_linksTo, linkDent_self]
    exact ⟨fun h => h.2.2, fun h => ⟨Nat.lt_succ_self _, hx, h⟩⟩
  have hfresh : fs.nextDent ∉ fs.linksTo i := fun h => lt_irrefl _ (mem_linksTo.mp h).1
  split
  next hi =>
    rw [← Finset.card_insert_of_notMem hfresh]
    congr 1
    ext e
    by_cases he : e = fs.nextDent
    · subst he
      simp [hnew, hi]
    · simp [he, hold he]
  next hi =>
    rw [add_zero]
    congr 1
    ext e
    by_cases he : e = fs.nextDent
    · subst he
      simp [hnew, hi, hfresh]
    · rw [hold he]

theorem linksTo_unlinkDent : (fs.unlinkDent dir d).linksTo i = (fs.linksTo i).erase d := by
  ext e
  rw [Finset.mem_erase, mem_linksTo, mem_linksTo]
  by_cases he : e = d
  · subst he
    simp [unlinkDent_live]
  · rw [unlinkDent_of_ne he]
    exact ⟨fun h => ⟨he, h⟩, fun h => h.2⟩

theorem TreeInv.card_unlinkDent (h : TreeInv fs held) (hd : (fs.dents d).live) :
    ((fs.unlinkDent dir d).linksTo i).card + (if (fs.dents d).inode = i then 1 else 0) =
      (fs.linksTo i).card := by
  rw [linksTo_unlinkDent]
  split
  next hi => exact Finset.card_erase_add_one (hi ▸ h.mem_linksTo hd)
  next hi =>
    rw [Finset.erase_eq_of_notMem fun hin => hi (Tmpfs.mem_linksTo.mp hin).2.2]
    rfl

/-! ## 3. The invariant -/

/-- **Counts**, while `owed` holds the inodes with a reference that is still to be given back. -/
structure LifeInv (fs : Fs) (owed : List Nat) : Prop where
  target : ∀ d, (fs.dents d).live → (fs.inodes (fs.dents d).inode).live
  counts : ∀ i, (fs.inodes i).live →
    ((fs.linksTo i).card : Int) + owed.count i ≤ (fs.inodes i).refcnt
  reached : ∀ i, (fs.inodes i).live →
    i ∈ owed ∨ 0 < (fs.linksTo i).card ∨ ∃ fid, fs.Opened fid i
  opened : ∀ fid i, fs.Opened fid i → (fs.inodes i).live
  paths : ∀ fid, ∀ d ∈ (fs.fidRecords fid).path, (fs.dents d).live
  small : ∀ fid, MAX_NR_FID_RECORDS ≤ fid →
    fs.fidman.bitmap fid = false ∧ (fs.fidRecords fid).path = []

theorem LifeInv.lifetimesRight (h : LifeInv fs []) (ht : TreeInv fs []) : LifetimesRight fs := by
  refine ⟨fun dir d hd => h.target d (ht.live hd), h.opened, fun dir d hd => ht.live hd,
    fun fid _ => h.paths fid, fun i hi hdent hfid => ?_⟩
  by_contra hlive
  rcases h.reached i (by simpa using hlive) with hin | hpos | ⟨fid, ho⟩
  · exact not_mem_nil hin
  · obtain ⟨d, hd⟩ := Finset.card_pos.mp hpos
    exact hdent d (mem_linksTo.mp hd).2.1 (mem_linksTo.mp hd).2.2
  · exact hfid fid ho

theorem LifeInv.lt_of_opened (h : LifeInv fs owed) (ho : fs.Opened fid i) :
    fid < MAX_NR_FID_RECORDS := by
  by_contra hge
  have hfree := (h.small fid (not_lt.mp hge)).1
  rw [ho.1] at hfree
  cases hfree

theorem LifeInv.still (h : LifeInv fs owed) (hs : Still fs fs') : LifeInv fs' owed := by
  have hlive : ∀ d, (fs'.dents d).live = (fs.dents d).live := fun d => by rw [hs.dent d]
  have hinode : ∀ d, (fs'.dents d).inode = (fs.dents d).inode := fun d => by rw [hs.dent d]
  have hino : ∀ i, (fs'.inodes i).live = (fs.inodes i).live := fun i => by rw [hs.inode i]
  have hlinks : ∀ i, fs'.linksTo i = fs.linksTo i := fun i =>
    linksTo_congr hs.nextDent fun d => ⟨hlive d, hinode d⟩
  have hopen : ∀ {fid i}, fs'.Opened fid i ↔ fs.Opened fid i := by
    intro fid i
    rw [Fs.Opened, hs.fidman, hs.fidRecords]
    rfl
  refine ⟨fun d hd => ?_, fun i hi => ?_, fun i hi => ?_, fun fid i ho => ?_, fun fid d hd => ?_,
    fun fid hf => ?_⟩
  · rw [hlive] at hd
    rw [hinode, hino]
    exact h.target d hd
  · rw [hino] at hi
    rw [hlinks]
    exact Int.le_trans (h.counts i hi) (hs.inodeRefs i)
  · rw [hino] at hi
    simp only [hlinks, hopen]
    exact h.reached i hi
  · rw [hino]
    exact h.opened fid i (hopen.mp ho)
  · rw [hs.fidRecords] at hd
    rw [hlive]
    exact h.paths fid d hd
  · rw [hs.fidman, hs.fidRecords]
    exact h.small fid hf

/-! ## 4. Creating -/

/-- A new dentry, and one more reference for its inode. -/
theorem LifeInv.linkDent {x : Dentry} {inodes : Nat → Inode} (h : LifeInv fs owed)
    (ht : TreeInv fs held) (hx : x.live) (hl : (fs.inodes x.inode).live)
    (hlive : ∀ j, (inodes j).live = (fs.inodes j).live)
    (hrefs : ∀ j, (inodes j).refcnt = (fs.inodes j).refcnt + if x.inode = j then 1 else 0) :
    LifeInv ({ fs with inodes := inodes }.linkDent dir x) owed := by
  have hold : ∀ {e}, e ≠ fs.nextDent →
      ({ fs with inodes := inodes }.linkDent dir x).dents e = fs.dents e := fun he =>
    linkDent_of_ne x he
  have hcard : ∀ j, (({ fs with inodes := inodes }.linkDent dir x).linksTo j).card =
      (fs.linksTo j).card + if x.inode = j then 1 else 0 := fun j => card_linkDent hx
  refine ⟨fun e he => ?_, fun j hj => ?_, fun j hj => ?_, fun fid j ho => ?_, fun fid e he => ?_,
    h.small⟩
  · show (inodes _).live
    by_cases hne : e = fs.nextDent
    · subst hne
      rw [linkDent_self, hlive]
      exact hl
    · rw [hold hne] at he ⊢
      rw [hlive]
      exact h.target e he
  · have hcount := h.counts j ((hlive j).symm.trans hj)
    rw [hcard]
    show _ ≤ (inodes j).refcnt
    rw [hrefs]
    split
    · omega
    · omega
  · rw [hcard]
    rcases h.reached j ((hlive j).symm.trans hj) with hin | hpos | ho
    · exact .inl hin
    · exact .inr (.inl (lt_of_lt_of_le hpos (Nat.le_add_right _ _)))
    · exact .inr (.inr ho)
  · exact (hlive j).trans (h.opened fid j ho)
  · have he' := h.paths fid e he
    rw [hold (ne_of_lt (ht.freshDent e he'))]
    exact he'

variable {type : FsType} {link : Name} {inode : Nat} {ret : Bool}

theorem LifeInv.addNewDent (h : LifeInv fs owed) (ht : TreeInv fs held)
    (ha : Fs.addNewDent junk fs dir name inode ret = some (fs', d)) :
    LifeInv fs' owed ∧ 0 < (fs'.linksTo inode).card := by
  obtain ⟨hl, -, -, rfl⟩ := addNewDent_eq ha
  constructor
  · refine h.linkDent ht rfl hl (fun j => ?_) fun j => ?_
    · exact addNewDent_live ha j
    have hrefs : ((fs.refInode inode).inodes j).refcnt =
        (fs.inodes j).refcnt + if inode = j then 1 else 0 := by
      by_cases hj : inode = j
      · subst hj
        simp [Fs.refInode, Fs.setInode]
      · simp [Fs.refInode, Fs.setInode, hj, Ne.symm hj]
    by_cases hj : j = dir
    · subst hj
      simpa [Fs.growDir, Fs.setInode] using hrefs
    · simpa [Fs.growDir, Fs.setInode, hj] using hrefs
  · rw [card_linkDent rfl, if_pos rfl]
    exact Nat.succ_pos _

/-- A new inode with the reference of its maker. -/
theorem LifeInv.newInode (h : LifeInv fs []) (ht : TreeInv fs held) (type : FsType) (link : Name) :
    LifeInv ((fs.newInode type link).1.refInode fs.nextInode) [fs.nextInode] := by
  set fs' := (fs.newInode type link).1.refInode fs.nextInode
  have hself : fs'.inodes fs.nextInode = ⟨type, 1, link.length, link, true⟩ := by
    simp [fs', Fs.newInode, Fs.refInode, Fs.setInode]
  have hother : ∀ {j}, j ≠ fs.nextInode → fs'.inodes j = fs.inodes j := by
    intro j hj
    simp [fs', Fs.newInode, Fs.refInode, Fs.setInode, hj]
  have hnone : fs.linksTo fs.nextInode = ∅ := by
    refine Finset.eq_empty_of_forall_notMem fun e he => ?_
    obtain ⟨-, hl, hi⟩ := mem_linksTo.mp he
    exact ne_of_lt (ht.target e hl) hi
  have hlinks : ∀ j, fs'.linksTo j = fs.linksTo j := fun j => linksTo_congr rfl fun _ => ⟨rfl, rfl⟩
  refine ⟨fun e he => ?_, fun j hj => ?_, fun j hj => ?_, fun fid j ho => ?_, h.paths, h.small⟩
  · have hne : fs'.dents e = fs.dents e := rfl
    rw [hne, hother (ne_of_lt (ht.target e he))]
    exact h.target e he
  · rw [hlinks]
    by_cases hn : j = fs.nextInode
    · subst hn
      rw [hself, hnone]
      simp
    · rw [hother hn] at hj ⊢
      have := h.counts j hj
      simpa [Ne.symm hn] using this
  · by_cases hn : j = fs.nextInode
    · exact .inl (hn ▸ mem_singleton_self _)
    · rw [hother hn] at hj
      exact .inr ((h.reached j hj).resolve_left not_mem_nil)
  · have hl := h.opened fid j ho
    rw [hother (ne_of_lt (ht.freshInode j hl))]
    exact hl

theorem LifeInv.newNode (h : LifeInv fs []) (ht : TreeInv fs held)
    (hn : Fs.newNode junk fs dir type link = some (fs', inode))
    (hj : ∀ k < newDents type, 0 ≤ junk (fs.nextDent + k)) : LifeInv fs' [inode] := by
  have htree : TreeInv ((fs.newInode .dir []).1.refInode fs.nextInode) held :=
    (ht.newInode .dir []).setInode _ (Nat.lt_succ_self _)
  rw [Fs.newNode] at hn
  split at hn
  next hd =>
    rw [newDents, if_pos hd] at hj
    obtain ⟨rfl, fs1, d1, d2, h1, h2⟩ := newDir_steps hn
    have hdot := ((h.newInode ht .dir []).addNewDent htree h1).1
    exact (hdot.addNewDent (htree.addNewDent h1 (hj 0 (by decide))) h2).1
  next =>
    obtain ⟨rfl, rfl⟩ := newLeaf_eq hn
    exact h.newInode ht type link

/-- The maker of an inode gives its reference back; a dentry keeps the inode. -/
theorem LifeInv.putOwed {err : Option Errno} (h : LifeInv fs [i]) (hpos : 0 < (fs.linksTo i).card)
    (hp : fs.putInode i = some (fs', err)) : LifeInv fs' [] := by
  obtain ⟨hl, hcases⟩ := putInode_cases hp
  have hcount := h.counts i hl
  rw [count_singleton_self] at hcount
  obtain ⟨-, -, rfl⟩ : 1 < (fs.inodes i).refcnt ∧ err = none ∧
      fs' = fs.setInode i { fs.inodes i with refcnt := (fs.inodes i).refcnt - 1 } := by
    rcases hcases with hmany | ⟨hone, -⟩ | ⟨hone, -⟩
    · exact hmany
    · omega
    · omega
  have hlive : ∀ j, ((fs.setInode i { fs.inodes i with refcnt := (fs.inodes i).refcnt - 1 }).inodes
      j).live = (fs.inodes j).live := setInode_keeps Inode.live (by rfl)
  refine ⟨fun e he => (hlive _).trans (h.target e he), fun j hj => ?_, fun j hj => ?_,
    fun fid j ho => (hlive j).trans (h.opened fid j ho), h.paths, h.small⟩
  · have hcount' := h.counts j ((hlive j).symm.trans hj)
    show ((fs.linksTo j).card : Int) + _ ≤ _
    by_cases hji : j = i
    · subst hji
      simp only [Fs.setInode, update_self, count_nil]
      omega
    · simp only [Fs.setInode, update_of_ne hji, count_nil]
      omega
  · rcases h.reached j ((hlive j).symm.trans hj) with hin | hother
    · obtain rfl := mem_singleton.mp hin
      exact .inr (.inl hpos)
    · exact .inr hother

/-- **`tfs_mknod`** leaves the new inode with its dentry. -/
theorem LifeInv.tfsMknod (h : LifeInv fs []) (ht : TreeInv fs held) (hne : name ≠ [])
    (hm : Fs.tfsMknod junk fs dir name type link ret = some (fs', r))
    (hj : ∀ k < newDents type, 0 ≤ junk (fs.nextDent + k)) : LifeInv fs' [] := by
  obtain ⟨fs1, fs2, inode, d, err, h1, h2, h3, -⟩ := tfsMknod_steps hne hm
  obtain ⟨hlink, hpos⟩ := (h.newNode ht h1 hj).addNewDent (ht.newNode h1 hj) h2
  exact hlink.putOwed hpos h3

theorem LifeInv.made {fs1 fs2 : Fs} {cb : Callback} (h : LifeInv fs []) (ht : TreeInv fs [])
    (hw : walkTo depth fs dirfd name follow = some (fs1, w, .missing))
    (hm : Made junk fs1 w cb fs2 w' dir d) : LifeInv fs2 [] := by
  obtain ⟨hwalked, hleaf, -⟩ := walkTo_walked hw
  obtain ⟨type, link, hmakes, hmk⟩ := hm.made
  have hnd : newDents type = 0 := if_neg (makes_leaf hmakes)
  refine (h.still (still_walk hw)).tfsMknod (ht.walked hwalked) hleaf hmk ?_
  rw [hnd]
  exact fun k hk => absurd hk (Nat.not_lt_zero k)

/-! ## 5. Removing and renaming -/

theorem LifeInv.not_recorded (h : LifeInv fs owed) (hd : fs.Unrecorded d) :
    d ∉ (fs.fidRecords fid).path := by
  by_cases hlt : fid < MAX_NR_FID_RECORDS
  · exact hd fid hlt
  · rw [(h.small fid (not_lt.mp hlt)).2]
    exact not_mem_nil

section

variable (h : LifeInv fs []) (ht : TreeInv fs [])

include h ht

/-- A dentry goes, with one reference to its inode; the inode is freed or somebody still has it. -/
theorem LifeInv.unlinkDent {x : Inode} (hd : (fs.dents d).live) (hpath : fs.Unrecorded d)
    (hkept : x.live → (fs.inodes (fs.dents d).inode).refcnt ≤ x.refcnt + 1 ∧
      (1 < (fs.linksTo (fs.dents d).inode).card ∨ ∃ fid, fs.Opened fid (fs.dents d).inode))
    (hfreed : x.live = false → (fs.linksTo (fs.dents d).inode).card ≤ 1 ∧
      ∀ fid, ¬ fs.Opened fid (fs.dents d).inode) :
    LifeInv ((fs.setInode (fs.dents d).inode x).unlinkDent dir d) [] := by
  have htree : TreeInv (fs.setInode (fs.dents d).inode x) [] := ht.setInode x (ht.target d hd)
  set fs' := (fs.setInode (fs.dents d).inode x).unlinkDent dir d
  have hcard : ∀ j, (fs'.linksTo j).card +
      (if (fs.dents d).inode = j then 1 else 0) = (fs.linksTo j).card := fun j =>
    htree.card_unlinkDent hd
  have hself : fs'.inodes (fs.dents d).inode = x :=
    update_self _ _ _
  have hother : ∀ {j}, j ≠ (fs.dents d).inode →
      fs'.inodes j = fs.inodes j := fun hj =>
    update_of_ne hj _ _
  refine ⟨fun e he => ?_, fun j hj => ?_, fun j hj => ?_, fun fid j ho => ?_, fun fid e he => ?_,
    h.small⟩
  · have hne : e ≠ d := by
      intro hed
      rw [hed, unlinkDent_live] at he
      cases he
    rw [unlinkDent_of_ne hne] at he ⊢
    by_cases hj : (fs.dents e).inode = (fs.dents d).inode
    · -- two dentries refer to the inode: it has not been freed
      show (fs'.inodes (fs.dents e).inode).live
      rw [hj, hself]
      by_contra hx
      have htwo : 1 < (fs.linksTo (fs.dents d).inode).card :=
        Finset.one_lt_card.mpr ⟨d, ht.mem_linksTo hd, e, hj ▸ ht.mem_linksTo he, hne.symm⟩
      have hone := (hfreed (by simpa using hx)).1
      omega
    · show (fs'.inodes (fs.dents e).inode).live
      rw [hother hj]
      exact h.target e he
  · have hc := hcard j
    rw [count_nil]
    by_cases hji : j = (fs.dents d).inode
    · subst hji
      rw [hself] at hj ⊢
      have hcount := h.counts _ (h.target d hd)
      have href := (hkept hj).1
      rw [if_pos rfl] at hc
      omega
    · rw [hother hji] at hj ⊢
      have hcount := h.counts j hj
      omega
  · have hc := hcard j
    by_cases hji : j = (fs.dents d).inode
    · subst hji
      rw [hself] at hj
      rw [if_pos rfl] at hc
      rcases (hkept hj).2 with htwo | ho
      · exact .inr (.inl (by omega))
      · exact .inr (.inr ho)
    rw [hother hji] at hj
    rw [if_neg fun he => hji he.symm] at hc
    rcases h.reached j hj with hin | hpos | ho
    · exact absurd hin not_mem_nil
    · exact .inr (.inl (by omega))
    · exact .inr (.inr ho)
  · by_cases hji : j = (fs.dents d).inode
    · subst hji
      rw [hself]
      by_contra hx
      exact (hfreed (by simpa using hx)).2 fid ho
    · rw [hother hji]
      exact h.opened fid j ho
  · have hne : e ≠ d := fun hed => h.not_recorded hpath (hed ▸ he)
    rw [unlinkDent_of_ne hne]
    exact h.paths fid e he

/-- **A removal** that meets `RemoveOk`. -/
theorem LifeInv.remove {fs1 : Fs} {err : Option Errno} (dir : Nat) (hd : (fs.dents d).live)
    (hok : RemoveOk fs d) (hp : fs.putInode (fs.dents d).inode = some (fs1, err)) :
    err = none ∧ LifeInv (fs1.unlinkDent dir d) [] := by
  obtain ⟨hpath, hlast, hmore⟩ := hok
  obtain ⟨hl, hcases⟩ := putInode_cases hp
  have hcount := h.counts _ hl
  rcases hcases with ⟨hmany, rfl, rfl⟩ | ⟨hone, hdir, -⟩ | ⟨hone, -, rfl, rfl⟩
  · refine ⟨rfl, h.unlinkDent ht hd hpath (fun _ => ⟨?_, ?_⟩) fun hx => ?_⟩
    · show _ ≤ (fs.inodes (fs.dents d).inode).refcnt - 1 + 1
      omega
    · exact (hmore (by omega)).imp id fun ⟨fid, _, ho⟩ => ⟨fid, ho⟩
    · exact absurd (hl.symm.trans hx) (by decide)
  · exact absurd hdir (hlast hone).2
  refine ⟨rfl, h.unlinkDent ht hd hpath (fun hx => ?_) fun _ => ⟨?_, fun fid ho => ?_⟩⟩
  · cases hx
  · omega
  · exact (hlast hone).1 fid (h.lt_of_opened ho) ho

/-- **A rename** changes no count. -/
theorem LifeInv.moveDent {x : Dentry} {dirOld dOld : Nat} (hlink : TreeInv (fs.linkDent dir x) [])
    (hx : x.live) (hold : (fs.dents dOld).live) (hsame : x.inode = (fs.dents dOld).inode)
    (hpath : fs.Unrecorded dOld) : LifeInv (fs.moveDent dir x dirOld dOld) [] := by
  have hne : dOld ≠ fs.nextDent := ne_of_lt (ht.freshDent _ hold)
  have hdent : (fs.linkDent dir x).dents dOld = fs.dents dOld := linkDent_of_ne x hne
  have hcard : ∀ j, ((fs.moveDent dir x dirOld dOld).linksTo j).card = (fs.linksTo j).card := by
    intro j
    have hl : ((fs.linkDent dir x).dents dOld).live := hdent ▸ hold
    have hless : ((fs.moveDent dir x dirOld dOld).linksTo j).card +
        (if ((fs.linkDent dir x).dents dOld).inode = j then 1 else 0) =
          ((fs.linkDent dir x).linksTo j).card := hlink.card_unlinkDent hl
    rw [card_linkDent hx, hdent, hsame] at hless
    exact Nat.add_right_cancel hless
  refine ⟨fun e he => ?_, fun j hj => ?_, fun j hj => ?_, h.opened, fun fid e he => ?_, h.small⟩
  · have hed : e ≠ dOld := by
      intro hed
      rw [hed, Fs.moveDent, unlinkDent_live] at he
      cases he
    rw [Fs.moveDent, unlinkDent_of_ne hed] at he ⊢
    by_cases hen : e = fs.nextDent
    · rw [hen, linkDent_self, hsame]
      exact h.target dOld hold
    · rw [linkDent_of_ne x hen] at he ⊢
      exact h.target e he
  · rw [hcard]
    exact h.counts j hj
  · rw [hcard]
    exact h.reached j hj
  have hlive := h.paths fid e he
  have hed : e ≠ dOld := fun hed => h.not_recorded hpath (hed ▸ he)
  rw [Fs.moveDent, unlinkDent_of_ne hed,
    linkDent_of_ne x (ne_of_lt (ht.freshDent e hlive))]
  exact hlive

end

/-! ## 6. Fids -/

theorem LifeInv.openFid {x : FidRecord} (h : LifeInv fs owed) (hfree : fs.fidman.bitmap fid = false)
    (hlt : fid < MAX_NR_FID_RECORDS) (hx : ∀ i, x.inode = some i → (fs.inodes i).live)
    (hp : ∀ d ∈ x.path, (fs.dents d).live) : LifeInv (fs.openFid slot fid x) owed := by
  refine ⟨h.target, h.counts, fun i hi => ?_, fun f i ho => ?_, fun f d hd => ?_, fun f hf => ?_⟩
  · refine (h.reached i hi).imp id (Or.imp id fun ⟨f, ho⟩ => ⟨f, ?_⟩)
    have hne : f ≠ fid := by
      intro hff
      rw [hff, Fs.Opened, hfree] at ho
      cases ho.1
    simpa [Fs.Opened, Fs.openFid, hne] using ho
  · by_cases hff : f = fid
    · subst hff
      exact hx i (by simpa [Fs.Opened, Fs.openFid] using ho)
    · exact h.opened f i (by simpa [Fs.Opened, Fs.openFid, hff] using ho)
  · by_cases hff : f = fid
    · subst hff
      exact hp d (by simpa [Fs.openFid] using hd)
    · exact h.paths f d (by simpa [Fs.openFid, hff] using hd)
  · have hne : f ≠ fid := by omega
    simpa [Fs.openFid, hne] using h.small f hf

theorem LifeInv.closeFid (h : LifeInv fs []) (hlt : fid < MAX_NR_FID_RECORDS)
    (hc : ∀ i, (fs.fidRecords fid).inode = some i →
      0 < (fs.linksTo i).card ∨ ∃ f, f ≠ fid ∧ fs.Opened f i) : LifeInv (fs.closeFid fid) [] := by
  have hkept : ∀ {f i}, f ≠ fid → fs.Opened f i → (fs.closeFid fid).Opened f i := by
    intro f i hne ho
    simpa [Fs.Opened, Fs.closeFid, hne] using ho
  refine ⟨h.target, h.counts, fun i hi => ?_, fun f i ho => ?_, fun f d hd => ?_, fun f hf => ?_⟩
  · rcases h.reached i hi with hin | hpos | ⟨f, ho⟩
    · exact absurd hin not_mem_nil
    · exact .inr (.inl hpos)
    by_cases hff : f = fid
    · subst hff
      exact .inr ((hc i ho.2).imp_right (Exists.imp fun f' ho' => hkept ho'.1 ho'.2))
    · exact .inr (.inr ⟨f, hkept hff ho⟩)
  · by_cases hff : f = fid
    · subst hff
      simp [Fs.Opened, Fs.closeFid] at ho
    · exact h.opened f i (by simpa [Fs.Opened, Fs.closeFid, hff] using ho)
  · by_cases hff : f = fid
    · subst hff
      exact h.paths f d (by simpa [Fs.closeFid] using hd)
    · exact h.paths f d (by simpa [Fs.closeFid, hff] using hd)
  · have hne : f ≠ fid := by omega
    simpa [Fs.closeFid, hne] using h.small f hf

/-! ## 7. Requests -/

section

variable (h : LifeInv fs []) (ht : TreeInv fs [])

include h ht

theorem LifeInv.fsOpen {flags : OpenFlags}
    (ho : Fs.fsOpen junk depth fs dirfd name flags = some (fs', r)) : LifeInv fs' [] := by
  obtain ⟨fs2, w2, err, hh, hend⟩ := fsOpen_cases ho
  obtain ⟨fs1, w, out, hw, ⟨rfl, rfl, herr, -⟩ | ⟨rfl, rfl, dir, d, hmade⟩⟩ := handleXxxat_cases hh
  · have hwalk := h.still (still_walk hw)
    rcases hend with ⟨e, -, rfl, -⟩ | ⟨fid, -, rfl, -, hfid⟩
    · exact hwalk
    obtain ⟨hfree, hlt, slot, rfl⟩ := newFidRecord_eq hfid
    cases out with
    | error e => cases herr
    | missing => cases herr
    | found =>
    obtain ⟨hwalked, hendOk⟩ := walkTo_walked hw
    refine hwalk.openFid hfree hlt (fun i hi => ?_) (hwalk.paths fid)
    obtain ⟨d, hl, rfl⟩ := (ht.walked hwalked).found_target hendOk hi
    exact hwalk.target d hl
  have hmk := h.made ht hw hmade
  rcases hend with ⟨e, -, rfl, -⟩ | ⟨fid, -, -, -, hfid⟩
  · exact hmk
  obtain ⟨hfree, hlt, slot, rfl⟩ := newFidRecord_eq hfid
  obtain ⟨type, link, -, hnod⟩ := hmade.made
  refine hmk.openFid hfree hlt (fun i hi => ?_) (hmk.paths fid)
  rw [hmade.walk] at hi
  obtain rfl := some.inj hi
  exact hmk.target d (tfsMknod_type (walkTo_walked hw).2.1 hnod).1

theorem LifeInv.fsChdir (hc : Fs.fsChdir junk depth fs dirfd name follow = some (fs', r)) :
    LifeInv fs' [] := by
  rcases ht.fsChdir hc with ⟨e, -, rfl⟩ |
    ⟨fs1, w, i, d, slot, fid, hw, -, hi, -, hd, hfree, hlt, -, rfl⟩
  · exact h
  refine (h.still (still_addRefs fs _)).openFid hfree hlt (fun j hj => ?_) fun e he => ?_
  · obtain rfl := some.inj hj
    exact hi
  · rcases mem_append.mp he with he | he
    · exact (walkTo_walked hw).1.live e he
    · exact mem_singleton.mp he ▸ hd

theorem LifeInv.fsUnlinkat {rmdir : Bool} {flags : BitVec 32}
    (hok : LifeOk depth fs (.unlinkat dirfd name rmdir follow flags))
    (hu : Fs.fsUnlinkat junk depth fs dirfd name rmdir follow flags = some (fs', r)) :
    LifeInv fs' [] := by
  rcases ht.fsUnlinkat hu with ⟨e, -, rfl⟩ | ⟨hflags, dir, d, hn, htype, hdone⟩
  · exact h
  have hl := ht.live hn.mem
  have hremove : RemoveOk fs d := by
    obtain ⟨⟨fs2, w, hw, hleaf, -, -, hd, htarget⟩, -⟩ := hn
    have hkind : fs2.targetType w = some .dir ↔ rmdir = true := by
      rw [walk_targetType hw (h.target d hl) htarget, some_inj, htype]
    exact hok hflags _ hw rfl hleaf hkind d hd
  rcases hdone with ⟨e, -, hput⟩ | ⟨fs1, -, hput, rfl⟩
  · cases (h.remove ht dir hl hremove hput).1
  · exact (h.remove ht dir hl hremove hput).2

end

/-- **Every request** that meets the conditions keeps the counts. -/
theorem LifeInv.request {req : Req} (h : LifeInv fs []) (ht : TreeInv fs [])
    (htok : TreeOk junk depth fs req) (hok : LifeOk depth fs req)
    (hr : request junk depth fs req = some (fs', r)) : LifeInv fs' [] := by
  cases req with
  | «open» dirfd path flags => exact h.fsOpen ht hr
  | close fd =>
    rcases fsClose_cases hr with ⟨-, rfl⟩ | ⟨hused, hlt, -, rfl⟩
    · exact h
    · exact h.closeFid hlt fun i hi => (hok hused i hi).imp id fun ⟨f, _, hne, ho⟩ => ⟨f, hne, ho⟩
  | chdir dirfd path follow => exact h.fsChdir ht hr
  | mkdirat dirfd path follow =>
    rcases ht.fsMkdirat htok hr with ⟨e, -, rfl⟩ |
      ⟨fs1, w, out, dir, fs2, d, hw, hgo, -, -, hleaf, hmk, rfl, -, -⟩
    · exact h
    have hj := htok _ hw hgo
    rw [← (still_walk hw).nextDent] at hj
    have hmade := (h.still (still_walk hw)).tfsMknod (ht.walked (walkTo_walked hw).1) hleaf hmk
      fun k hk => hj k (Nat.lt_succ_of_lt hk)
    exact { hmade with }
  | unlinkat dirfd path rmdir follow flags => exact h.fsUnlinkat ht hok hr
  | symlinkat dirfd path link follow =>
    obtain ⟨w2, err, hh⟩ := fsSymlinkat_walk hr
    obtain ⟨fs1, w, out, hw, ⟨rfl, -⟩ | ⟨rfl, -, dir, d, hmade⟩⟩ := handleXxxat_cases hh
    · exact h.still (still_walk hw)
    · exact h.made ht hw hmade
  | rename dirfd path dirfd2 path2 =>
    rcases ht.fsRename htok hr with ⟨l, -, rfl, -⟩ |
      ⟨d, fs2, w2, out, dir, dirOld, hold, hw, hgo, hnf, -, hdir, hmem, -, rfl, -⟩
    · exact h.still (still_addRefs fs l)
    have hl := ht.live hmem
    have hj : 1 ≤ junk fs.nextDent := (htok d hold).2 _ hw hgo hnf
    refine h.moveDent ht ?_ rfl hl rfl (hok d hold _ hw hgo hnf)
    exact ht.linkDent rfl rfl hj (ht.freshInode dir hdir.1) (ht.target d hl)
  | fstatat dirfd path follow flags => exact h.still (ht.still_fstatat hr)
  | faccessat dirfd path follow flags => exact h.still (still_faccessat hr)
  | getSize name => exact h.still (ht.still_getSize hr)

/-! ## 8. Runs -/

theorem lifeInv_booted (junk : Nat → Int) : LifeInv (.booted junk) [] := by
  have hroot : ∀ {i}, ((Fs.booted junk).inodes i).live → i = 0 := by
    intro i hi
    by_contra hne
    simp [Fs.booted, Fs.empty, hne] at hi
  have hdent : ∀ d, ((Fs.booted junk).dents d).inode = 0 := by
    intro d
    by_cases h0 : d = 0
    · subst h0
      rfl
    by_cases h1 : d = 1
    · subst h1
      rfl
    by_cases h2 : d = 2
    · subst h2
      rfl
    · simp [Fs.booted, Fs.empty, h0, h1, h2]
  have hopen : ∀ {fid i}, ¬ (Fs.booted junk).Opened fid i := by
    intro fid i ho
    cases ho.2
  refine ⟨fun d _ => ?_, fun i hi => ?_, fun i hi => ?_, fun fid i ho => absurd ho hopen,
    fun _ _ hd => absurd hd not_mem_nil, fun fid hf => ⟨?_, rfl⟩⟩
  · rw [hdent]
    rfl
  · -- three dentries refer to the root, and four references have been taken
    have hcard : ((Fs.booted junk).linksTo i).card ≤ 3 :=
      (Finset.card_filter_le _ _).trans (Finset.card_range 3).le
    obtain rfl := hroot hi
    show _ ≤ (4 : Int)
    rw [count_nil]
    omega
  · obtain rfl := hroot hi
    exact .inr (.inl (Finset.card_pos.mpr ⟨0, mem_linksTo.mpr ⟨Nat.succ_pos 2, rfl, rfl⟩⟩))
  · have hne : fid ≠ 0 := Nat.ne_of_gt (lt_of_lt_of_le (by decide) hf)
    simp [Fs.booted, hne]

/-- **Lifetimes over whole runs**: after every request of a run from `init_tmpfs` that meets `TreeOk`
    and `LifeOk`, what is referred to is there and what is not is freed. -/
theorem lifetimes_run (reqs : List Req) (hinit : initTmpfs junk = some fs) (h₀ : 0 ≤ junk 0)
    (h₁ : 0 ≤ junk 1) (h₂ : 1 ≤ junk 2) (hok : ∀ t ∈ trace (Fs.step junk depth) fs reqs,
      TreeOk junk depth t.pre t.act ∧ LifeOk depth t.pre t.act) :
    ∀ t ∈ trace (Fs.step junk depth) fs reqs, LifetimesRight t.post := by
  intro t ht
  obtain rfl := initTmpfs_eq hinit
  have hstep : ∀ fs req fs', TreeInv fs [] ∧ LifeInv fs [] →
      TreeOk junk depth fs req ∧ LifeOk depth fs req → Fs.step junk depth fs req = some fs' →
      TreeInv fs' [] ∧ LifeInv fs' [] := by
    intro fs req fs' h hc hs
    obtain ⟨⟨fs₁, r⟩, hr, rfl⟩ := map_eq_some_iff.mp hs
    exact ⟨h.1.request hc.1 hr, h.2.request h.1 hc.1 hc.2 hr⟩
  obtain ⟨-, htree, hlife⟩ :=
    trace_inv hstep reqs _ ⟨treeInv_booted h₀ h₁ h₂, lifeInv_booted junk⟩ hok t ht
  exact hlife.lifetimesRight htree

/-- A file is made, closed, renamed and removed; then its directory is entered. -/
def fileRun : List Req :=
  [.mkdirat .root ['/', 'a'] true, .open .root ['/', 'a', '/', 'f'] creatFlags, .close 1,
    .rename .root ['/', 'a', '/', 'f'] .root ['/', 'a', '/', 'g'],
    .unlinkat .root ['/', 'a', '/', 'g'] false true 0, .chdir .root ['/', 'a'] true]

theorem lifetimes_file :
    (trace (Fs.step ones 4) (.booted ones) fileRun).length = 6 ∧
      ∀ t ∈ trace (Fs.step ones 4) (.booted ones) fileRun, LifetimesRight t.post :=
  ⟨by decide +kernel, lifetimes_run fileRun initTmpfs_ones (by decide) (by decide) (by decide)
    (by decide +kernel)⟩

/-- An open file is removed. -/
def openRun : List Req :=
  [.open .root ['/', 'f'] creatFlags, .unlinkat .root ['/', 'f'] false true 0]

/-- A directory that a fid stands for is removed. -/
def leaveRun : List Req :=
  [.mkdirat .root ['/', 'a'] true, .chdir .root ['/', 'a'] true,
    .unlinkat .root ['/', 'a'] true true 0]

/-- A file whose size somebody has asked for is removed. -/
def sizeRun : List Req :=
  [.open .root ['/', 'f'] creatFlags, .close 1, .getSize ['f'],
    .unlinkat .root ['/', 'f'] false true 0]

/-- **Three lifetimes that are wrong.** In the first run the inode of a fid has been freed, in the
    second a dentry of its path. In the third the inode is never freed. -/
theorem lifetimes_broken :
    (∃ t ∈ trace (Fs.step ones 4) (.booted ones) openRun, ¬ LifetimesRight t.post) ∧
    (∃ t ∈ trace (Fs.step ones 4) (.booted ones) leaveRun, ¬ LifetimesRight t.post) ∧
    ∃ t ∈ trace (Fs.step ones 4) (.booted ones) sizeRun, ¬ LifetimesRight t.post := by
  refine ⟨?_, ?_, ?_⟩
  · have hend : (exec (Fs.step ones 4) (.booted ones) openRun).any (fun fs =>
        fs.Opened 1 1 ∧ (fs.inodes 1).live = false) = true := by
      decide +kernel
    obtain ⟨t, ht, hopen, hfreed⟩ := trace_of_exec hend
    refine ⟨t, ht, fun h => ?_⟩
    cases hfreed.symm.trans (h.inodeOfFid 1 1 hopen)
  · have hend : (exec (Fs.step ones 4) (.booted ones) leaveRun).any (fun fs =>
        fs.fidman.bitmap 1 ∧ 5 ∈ (fs.fidRecords 1).path ∧ (fs.dents 5).live = false) = true := by
      decide +kernel
    obtain ⟨t, ht, hused, hpath, hfreed⟩ := trace_of_exec hend
    refine ⟨t, ht, fun h => ?_⟩
    cases hfreed.symm.trans (h.dentOfPath 1 hused 5 hpath)
  have hend : (exec (Fs.step ones 4) (.booted ones) sizeRun).any (fun fs =>
      1 < fs.nextInode ∧ (fs.inodes 1).live ∧
        (∀ d < fs.nextDent, (fs.dents d).live → (fs.dents d).inode ≠ 1) ∧
        ∀ fid < MAX_NR_FID_RECORDS, ¬ fs.Opened fid 1) = true := by
    decide +kernel
  obtain ⟨t, ht, hlt, hlive, hdent, hfid⟩ := trace_of_exec hend
  -- no dentry and no fid outside the tables is in use
  obtain ⟨htree, hfids⟩ := fidInv_run sizeRun initTmpfs_ones (by decide) (by decide) (by decide)
    (by decide +kernel) t ht
  refine ⟨t, ht, fun h => ?_⟩
  have hfreed := h.freed 1 hlt (fun d hd => hdent d (htree.freshDent d hd) hd)
    fun fid ho => hfid fid (hfids.small fid ho.1) ho
  cases hfreed.symm.trans hlive

end ChCore.Tmpfs
