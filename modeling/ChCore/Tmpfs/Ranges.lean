/-
  File: ChCore/Tmpfs/Ranges.lean
  Subject: The calls that move the pages of a regular file (`user/tmpfs/tmpfs.c`:
    `fs_collapse_range`, `fs_insert_range`).

  What a call leaves is a formula for each page; what it should leave is about the bytes that reads
  see, and for a removed range also about those that show when the file grows.

  * `collapse_range_iff`, `insert_range_iff` -- for which files and ranges a call is right.
-/
import ChCore.Common.Errno
import ChCore.Tmpfs.File

namespace ChCore.Tmpfs

open Lib Function Option List

attribute [local grind =] update_apply

variable {inode : RegInode} {offset len : Nat} {pages : Pages}

/-! ## 1. `fs_collapse_range` -/

/-- The number of pages of the file. -/
def RegInode.nrPages (inode : RegInode) : Nat := (inode.size + PAGE_SIZE - 1) / PAGE_SIZE

theorem nrPages_bounds (inode : RegInode) :
    inode.size ≤ inode.nrPages * 4096 ∧ inode.nrPages * 4096 < inode.size + 4096 := by
  unfold RegInode.nrPages PAGE_SIZE
  omega

/-- `page_no1 + dist`; `dist` is an `int`, the sum is `u64`. -/
def pageNo2 (pageNo1 len : Nat) : Nat :=
  ((pageNo1 + Int.bmod (len / PAGE_SIZE) (2 ^ 32)) % 2 ^ 64).toNat

theorem pageNo2_eq {p : Nat} (hlen : len < 2 ^ 43) (hp : p < 2 ^ 63) :
    pageNo2 p len = p + len / PAGE_SIZE := by
  unfold pageNo2 PAGE_SIZE
  rw [Int.bmod_def]
  omega

/-- The loop of `fs_collapse_range`. -/
def collapseLoop (len : Nat) : Nat → Pages → Nat → Pages
  | 0, pages, _ => pages
  | remain + 1, pages, p =>
    let left := update pages p none
    collapseLoop len remain
      (match pages (pageNo2 p len) with
        | none => left
        | some page => update (update left p (some page)) (pageNo2 p len) none) (p + 1)

def fsCollapseRange (inode : RegInode) (offset len : Nat) : RegInode × Int :=
  if offset % PAGE_SIZE ≠ 0 ∨ len % PAGE_SIZE ≠ 0 then (inode, -EINVAL)
  else if offset + len ≥ inode.size then (inode, -EINVAL)
  else
    (⟨inode.size - len, collapseLoop len ((inode.size + PAGE_SIZE - 1 - (offset + len)) / PAGE_SIZE)
      inode.data (offset / PAGE_SIZE)⟩, 0)

/-- **The pages after `fs_collapse_range`**: a page that is moved leaves a hole, if none follows. -/
theorem collapseLoop_eq {d : Nat} (hd : 0 < d) {n p : Nat}
    (hp : ∀ q < p + n, pageNo2 q len = q + d) (q : Nat) :
    collapseLoop len n pages p q =
      if p ≤ q ∧ q < p + n then pages (q + d)
      else if p + d ≤ q ∧ q < p + n + d then none
      else pages q := by
  induction n generalizing pages p with
  | zero =>
    rw [collapseLoop]
    grind
  | succ n ih =>
    rw [collapseLoop, hp p (by omega)]
    cases hpage : pages (p + d) <;> grind

/-- **What `fs_collapse_range` is for**; what is behind the end shows when the file grows. -/
structure CollapseOk (inode : RegInode) (offset len : Nat) (r : RegInode × Int) : Prop where
  ret : r.2 = 0
  size : r.1.size = inode.size - len
  bytes : ∀ i < r.1.size, byteAt r.1.data i =
    if i < offset then byteAt inode.data i else byteAt inode.data (i + len)
  past : ∀ i, r.1.size ≤ i → byteAt r.1.data i = 0

theorem byteAt_moved {pages' : Pages} {A B : Nat → Prop} [DecidablePred A] [DecidablePred B]
    {g : Nat → Nat}
    (h : ∀ q, pages' q = if A q then pages (g q) else if B q then none else pages q) (i : Nat) :
    byteAt pages' i = if A (i / 4096) then byteAt pages (g (i / 4096) * 4096 + i % 4096)
      else if B (i / 4096) then 0 else byteAt pages i := by
  have hdiv : ∀ q, (q * 4096 + i % 4096) / 4096 = q ∧ (q * 4096 + i % 4096) % 4096 = i % 4096 := by
    omega
  simp only [byteAt, PAGE_SIZE, h, hdiv]
  split_ifs <;> rfl

/-- **When `fs_collapse_range` is right**: the file is zero behind its end, and where the range is
    longer than what is behind it, the pages of the range that are not filled again are zero. -/
theorem collapse_range_iff (hoff : offset % PAGE_SIZE = 0) (hmod : len % PAGE_SIZE = 0)
    (hlen : 0 < len) (hend : offset + len < inode.size) (hsize : inode.size < 2 ^ 63)
    (hdist : len < 2 ^ 43) :
    CollapseOk inode offset len (fsCollapseRange inode offset len) ↔
      (∀ i, inode.size ≤ i → byteAt inode.data i = 0) ∧
      ∀ i, inode.nrPages * PAGE_SIZE - len ≤ i → i < offset + len →
        byteAt inode.data i = 0 := by
  have hN := nrPages_bounds inode
  rw [fsCollapseRange, if_neg (by omega), if_neg (by omega)]
  unfold PAGE_SIZE at *
  have hb := fun i => byteAt_moved (@collapseLoop_eq len inode.data (len / 4096) (by omega)
    ((inode.size + 4096 - 1 - (offset + len)) / 4096) (offset / 4096)
    fun q hq => pageNo2_eq hdist (by omega)) i
  have hto : ∀ i, (i / 4096 + len / 4096) * 4096 + i % 4096 = i + len := by omega
  simp only [hto] at hb
  constructor
  · intro h
    have hpast : ∀ i, inode.size - len ≤ i → _ := fun i hi => (hb i).symm.trans (h.past i hi)
    refine ⟨fun i hi => ?_, fun i h1 h2 => ?_⟩
    · by_cases hlast : i < inode.nrPages * 4096
      · have := hpast (i - len) (by omega)
        rwa [if_pos (by omega), Nat.sub_add_cancel (by omega)] at this
      · have := hpast i (by omega)
        rwa [if_neg (by omega), if_neg (by omega)] at this
    · have := hpast i (by omega)
      rwa [if_neg (by omega), if_neg (by omega)] at this
  rintro ⟨hback, hhole⟩
  refine ⟨rfl, rfl, fun i (hi : i < inode.size - len) => (hb i).trans ?_,
    fun i (hi : inode.size - len ≤ i) => (hb i).trans ?_⟩
  · by_cases hlt : i < offset
    · rw [if_neg (by omega), if_neg (by omega), if_pos hlt]
    · rw [if_pos (by omega), if_neg hlt]
  split_ifs with h1 h2
  · exact hback _ (by omega)
  · rfl
  · by_cases hlt : i < offset + len
    · exact hhole i (by omega) hlt
    · exact hback i (by omega)

/-- A file of `n` pages that are all ones. -/
def onesFile (n : Nat) : RegInode := ⟨4096 * n, fun p => if p < n then some fun _ => 1 else none⟩

theorem collapse_range_page :
    CollapseOk (onesFile 2) 0 4096 (fsCollapseRange (onesFile 2) 0 4096) := by
  refine (collapse_range_iff rfl rfl (by decide) (by decide) (by decide) (by decide)).mpr
    ⟨fun i (hi : 8192 ≤ i) => ?_, fun i (h1 : 4096 ≤ i) h2 => absurd h2 (by omega)⟩
  exact byteAt_of_none (if_neg (by unfold PAGE_SIZE; omega))

/-- Two pages are removed in front of one: the second of them stays behind the new end. -/
theorem collapse_range_stale :
    ¬ CollapseOk (onesFile 3) 0 8192 (fsCollapseRange (onesFile 3) 0 8192) :=
  fun h => absurd (h.past 4096 (by decide)) (by decide)

/-! ## 2. `fs_insert_range` -/

/-- The loop of `fs_insert_range` (`none` = `BUG_ON`, or more than `fuel` rounds); `page_no1` is
    `u64`. -/
def insertLoop (first len : Nat) : Nat → Pages → Nat → Option Pages
  | 0, _, _ => none
  | fuel + 1, pages, p =>
    if first ≤ p then
      if (pages (pageNo2 p len)).isSome then none
      else
        insertLoop first len fuel
          (match pages p with
            | none => pages
            | some page => update (update pages p none) (pageNo2 p len) (some page))
          ((p + (2 ^ 64 - 1)) % 2 ^ 64)
    else some pages

def fsInsertRange (fuel : Nat) (inode : RegInode) (offset len : Nat) : Option (RegInode × Int) :=
  if offset % PAGE_SIZE ≠ 0 ∨ len % PAGE_SIZE ≠ 0 then some (inode, -EINVAL)
  else if offset ≥ inode.size then some (inode, -EINVAL)
  else
    (insertLoop (offset / PAGE_SIZE) len fuel inode.data
      inode.nrPages).map fun pages => (⟨inode.size + len, pages⟩, 0)

/-- An unsigned number is never below 0. -/
theorem insertLoop_zero (fuel : Nat) (pages : Pages) (p : Nat) :
    insertLoop 0 len fuel pages p = none := by
  induction fuel generalizing pages p with
  | zero => rfl
  | succ fuel ih =>
    rw [insertLoop, if_pos (Nat.zero_le p)]
    split
    · rfl
    · exact ih _ _

/-- No page is where `fs_insert_range` moves another one to. -/
def WayFree (pages : Pages) (first d p : Nat) : Prop :=
  ∀ q, first + d ≤ q → p < q → q ≤ p + d → pages q = none

/-- **The pages after `fs_insert_range`**; it ends if the way is free. -/
theorem insertLoop_spec {first d : Nat} (hfirst : 0 < first) (hd : 0 < d) {n p fuel : Nat}
    (hp : ∀ q ≤ p, pageNo2 q len = q + d) (hlt : p < 2 ^ 63) (hn : p + 1 = first + n) :
    (∀ pages', insertLoop first len fuel pages p = some pages' → WayFree pages first d p ∧
      ∀ q, pages' q =
        if first + d ≤ q ∧ q ≤ p + d then pages (q - d)
        else if first ≤ q ∧ q ≤ p then none
        else pages q) ∧
    (WayFree pages first d p → n < fuel →
      ∃ pages', insertLoop first len fuel pages p = some pages') := by
  unfold WayFree
  induction n generalizing pages p fuel with
  | zero =>
    cases fuel with
    | zero => exact ⟨nofun, by omega⟩
    | succ fuel =>
    rw [insertLoop, if_neg (by omega)]
    exact ⟨fun _ h => by cases h; exact ⟨by omega, by grind⟩, fun _ _ => ⟨_, rfl⟩⟩
  | succ n ih =>
    cases fuel with
    | zero => exact ⟨nofun, by omega⟩
    | succ fuel =>
    obtain ⟨r, rfl⟩ : ∃ r, p = r + 1 := ⟨p - 1, by omega⟩
    have hprev : (r + 1 + (2 ^ 64 - 1)) % 2 ^ 64 = r := by omega
    rw [insertLoop, if_pos (by omega), hp _ le_rfl, hprev]
    cases hway : pages (r + 1 + d) with
    | some page => exact ⟨nofun, fun h => by grind⟩
    | none =>
    -- the page of this round, and the one it is moved to
    obtain ⟨moved, hm, hfrom, hto, hsame⟩ : ∃ moved : Pages, (match pages (r + 1) with
        | none => pages
        | some page => update (update pages (r + 1) none) (r + 1 + d) (some page)) = moved ∧
        moved (r + 1) = none ∧ moved (r + 1 + d) = pages (r + 1) ∧
        ∀ q, q ≠ r + 1 → q ≠ r + 1 + d → moved q = pages q := by
      cases hpage : pages (r + 1) <;> exact ⟨_, rfl, by grind, by grind, by grind⟩
    rw [hm]
    obtain ⟨hdone, hends⟩ := @ih moved r fuel (fun q hq => hp q (by omega)) (by omega) (by omega)
    refine ⟨fun pages' h => ?_, fun h hf => hends (by grind) (by omega)⟩
    obtain ⟨hfree, hq⟩ := hdone pages' h
    refine ⟨by grind, fun q => ?_⟩
    rw [hq]
    by_cases h1 : q = r + 1 + d
    · rw [h1, if_neg (by omega), if_neg (by omega), if_pos (by omega), hto, Nat.add_sub_cancel]
    · clear ih hp hdone hends hfree
      grind

/-- **What `fs_insert_range` is for.** -/
structure InsertOk (inode : RegInode) (offset len : Nat) (r : RegInode × Int) : Prop where
  ret : r.2 = 0
  size : r.1.size = inode.size + len
  bytes : ∀ i < r.1.size, byteAt r.1.data i =
    if i < offset then byteAt inode.data i
    else if i < offset + len then 0
    else byteAt inode.data (i - len)

/-- **When `fs_insert_range` is right**: not at the start of a file, and not when there are pages
    behind its end that stand in the way or show in the range. -/
theorem insert_range_iff (hoff : offset % PAGE_SIZE = 0) (hmod : len % PAGE_SIZE = 0)
    (hlen : 0 < len) (hend : offset < inode.size) (hsize : inode.size < 2 ^ 63)
    (hdist : len < 2 ^ 43) :
    (∃ fuel r, fsInsertRange fuel inode offset len = some r ∧ InsertOk inode offset len r) ↔
      0 < offset ∧
      WayFree inode.data (offset / PAGE_SIZE) (len / PAGE_SIZE)
        inode.nrPages ∧
      ∀ i, (inode.nrPages + 1) * PAGE_SIZE ≤ i → i < offset + len →
        byteAt inode.data i = 0 := by
  have hN := nrPages_bounds inode
  simp only [fsInsertRange, if_neg (by omega : ¬ (offset % PAGE_SIZE ≠ 0 ∨ len % PAGE_SIZE ≠ 0)),
    if_neg (not_le.mpr hend)]
  by_cases h0 : offset = 0
  · simp [h0, insertLoop_zero]
  unfold PAGE_SIZE at *
  have hspec : ∀ fuel, _ := fun fuel => @insertLoop_spec len inode.data (offset / 4096)
    (len / 4096) (by omega) (by omega) (inode.nrPages + 1 - offset / 4096) inode.nrPages fuel
    (fun q hq => pageNo2_eq hdist (by omega)) (by omega) (by omega)
  have hto : ∀ i, len ≤ i → (i / 4096 - len / 4096) * 4096 + i % 4096 = i - len := by omega
  constructor
  · rintro ⟨fuel, r, hr, hok⟩
    obtain ⟨pages', h, rfl⟩ := map_eq_some_iff.mp hr
    obtain ⟨hfree, hq⟩ := (hspec fuel).1 pages' h
    refine ⟨by omega, hfree, fun i h1 h2 => ?_⟩
    have := (byteAt_moved hq i).symm.trans (hok.bytes i (by show i < inode.size + len; omega))
    rwa [if_neg (by omega), if_neg (by omega), if_neg (by omega), if_pos h2] at this
  rintro ⟨_, hfree, hshow⟩
  obtain ⟨pages', h⟩ := (hspec _).2 hfree (Nat.lt_succ_self _)
  refine ⟨_, _, by rw [h]; rfl, rfl, rfl, fun i (hi : i < inode.size + len) =>
    (byteAt_moved ((hspec _).1 pages' h).2 i).trans ?_⟩
  by_cases hlt : i < offset
  · rw [if_neg (by omega), if_neg (by omega), if_pos hlt]
  by_cases hin : i < offset + len
  · rw [if_pos hin, if_neg (by omega)]
    split_ifs
    · rfl
    · exact hshow i (by omega) hin
  · rw [if_pos (by omega), if_neg hlt, if_neg hin, hto i (by omega)]

theorem insert_range_page : ∃ fuel r,
    fsInsertRange fuel ⟨8192, fun p => if p < 2 then some fun _ => 1 else none⟩ 4096 4096 = some r ∧
      InsertOk ⟨8192, fun p => if p < 2 then some fun _ => 1 else none⟩ 4096 4096 r := by
  refine (insert_range_iff rfl rfl (by decide) (by decide) (by decide) (by decide)).mpr
    ⟨by decide, fun q _ (h : 2 < q) _ => if_neg (by omega), fun i (h1 : 12288 ≤ i) h2 => ?_⟩
  exact absurd h2 (by omega)

/-- At the start of a file the loop does not end, and a page that was allocated behind the end of
    the file stops the server. -/
theorem insert_range_wrong :
    (∀ fuel, fsInsertRange fuel ⟨8192, fun _ => none⟩ 0 4096 = none) ∧
    ∀ fuel, fsInsertRange fuel ⟨8192, fun p => if p = 3 then some fun _ => 0 else none⟩ 4096 4096 =
      none := by
  refine ⟨fun fuel => ?_, fun fuel => ?_⟩
  · simp [fsInsertRange, insertLoop_zero, PAGE_SIZE]
  · cases fuel <;> rfl

end ChCore.Tmpfs
