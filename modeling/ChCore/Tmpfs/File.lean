/-
  File: ChCore/Tmpfs/File.lean
  Subject: The contents of a regular tmpfs file (user/tmpfs/util.c: tfs_file_write,
    tfs_file_read, tfs_truncate).

  A file is a size and a sparse table of pages. What it is for is one sequence of bytes; the
  sequence is carried along a run and the pages are compared with it.

  * `file_run` -- on a run whose writes and shrinks meet `CallOk` the file is the sequence;
  * `file_run_stale` -- runs on which it is not.
-/
import ChCore.Lib.Run
import ChCore.Lib.Bytes

namespace ChCore.Tmpfs

open Lib Function Option List Nat

/-! ## 1. The inode -/

def PAGE_SIZE : Nat := 0x1000

abbrev Page := Nat → UInt8

/-- The radix tree of an inode. Its 8 levels of 9 bits cover every page number. -/
abbrev Pages := Nat → Option Page

/-- The part of `struct inode` that a regular file uses. -/
structure RegInode where
  size : Nat
  data : Pages

/-- `new_reg`. -/
def RegInode.new : RegInode := ⟨0, fun _ => none⟩

/-- How many of `size` bytes at `curOff` lie in the page of `curOff`. -/
def toCopy (curOff size : Nat) : Nat := min size (PAGE_SIZE - curOff % PAGE_SIZE)

/-! ## 2. Writing -/

/-- The variables of the loop of `tfs_file_write`; `page` is the number of the page it has used
    last. -/
structure WriteVars where
  data : Pages
  curOff : Nat
  page : Option Nat

/-- One round of the loop: the page is allocated if it is missing (`aligned_alloc`: its bytes are
    `fresh`), and gets as many bytes as fit. -/
def writeRound (fresh : Nat → Page) (w : WriteVars) (data : List UInt8) : WriteVars :=
  let pageNo := w.curOff / PAGE_SIZE
  let pageOff := w.curOff % PAGE_SIZE
  let page := (w.data pageNo).getD (fresh pageNo)
  let toWrite := toCopy w.curOff data.length
  { data := update w.data pageNo (some (patch page pageOff (data.take toWrite)))
    curOff := w.curOff + toWrite
    page := some pageNo }

/-- The loop. Each round writes at least one byte, so `data.length` rounds are enough. -/
def writeLoop (fresh : Nat → Page) : Nat → WriteVars → List UInt8 → WriteVars
  | 0, w, _ => w
  | fuel + 1, w, data =>
    if data.length = 0 then w
    else
      writeLoop fresh fuel (writeRound fresh w data) (data.drop (toCopy w.curOff data.length))

/-- The variables when the loop has written all of `data` at `offset`. -/
def written (fresh : Nat → Page) (pages : Pages) (offset : Nat) (data : List UInt8) : WriteVars :=
  writeLoop fresh data.length ⟨pages, offset, none⟩ data

/-- `memset(page + pageOff, 0, n)` in the tree. -/
def zeroTail (pages : Pages) (pageNo pageOff n : Nat) : Pages :=
  update pages pageNo ((pages pageNo).map (patch · pageOff (List.replicate n 0)))

/-- `tfs_file_write`: the inode afterwards and the number of bytes written. `none` is the
    `BUG_ON` of an offset past the end. -/
def tfsFileWrite (fresh : Nat → Page) (inode : RegInode) (offset : Nat) (data : List UInt8) :
    Option (RegInode × Nat) :=
  if offset > inode.size then none
  else
    let w := written fresh inode.data offset data
    let inode' : RegInode :=
      if w.curOff > inode.size then
        match w.page with
        | some pageNo =>
          if w.curOff % PAGE_SIZE ≠ 0 then
            let pageOff := w.curOff % PAGE_SIZE
            ⟨w.curOff, zeroTail w.data pageNo pageOff (PAGE_SIZE - pageOff)⟩
          else ⟨w.curOff, w.data⟩
        | none => ⟨w.curOff, w.data⟩
      else ⟨inode.size, w.data⟩
    some (inode', w.curOff - offset)

/-! ## 3. Reading -/

/-- What one round of the loop of `tfs_file_read` copies: a missing page reads as zeros. -/
def readPage (pages : Pages) (curOff toRead : Nat) : List UInt8 :=
  match pages (curOff / PAGE_SIZE) with
  | none => List.replicate toRead 0
  | some page => slice page (curOff % PAGE_SIZE) toRead

/-- The loop of `tfs_file_read`. -/
def readLoop (inode : RegInode) : Nat → Nat → Nat → List UInt8
  | 0, _, _ => []
  | fuel + 1, curOff, size =>
    if size > 0 ∧ curOff ≤ inode.size then
      readPage inode.data curOff (toCopy curOff size) ++
        readLoop inode fuel (curOff + toCopy curOff size) (size - toCopy curOff size)
    else []

variable (inode : RegInode)

/-- `tfs_file_read`: the bytes copied to the buffer; the number of them is returned. -/
def tfsFileRead (offset size : Nat) : List UInt8 :=
  if offset ≥ inode.size then []
  else
    let size := min (inode.size - offset) size
    readLoop inode size offset size

/-! ## 4. Truncating -/

/-- The loop of `tfs_truncate` that deletes pages. It moves on by a whole page from wherever in
    a page it has started. -/
def truncLoop (size : Nat) : Nat → Pages → Nat → Pages
  | 0, pages, _ => pages
  | fuel + 1, pages, curOff =>
    if curOff < size then
      truncLoop size fuel (update pages (curOff / PAGE_SIZE) none) (curOff + PAGE_SIZE)
    else pages

def tfsTruncate (size : Nat) : RegInode :=
  if size = 0 then ⟨0, fun _ => none⟩
  else if size > inode.size then ⟨size, inode.data⟩
  else if size < inode.size then
    let pageNo := size / PAGE_SIZE
    let pageOff := size % PAGE_SIZE
    -- the rest of the new last page is cleared, if there is such a page
    if pageOff ≠ 0 ∧ (inode.data pageNo).isSome then
      let toWrite := min (inode.size - size) (PAGE_SIZE - pageOff)
      let data := zeroTail inode.data pageNo pageOff toWrite
      ⟨size, truncLoop inode.size inode.size data (size + toWrite)⟩
    else ⟨size, truncLoop inode.size inode.size inode.data size⟩
  else inode

/-! ## 5. Runs -/

/-- A call on the file; a write carries what the allocator's pages contain. -/
inductive FileCall where
  | write (offset : Nat) (data : List UInt8) (fresh : Nat → Page)
  | read (offset size : Nat)
  | truncate (size : Nat)

/-- **The byte sequence**: what each call means. -/
def FileCall.apply (content : List UInt8) : FileCall → List UInt8
  | .write offset data _ => splice content offset data
  | .read _ _ => content
  | .truncate size => content.take size ++ List.replicate (size - content.length) 0

/-- The inode, and the byte sequence it stands for. -/
structure FileState where
  inode : RegInode
  content : List UInt8

def FileState.init : FileState := ⟨.new, []⟩

/-- Offsets are `off_t`: what lies past `2^63` is no offset, and `fs_ftruncate` refuses it. -/
def fileStep (s : FileState) (c : FileCall) : Option FileState :=
  match c with
  | .write offset data fresh =>
    if offset + data.length < 2 ^ 63 then
      (tfsFileWrite fresh s.inode offset data).map fun r => ⟨r.1, c.apply s.content⟩
    else none
  | .read _ _ => some s
  | .truncate size =>
    if size < 2 ^ 63 then some ⟨tfsTruncate s.inode size, c.apply s.content⟩ else none

/-- **The inode behaves as the sequence**: it has its length, and every read returns the bytes of
    it that are there. -/
def Refines (s : FileState) : Prop :=
  s.inode.size = s.content.length ∧
    ∀ offset size, tfsFileRead s.inode offset size = (s.content.drop offset).take size

/-! ## 6. Bytes of the page table -/

/-- The byte of the file at `i`, as a read sees it. -/
def byteAt (pages : Pages) (i : Nat) : UInt8 :=
  match pages (i / PAGE_SIZE) with
  | none => 0
  | some page => page (i % PAGE_SIZE)

/-- The byte at `i`, where a missing page is the one the allocator would give. -/
def byteOr (fresh : Nat → Page) (pages : Pages) (i : Nat) : UInt8 :=
  ((pages (i / PAGE_SIZE)).getD (fresh (i / PAGE_SIZE))) (i % PAGE_SIZE)

variable {fresh : Nat → Page} {pages : Pages} {i : Nat}

theorem byteAt_of_none (h : pages (i / PAGE_SIZE) = none) : byteAt pages i = 0 := by
  rw [byteAt, h]

theorem byteAt_of_isSome (h : (pages (i / PAGE_SIZE)).isSome) (fresh : Nat → Page) :
    byteAt pages i = byteOr fresh pages i := by
  obtain ⟨page, hp⟩ := isSome_iff_exists.mp h
  simp [byteAt, byteOr, hp]

theorem byteAt_congr {pages' : Pages} (h : pages' (i / PAGE_SIZE) = pages (i / PAGE_SIZE)) :
    byteAt pages' i = byteAt pages i := by
  rw [byteAt, byteAt, h]

/-- A copy into one page that does not leave it is a copy into the file. -/
theorem byteOr_update_patch (fresh : Nat → Page) (pages : Pages) (cur : Nat) (l : List UInt8)
    (hl : cur % PAGE_SIZE + l.length ≤ PAGE_SIZE) (page : Page)
    (hpage : page = (pages (cur / PAGE_SIZE)).getD (fresh (cur / PAGE_SIZE))) :
    byteOr fresh
        (update pages (cur / PAGE_SIZE) (some (patch page (cur % PAGE_SIZE) l))) =
      patch (byteOr fresh pages) cur l := by
  funext i
  have hsame : i / PAGE_SIZE = cur / PAGE_SIZE → page (i % PAGE_SIZE) = byteOr fresh pages i := by
    intro he
    rw [hpage, byteOr, he]
  unfold PAGE_SIZE at *
  rw [byteOr]
  by_cases he : i / 4096 = cur / 4096
  · rw [PAGE_SIZE, he, update_self, getD_some]
    by_cases h1 : i < cur
    · rw [patch_of_lt _ h1, patch_of_lt _ (by omega), hsame he]
    by_cases h2 : i < cur + l.length
    · rw [patch_inside (by omega) h2 0, patch_inside (by omega) (by omega) 0]
      congr 1
      omega
    · rw [patch_of_ge (by omega), patch_of_ge (by omega), hsame he]
  rw [PAGE_SIZE, update_of_ne he]
  by_cases h1 : i < cur
  · rw [patch_of_lt _ h1]
    rfl
  · rw [patch_of_ge (by omega)]
    rfl

theorem byteAt_zeroTail (pages : Pages) (cur n : Nat) (hn : cur % PAGE_SIZE + n ≤ PAGE_SIZE)
    (i : Nat) :
    byteAt (zeroTail pages (cur / PAGE_SIZE) (cur % PAGE_SIZE) n) i =
      if cur ≤ i ∧ i < cur + n then 0 else byteAt pages i := by
  unfold PAGE_SIZE at *
  by_cases he : i / 4096 = cur / 4096
  · cases hp : pages (cur / 4096) with
    | none => simp [byteAt, PAGE_SIZE, zeroTail, he, hp]
    | some page =>
    simp only [byteAt, PAGE_SIZE, zeroTail, he, hp, update_self, map_some]
    split
    · rw [patch_inside (by omega) (by rw [length_replicate]; omega) 0]
      exact getD_replicate _ (by omega)
    · by_cases h1 : i < cur
      · exact patch_of_lt _ (by omega)
      · exact patch_of_ge (by rw [length_replicate]; omega)
  · rw [if_neg (by omega)]
    exact byteAt_congr (update_of_ne he _ _)

/-! ## 7. The loops -/

theorem toCopy_le (curOff size : Nat) : toCopy curOff size ≤ size := min_le_left _ _

theorem toCopy_fits (curOff size : Nat) : curOff % PAGE_SIZE + toCopy curOff size ≤ PAGE_SIZE := by
  have hoff : curOff % PAGE_SIZE < PAGE_SIZE := mod_lt _ (by decide)
  unfold toCopy
  omega

variable {size : Nat} {s : FileState}

theorem toCopy_pos (curOff : Nat) (h : size ≠ 0) : 0 < toCopy curOff size := by
  have hoff : curOff % PAGE_SIZE < PAGE_SIZE := mod_lt _ (by decide)
  unfold toCopy
  omega

theorem writeRound_byteOr (fresh : Nat → Page) (w : WriteVars) (data : List UInt8) :
    byteOr fresh (writeRound fresh w data).data =
      patch (byteOr fresh w.data) w.curOff (data.take (toCopy w.curOff data.length)) := by
  refine byteOr_update_patch fresh w.data w.curOff _ ?_ _ rfl
  rw [length_take, Nat.min_eq_left (toCopy_le _ _)]
  exact toCopy_fits _ _

/-- **The rule of the write loop**: what holds before it and is kept by every round holds after
    it, with the data written off. -/
theorem writeLoop_rule (fresh : Nat → Page) {P : WriteVars → List UInt8 → Prop}
    (hround : ∀ w data, data.length ≠ 0 → P w data →
      P (writeRound fresh w data) (data.drop (toCopy w.curOff data.length)))
    (fuel : Nat) (w : WriteVars) (data : List UInt8) (hfuel : data.length ≤ fuel) (h : P w data) :
    P (writeLoop fresh fuel w data) [] := by
  induction fuel generalizing w data with
  | zero =>
    obtain rfl := length_eq_zero_iff.mp (le_zero.mp hfuel)
    exact h
  | succ fuel ih =>
    rw [writeLoop]
    split
    next h0 =>
      obtain rfl := length_eq_zero_iff.mp h0
      exact h
    next h0 =>
      refine ih _ _ ?_ (hround w data h0 h)
      have hpos := toCopy_pos w.curOff h0
      rw [length_drop]
      omega

section WriteLoop

variable (fresh) (pages) (offset : Nat) (data : List UInt8)

/-- **What the write loop writes**: the data from the offset on, and nothing else. -/
theorem written_byteOr :
    byteOr fresh (written fresh pages offset data).data =
      patch (byteOr fresh pages) offset data := by
  have h := writeLoop_rule fresh
    (P := fun w d => patch (byteOr fresh w.data) w.curOff d = patch (byteOr fresh pages) offset data)
    ?_ data.length ⟨pages, offset, none⟩ data le_rfl rfl
  · rw [patch_nil] at h
    exact h
  intro w d h0 hw
  have hlen : (d.take (toCopy w.curOff d.length)).length = toCopy w.curOff d.length := by
    rw [length_take, Nat.min_eq_left (toCopy_le _ _)]
  have hcur : (writeRound fresh w d).curOff =
      w.curOff + (d.take (toCopy w.curOff d.length)).length := by rw [hlen]; rfl
  rw [writeRound_byteOr, hcur, patch_append, take_append_drop]
  exact hw

theorem written_curOff : (written fresh pages offset data).curOff = offset + data.length := by
  refine writeLoop_rule fresh (P := fun w d => w.curOff + d.length = offset + data.length) ?_
    data.length ⟨pages, offset, none⟩ data le_rfl rfl
  intro w d h0 hw
  have hle := toCopy_le w.curOff d.length
  show w.curOff + toCopy w.curOff d.length + _ = _
  rw [length_drop]
  omega

/-- Of the pages that the write touches, the last is the one the loop ends with. -/
theorem written_page (h : data.length ≠ 0) :
    (written fresh pages offset data).page = some ((offset + data.length - 1) / PAGE_SIZE) := by
  have hrun := writeLoop_rule fresh
    (P := fun w d => w.curOff + d.length = offset + data.length ∧
      (d.length = 0 → w.page = some ((offset + data.length - 1) / PAGE_SIZE)))
    ?_ data.length ⟨pages, offset, none⟩ data le_rfl ⟨rfl, fun h' => absurd h' h⟩
  · exact hrun.2 rfl
  intro w d h0 hw
  have hle := toCopy_le w.curOff d.length
  have hfits := toCopy_fits w.curOff d.length
  refine ⟨?_, fun hd => ?_⟩
  · show w.curOff + toCopy w.curOff d.length + _ = _
    rw [length_drop]
    omega
  rw [length_drop] at hd
  show some (w.curOff / PAGE_SIZE) = _
  unfold PAGE_SIZE at *
  congr 1
  omega

/-- The pages that are there after the loop: the old ones and those the write touches. -/
theorem written_isSome (p : Nat) :
    ((written fresh pages offset data).data p).isSome ↔
      (pages p).isSome ∨
        data.length ≠ 0 ∧ offset / PAGE_SIZE ≤ p ∧ p * PAGE_SIZE < offset + data.length := by
  have hrun := writeLoop_rule fresh
    (P := fun w d => w.curOff + d.length = offset + data.length ∧
      ((w.data p).isSome ∨
          d.length ≠ 0 ∧ w.curOff / PAGE_SIZE ≤ p ∧ p * PAGE_SIZE < offset + data.length ↔
        (pages p).isSome ∨
          data.length ≠ 0 ∧ offset / PAGE_SIZE ≤ p ∧ p * PAGE_SIZE < offset + data.length))
    ?_ data.length ⟨pages, offset, none⟩ data le_rfl ⟨rfl, Iff.rfl⟩
  · have hend := hrun.2
    simp only [length_nil, ne_eq, not_true_eq_false, false_and, or_false] at hend
    exact hend
  intro w d h0 hw
  have hle := toCopy_le w.curOff d.length
  have hfits := toCopy_fits w.curOff d.length
  have hcur : (writeRound fresh w d).curOff = w.curOff + toCopy w.curOff d.length := rfl
  have hchunk : toCopy w.curOff d.length = d.length ∨
      w.curOff % PAGE_SIZE + toCopy w.curOff d.length = PAGE_SIZE := by
    unfold toCopy
    omega
  refine ⟨by rw [length_drop]; omega, Iff.trans ?_ hw.2⟩
  rw [hcur, length_drop]
  by_cases hp : p = w.curOff / PAGE_SIZE
  · have hthere : ((writeRound fresh w d).data p).isSome := by
      rw [hp]
      simp [writeRound]
    unfold PAGE_SIZE at *
    exact iff_of_true (.inl hthere) (.inr (by omega))
  · have hsame : (writeRound fresh w d).data p = w.data p := update_of_ne hp _ _
    rw [hsame]
    unfold PAGE_SIZE at *
    refine or_congr_right ?_
    omega

end WriteLoop

/-- **What the delete loop deletes.** Started in the middle of a page it may end before it gets
    to the last one. -/
theorem truncLoop_eq (size fuel : Nat) (pages : Pages) (curOff : Nat) (h : size ≤ curOff + fuel)
    (p : Nat) :
    truncLoop size fuel pages curOff p =
      if curOff / PAGE_SIZE ≤ p ∧ curOff % PAGE_SIZE + p * PAGE_SIZE < size then none
      else pages p := by
  unfold PAGE_SIZE
  induction fuel generalizing pages curOff with
  | zero =>
    rw [truncLoop, if_neg (by omega)]
  | succ fuel ih =>
    rw [truncLoop]
    split
    next hlt =>
      unfold PAGE_SIZE
      rw [ih _ _ (by omega)]
      by_cases hp : p = curOff / 4096
      · rw [hp, update_self, if_pos (by omega : curOff / 4096 ≤ curOff / 4096 ∧ _)]
        split <;> rfl
      · rw [update_of_ne hp]
        refine if_congr ?_ rfl rfl
        omega
    next hge =>
      rw [if_neg (by omega)]

theorem readPage_eq (pages : Pages) (curOff n : Nat) (h : curOff % PAGE_SIZE + n ≤ PAGE_SIZE) :
    readPage pages curOff n = slice (byteAt pages) curOff n := by
  have hpage : ∀ k < n, (curOff + k) / PAGE_SIZE = curOff / PAGE_SIZE ∧
      (curOff + k) % PAGE_SIZE = curOff % PAGE_SIZE + k := by
    unfold PAGE_SIZE at *
    omega
  rw [readPage]
  cases hp : pages (curOff / PAGE_SIZE) with
  | none =>
    rw [← length_range (n := n), ← map_const', length_range]
    refine map_congr_left fun k hk => ?_
    exact (byteAt_of_none (by rw [(hpage k (mem_range.mp hk)).1, hp])).symm
  | some page =>
    refine map_congr_left fun k hk => ?_
    obtain ⟨hdiv, hmod⟩ := hpage k (mem_range.mp hk)
    rw [byteAt, hdiv, hmod, hp]

/-- **What the read loop copies**: the bytes of the file, page by page. -/
theorem readLoop_eq (fuel curOff size : Nat) (hfuel : size ≤ fuel)
    (h : curOff + size ≤ inode.size) :
    readLoop inode fuel curOff size = slice (byteAt inode.data) curOff size := by
  induction fuel generalizing curOff size with
  | zero =>
    obtain rfl := le_zero.mp hfuel
    rfl
  | succ fuel ih =>
    rw [readLoop]
    split
    next hpos =>
      have hle := toCopy_le curOff size
      have hcopy := toCopy_pos curOff (Nat.ne_of_gt hpos.1)
      rw [readPage_eq _ _ _ (toCopy_fits _ _), ih _ _ (by omega) (by omega), ← slice_add]
      congr 1
      omega
    next h0 =>
      obtain rfl : size = 0 := by omega
      rfl

/-! ## 8. The invariant -/

/-- Every byte that a read can see, now or after the file has grown, is that of the sequence,
    and zero past its end. -/
structure FileInv (s : FileState) : Prop where
  size : s.inode.size = s.content.length
  bytes : ∀ i, byteAt s.inode.data i = s.content.getD i 0

theorem fileInv_init : FileInv .init := ⟨rfl, fun _ => rfl⟩

theorem FileInv.refines (h : FileInv s) : Refines s := by
  refine ⟨h.size, fun offset size => ?_⟩
  rw [tfsFileRead]
  split
  next hge =>
    rw [drop_eq_nil_of_le (h.size ▸ hge), take_nil]
  next hlt =>
    have hsize := h.size
    rw [readLoop_eq _ _ _ _ le_rfl (by omega),
      slice_congr (fun i _ _ => h.bytes i), slice_getD _ _ _ _ (by omega)]
    refine take_eq_take_iff.mpr ?_
    rw [length_drop]
    omega

theorem FileInv.past (h : FileInv s) {i : Nat} (hi : s.inode.size ≤ i) :
    byteAt s.inode.data i = 0 := by
  rw [h.bytes, getD_eq_default _ _ (h.size ▸ hi)]

/-! ## 9. One call -/

/-- What the run has to keep to:
    * a write that does not start on a page boundary finds the page it starts in, and one that
      does not end on a boundary finds the page it ends in or goes past the end of the file;
    * a shrink to the middle of a page finds that page, or the file's last page is missing or
      reaches further than the offset in the new last one. -/
def CallOk (s : FileState) : FileCall → Prop
  | .write offset data _ =>
    data.length ≠ 0 →
      (offset % PAGE_SIZE = 0 ∨ (s.inode.data (offset / PAGE_SIZE)).isSome) ∧
        ((offset + data.length) % PAGE_SIZE = 0 ∨
          (s.inode.data ((offset + data.length - 1) / PAGE_SIZE)).isSome ∨
          s.inode.size < offset + data.length)
  | .read _ _ => True
  | .truncate size =>
    0 < size → size < s.inode.size →
      size % PAGE_SIZE = 0 ∨ (s.inode.data (size / PAGE_SIZE)).isSome ∨
        (s.inode.data ((s.inode.size - 1) / PAGE_SIZE)).isNone ∨
        size % PAGE_SIZE + (s.inode.size - 1) / PAGE_SIZE * PAGE_SIZE < s.inode.size

instance (s : FileState) : DecidablePred (CallOk s) := by
  intro a
  cases a <;> unfold CallOk <;> infer_instance

/-- The bytes outside a write, before the tail of the last page is cleared: only in a page that
    the write has allocated they are not what they were. -/
theorem byteAt_written (fresh : Nat → Page) (pages : Pages) (offset : Nat) (data : List UInt8)
    (i : Nat) :
    byteAt (written fresh pages offset data).data i =
      if offset ≤ i ∧ i < offset + data.length then data.getD (i - offset) 0
      else if (pages (i / PAGE_SIZE)).isNone ∧ data.length ≠ 0 ∧
          offset / PAGE_SIZE ≤ i / PAGE_SIZE ∧
          i / PAGE_SIZE * PAGE_SIZE < offset + data.length then
        fresh (i / PAGE_SIZE) (i % PAGE_SIZE)
      else byteAt pages i := by
  have hthere := written_isSome fresh pages offset data (i / PAGE_SIZE)
  have hbyte := congrFun (written_byteOr fresh pages offset data) i
  by_cases hin : offset ≤ i ∧ i < offset + data.length
  · rw [if_pos hin, byteAt_of_isSome (hthere.mpr (.inr ?_)) fresh, hbyte,
      patch_inside hin.1 hin.2 0]
    unfold PAGE_SIZE
    omega
  rw [if_neg hin]
  have hout : patch (byteOr fresh pages) offset data i = byteOr fresh pages i := by
    by_cases hlt : i < offset
    · exact patch_of_lt _ hlt
    · exact patch_of_ge (by omega)
  cases hp : pages (i / PAGE_SIZE) with
  | none =>
    by_cases htouch : data.length ≠ 0 ∧ offset / PAGE_SIZE ≤ i / PAGE_SIZE ∧
        i / PAGE_SIZE * PAGE_SIZE < offset + data.length
    · rw [if_pos ⟨rfl, htouch⟩, byteAt_of_isSome (hthere.mpr (.inr htouch)) fresh, hbyte, hout,
        byteOr, hp, getD_none]
    rw [if_neg fun h => htouch h.2, byteAt_of_none hp]
    refine byteAt_of_none (not_isSome_iff_eq_none.mp ?_)
    rw [hthere, hp]
    simpa using htouch
  | some page =>
    have hs : (pages (i / PAGE_SIZE)).isSome := by rw [hp]; rfl
    rw [if_neg fun h => by simp at h, byteAt_of_isSome (hthere.mpr (.inl hs)) fresh, hbyte, hout,
      ← byteAt_of_isSome hs]

/-- **A write**: its size, and its bytes. The tail of the last page is cleared only if the file
    has grown. -/
theorem tfsFileWrite_spec {inode : RegInode} {offset : Nat} {data : List UInt8}
    {r : RegInode × Nat} (h : tfsFileWrite fresh inode offset data = some r) :
    offset ≤ inode.size ∧ r.2 = data.length ∧ r.1.size = max inode.size (offset + data.length) ∧
      ∀ i, byteAt r.1.data i =
        if inode.size < offset + data.length ∧ offset + data.length ≤ i ∧
            i / PAGE_SIZE = (offset + data.length - 1) / PAGE_SIZE then 0
        else byteAt (written fresh inode.data offset data).data i := by
  obtain ⟨hoff, hr⟩ := ite_none_left_eq_some.mp h
  obtain rfl := some.inj hr
  have hcur := written_curOff fresh inode.data offset data
  refine ⟨by omega, by simp only [hcur]; omega, ?_⟩
  simp only [hcur]
  by_cases hgrow : offset + data.length > inode.size
  · rw [if_pos hgrow, written_page _ _ _ _ (by omega)]
    simp only
    by_cases hmod : (offset + data.length) % PAGE_SIZE = 0
    · rw [if_neg (not_not.mpr hmod)]
      refine ⟨by simp only; omega, fun i => ?_⟩
      rw [if_neg]
      unfold PAGE_SIZE at *
      omega
    rw [if_pos hmod]
    refine ⟨by simp only; omega, fun i => ?_⟩
    have hpage : (offset + data.length - 1) / PAGE_SIZE = (offset + data.length) / PAGE_SIZE := by
      unfold PAGE_SIZE at *
      omega
    simp only [hpage]
    rw [byteAt_zeroTail _ _ _ (by unfold PAGE_SIZE; omega)]
    refine if_congr ?_ rfl rfl
    unfold PAGE_SIZE at *
    omega
  · rw [if_neg hgrow]
    refine ⟨by simp only; omega, fun i => ?_⟩
    rw [if_neg (by omega)]

theorem FileInv.write {s : FileState} (h : FileInv s) {offset : Nat} {data : List UInt8}
    {r : RegInode × Nat} (hok : CallOk s (.write offset data fresh))
    (hw : tfsFileWrite fresh s.inode offset data = some r) :
    FileInv ⟨r.1, splice s.content offset data⟩ := by
  obtain ⟨hoff, -, hsize, hbytes⟩ := tfsFileWrite_spec hw
  have hlen : offset ≤ s.content.length := h.size ▸ hoff
  refine ⟨?_, fun i => ?_⟩
  · rw [length_splice _ hlen, ← h.size]
    exact hsize
  rw [hbytes, byteAt_written, getD_splice _ _ hlen]
  by_cases hin : offset ≤ i ∧ i < offset + data.length
  · rw [if_neg (by omega), if_pos hin, patch_inside hin.1 hin.2 0]
  -- outside the write the sequence keeps its byte
  have hout : patch (fun j => s.content.getD j 0) offset data i = byteAt s.inode.data i := by
    rw [h.bytes]
    by_cases hlt : i < offset
    · exact patch_of_lt _ hlt
    · exact patch_of_ge (by omega)
  rw [hout]
  split
  next htail => exact (h.past (by omega)).symm
  next htail =>
    refine if_neg fun hnew => ?_
    obtain ⟨hfirst, hlast⟩ := hok hnew.2.1
    have hmissing : ¬ (s.inode.data (i / PAGE_SIZE)).isSome := by
      rw [isNone_iff_eq_none.mp hnew.1]
      exact Bool.false_ne_true
    -- a page that is missing and touched holds the start or the end of the write
    by_cases hlt : i < offset
    · have hpage : i / PAGE_SIZE = offset / PAGE_SIZE := by
        unfold PAGE_SIZE at *
        omega
      rcases hfirst with hstart | hthere
      · unfold PAGE_SIZE at *
        omega
      · exact hmissing (hpage ▸ hthere)
    have hpage : i / PAGE_SIZE = (offset + data.length - 1) / PAGE_SIZE := by
      unfold PAGE_SIZE at *
      omega
    rcases hlast with hend | hthere | hgrow
    · unfold PAGE_SIZE at *
      omega
    · exact hmissing (hpage ▸ hthere)
    · exact htail ⟨hgrow, by omega, hpage⟩

theorem byteAt_truncLoop (old : Nat) (pages : Pages) (curOff i : Nat) :
    byteAt (truncLoop old old pages curOff) i =
      if curOff / PAGE_SIZE ≤ i / PAGE_SIZE ∧
          curOff % PAGE_SIZE + i / PAGE_SIZE * PAGE_SIZE < old then 0
      else byteAt pages i := by
  have hdel := truncLoop_eq old old pages curOff (Nat.le_add_left _ _) (i / PAGE_SIZE)
  split
  next h => exact byteAt_of_none (hdel.trans (if_pos h))
  next h => exact byteAt_congr (hdel.trans (if_neg h))

theorem tfsTruncate_size (size : Nat) : (tfsTruncate inode size).size = size := by
  simp only [tfsTruncate]
  split_ifs with h0 hgt hlt hclear
  · exact h0.symm
  · rfl
  · rfl
  · rfl
  · omega

/-- A shrink to the middle of a page that is there clears the rest of it and deletes from the
    next page on. -/
theorem byteAt_shrink_page {old : Nat} {pages : Pages} (hlt : size < old)
    (hpast : ∀ i, old ≤ i → byteAt pages i = 0) (i : Nat) :
    byteAt (truncLoop old old
        (zeroTail pages (size / PAGE_SIZE) (size % PAGE_SIZE)
          (min (old - size) (PAGE_SIZE - size % PAGE_SIZE)))
        (size + min (old - size) (PAGE_SIZE - size % PAGE_SIZE))) i =
      if i < size then byteAt pages i else 0 := by
  rw [byteAt_truncLoop, byteAt_zeroTail _ _ _ (by unfold PAGE_SIZE; omega)]
  by_cases hi : i < size
  · rw [if_pos hi, if_neg, if_neg]
    · omega
    · unfold PAGE_SIZE at *
      omega
  split_ifs with hdel hzero
  · rfl
  · rfl
  · refine hpast i ?_
    unfold PAGE_SIZE at *
    omega

/-- A shrink that clears nothing deletes from the page of the new end on; what it leaves of the
    old contents has to be missing already. -/
theorem byteAt_shrink {old : Nat} {pages : Pages} (hlt : size < old)
    (hpast : ∀ i, old ≤ i → byteAt pages i = 0)
    (hpage : size % PAGE_SIZE = 0 ∨ pages (size / PAGE_SIZE) = none)
    (hlast : size % PAGE_SIZE = 0 ∨ pages ((old - 1) / PAGE_SIZE) = none ∨ size % PAGE_SIZE + (old - 1) / PAGE_SIZE * PAGE_SIZE < old)
    (i : Nat) :
    byteAt (truncLoop old old pages size) i = if i < size then byteAt pages i else 0 := by
  rw [byteAt_truncLoop]
  by_cases hsame : i / PAGE_SIZE = size / PAGE_SIZE ∧ size % PAGE_SIZE ≠ 0
  · -- the page of the new end is missing
    have hnone : byteAt pages i = 0 := byteAt_of_none (hsame.1 ▸ hpage.resolve_left hsame.2)
    rw [hnone, ite_self, ite_self]
  by_cases hi : i < size
  · rw [if_pos hi, if_neg]
    unfold PAGE_SIZE at *
    omega
  rw [if_neg hi]
  refine ite_eq_left_iff.mpr fun hkept => ?_
  by_cases hold : old ≤ i
  · exact hpast i hold
  -- what is kept below the old end lies in the old last page
  have hle : i / PAGE_SIZE = (old - 1) / PAGE_SIZE := by
    unfold PAGE_SIZE at *
    omega
  rcases hlast with hstart | hnone | hfar
  · unfold PAGE_SIZE at *
    omega
  · exact byteAt_of_none (hle ▸ hnone)
  · unfold PAGE_SIZE at *
    omega

/-- **A truncation** keeps the bytes below the new size; every other byte reads as zero. -/
theorem byteAt_tfsTruncate (h : FileInv s) (hok : CallOk s (.truncate size)) (i : Nat) :
    byteAt (tfsTruncate s.inode size).data i = if i < size then byteAt s.inode.data i else 0 := by
  rw [tfsTruncate]
  by_cases h0 : size = 0
  · rw [if_pos h0, if_neg (by omega)]
    exact byteAt_of_none rfl
  rw [if_neg h0]
  by_cases hgrow : size ≥ s.inode.size
  · have hkeep : byteAt s.inode.data i = if i < size then byteAt s.inode.data i else 0 := by
      split
      · rfl
      · exact h.past (by omega)
    by_cases hgt : size > s.inode.size
    · rw [if_pos hgt]
      exact hkeep
    · rw [if_neg hgt, if_neg (by omega)]
      exact hkeep
  have hlt : size < s.inode.size := Nat.lt_of_not_ge hgrow
  rw [if_neg (by omega), if_pos hlt]
  simp only
  split
  next hclear =>
    exact byteAt_shrink_page hlt (fun j hj => h.past hj) i
  next hclear =>
    have hpage : size % PAGE_SIZE = 0 ∨ s.inode.data (size / PAGE_SIZE) = none := by
      rw [not_and_or, not_not, not_isSome_iff_eq_none] at hclear
      exact hclear
    refine byteAt_shrink hlt (fun j hj => h.past hj) hpage ?_ i
    rcases hok (by omega) hlt with hmod | hthere | hlast
    · exact .inl hmod
    · exact hpage.imp_right fun hnone => absurd hthere (by rw [hnone]; exact Bool.false_ne_true)
    · exact .inr (hlast.imp_left isNone_iff_eq_none.mp)

theorem FileInv.truncate (h : FileInv s) (hok : CallOk s (.truncate size)) :
    FileInv ⟨tfsTruncate s.inode size, FileCall.apply s.content (.truncate size)⟩ := by
  refine ⟨?_, fun i => ?_⟩
  · simp only [tfsTruncate_size, FileCall.apply, length_append, length_take, length_replicate]
    omega
  simp only [byteAt_tfsTruncate h hok, h.bytes, FileCall.apply]
  split
  next hi =>
    by_cases hl : i < s.content.length
    · rw [getD_append _ _ _ _ (by rw [length_take]; omega)]
      simp [getD_eq_getElem?_getD, hi]
    · rw [getD_eq_default _ _ (by omega),
        getD_append_right _ _ _ _ (by rw [length_take]; omega), length_take,
        getD_replicate _ (by omega)]
  next hi =>
    refine (getD_eq_default _ _ ?_).symm
    simp only [length_append, length_take, length_replicate]
    omega

/-! ## 10. Runs -/

theorem fileInv_step (s : FileState) (c : FileCall) (s' : FileState) (h : FileInv s)
    (hok : CallOk s c) (hs : fileStep s c = some s') : FileInv s' := by
  cases c with
  | write offset data fresh =>
    obtain ⟨-, hs⟩ := ite_none_right_eq_some.mp hs
    obtain ⟨r, hw, rfl⟩ := map_eq_some_iff.mp hs
    exact h.write hok hw
  | read offset size =>
    obtain rfl := some.inj hs
    exact h
  | truncate size =>
    obtain ⟨-, hs⟩ := ite_none_right_eq_some.mp hs
    obtain rfl := some.inj hs
    exact h.truncate hok

/-- **A file is a byte sequence** along every run whose calls meet `CallOk`. -/
theorem file_run (calls : List FileCall)
    (hok : ∀ t ∈ trace fileStep .init calls, CallOk t.pre t.act) :
    ∀ t ∈ trace fileStep .init calls, Refines t.post :=
  fun t ht => (trace_inv fileInv_step calls .init fileInv_init hok t ht).2.refines

/-- A file is written, cut in the middle of a page and grown again. -/
theorem file_run_again :
    (∀ t ∈ trace fileStep .init
        [.write 0 [1, 2, 3] (fun _ _ => 7), .truncate 2, .truncate 5000, .read 0 10],
      CallOk t.pre t.act) ∧
    ∀ t ∈ trace fileStep .init
        [.write 0 [1, 2, 3] (fun _ _ => 7), .truncate 2, .truncate 5000, .read 0 10],
      Refines t.post := by
  have hok : ∀ t ∈ trace fileStep .init
      [.write 0 [1, 2, 3] (fun _ _ => 7), .truncate 2, .truncate 5000, .read 0 10],
      CallOk t.pre t.act := by decide +kernel
  exact ⟨hok, file_run _ hok⟩

theorem exists_not_refines {call : FileCall} {calls : List FileCall} (offset size : Nat)
    (h : (exec fileStep .init (call :: calls)).any (fun s =>
      decide (tfsFileRead s.inode offset size ≠ (s.content.drop offset).take size)) = true) :
    ∃ t ∈ trace fileStep .init (call :: calls), ¬ Refines t.post := by
  obtain ⟨t, ht, hbad⟩ := trace_of_exec h
  exact ⟨t, ht, fun href => hbad (href.2 offset size)⟩

/-- Two files that are not their sequence. In the first a byte is written into a hole: the rest
    of its page shows what the allocator left there. In the second the delete loop starts in the
    middle of a hole and does not get to the last page: its old bytes are there when the file
    has grown again. -/
theorem file_run_stale :
    (∃ t ∈ trace fileStep .init [.truncate 8192, .write 100 [1] (fun _ _ => 7)], ¬ Refines t.post) ∧
    ∃ t ∈ trace fileStep .init
        [.truncate 4096, .write 4096 [5] (fun _ _ => 0), .truncate 100, .truncate 5000],
      ¬ Refines t.post :=
  ⟨exists_not_refines 0 1 (by decide +kernel),
    exists_not_refines 4096 1 (by decide +kernel)⟩

end ChCore.Tmpfs
