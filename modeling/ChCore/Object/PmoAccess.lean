/-
  File: ChCore/Object/PmoAccess.lean
  Subject: Reading and writing an object without mapping it (`sys_write_pmo` and `sys_read_pmo` of
    `kernel/object/memory.c`).

  A call of the user is a range with the bytes to write, or a range to read; the copies between
  kernel and user memory succeed.

  * **`pmo_array_iff`** -- a call acts on one array of bytes, whatever it holds, exactly when it
    is `Plain`.
-/
import ChCore.Mm.Pmo

namespace ChCore.Object

open Common Lib Mm Option List

/-! ## 1. The source -/

/-- A call on an object: a write of the bytes of the user, or a read. -/
inductive PmoCall where
  | write (offset : BitVec 64) (data : List Byte) (fits : data.length < 2 ^ 64)
  | read (offset len : BitVec 64)

def PmoCall.offset : PmoCall → BitVec 64
  | .write offset _ _ => offset
  | .read offset _ => offset

def PmoCall.len : PmoCall → BitVec 64
  | .write _ data _ => BitVec.ofNat 64 data.length
  | .read _ len => len

/-- The return value, and the bytes the user gets. -/
structure PmoResult where
  ret : Int
  data : List Byte
  deriving DecidableEq

variable (s : Pmos)

/-- A copy into the memory. -/
def store (addr : Nat) (data : List Byte) : Pmos :=
  { s with bytes := patch s.bytes addr data }

@[simp] theorem store_bytes (addr : Nat) (data : List Byte) :
    (store s addr data).bytes = patch s.bytes addr data := rfl

variable (p : Nat) (c : PmoCall)

/-- The copy at the end of `read_write_pmo`, to or from the address. -/
def PmoCall.transfer (s : Pmos) (addr : Nat) : PmoResult × Pmos :=
  match c with
  | .write _ data _ => (⟨0, []⟩, store s addr data)
  | .read _ len => (⟨0, slice s.bytes addr len.toNat⟩, s)

/-- `read_write_pmo`. `none`: there is no memory for a page. -/
def readWritePmo : Option (PmoResult × Pmos) :=
  let pmo := s.pmos p
  if pmo.type ≠ .data ∧ pmo.type ≠ .anonym then some (⟨-EINVAL, []⟩, s)
  else if c.offset + c.len < c.offset ∨ c.offset + c.len > pmo.size then
    some (⟨-EINVAL, []⟩, s)
  else if pmo.type = .data then some (c.transfer s (pmo.start + c.offset.toNat))
  else do
    let index := c.offset.toNat / PMO_PAGE_SIZE
    let (pa, s) ← demandPage s p index
    some (c.transfer s pa)

/-! ## 2. The array -/

/-- The transfer of a range of an array. -/
def PmoCall.onArray (f : Nat → Byte) : PmoResult × (Nat → Byte) :=
  match c with
  | .write offset data _ => (⟨0, []⟩, patch f offset.toNat data)
  | .read offset len => (⟨0, slice f offset.toNat len.toNat⟩, f)

/-- **What the calls are for**: a range inside the array is transferred, any other is refused. -/
def arrayCall (size : Nat) (f : Nat → Byte) (c : PmoCall) : PmoResult × (Nat → Byte) :=
  if c.offset.toNat + c.len.toNat ≤ size then c.onArray f else (⟨-EINVAL, []⟩, f)

/-- The call acts on the bytes of the object as on an array. -/
def Acts (r : PmoResult) (s' : Pmos) : Prop :=
  r = (arrayCall (s.pmos p).size.toNat (content s p) c).1 ∧
    ∀ k, k < (s.pmos p).size.toNat →
      content s' p k = (arrayCall (s.pmos p).size.toNat (content s p) c).2 k

/-- The call returns if there is memory for a page, and acts on the array. -/
structure CallRight (s : Pmos) (p : Nat) (c : PmoCall) : Prop where
  returns : s.freePages ≠ [] → RADIX_LEVELS - 1 ≤ s.freeNodes.length →
    ∃ r s', readWritePmo s p c = some (r, s')
  acts : ∀ r s', readWritePmo s p c = some (r, s') → Acts s p c r s'

/-- **The condition**: the object is one block, the range is refused or empty, or it starts with a
    page and lies in it. -/
def Plain (type : PmoType) (size : BitVec 64) (c : PmoCall) : Prop :=
  type = .data ∨ size.toNat < c.offset.toNat + c.len.toNat ∨ c.len = 0 ∨
    (c.offset.toNat % PMO_PAGE_SIZE = 0 ∧ c.len.toNat ≤ PMO_PAGE_SIZE)

/-- The run of the calls on one object. -/
def pmoStep (s : Pmos) (c : PmoCall) : Option Pmos := (readWritePmo s p c).map Prod.snd

/-- The call writes this byte. -/
def PmoCall.Writes (k : Nat) : Prop :=
  match c with
  | .write offset data _ => offset.toNat ≤ k ∧ k < offset.toNat + data.length
  | .read _ _ => False

/-! ## 3. The range check -/

theorem PmoCall.len_write {offset : BitVec 64} {data : List Byte} (fits : data.length < 2 ^ 64) :
    (PmoCall.write offset data fits).len.toNat = data.length := by
  exact Nat.mod_eq_of_lt fits

/-- **The check is exact**, also where the sum wraps around. -/
theorem refused_iff (offset len size : BitVec 64) :
    (offset + len < offset ∨ offset + len > size) ↔ size.toNat < offset.toNat + len.toNat := by
  rw [gt_iff_lt, BitVec.lt_def, BitVec.lt_def, BitVec.toNat_add]
  omega

section

variable {s s' : Pmos} {p : Nat} {c : PmoCall} {r : PmoResult}

theorem readWritePmo_refused (htype : (s.pmos p).type = .data ∨ (s.pmos p).type = .anonym)
    (hout : (s.pmos p).size.toNat < c.offset.toNat + c.len.toNat) :
    readWritePmo s p c = some (⟨-EINVAL, []⟩, s) := by
  have hno : ¬ ((s.pmos p).type ≠ .data ∧ (s.pmos p).type ≠ .anonym) := fun h =>
    htype.elim h.1 h.2
  simp only [readWritePmo, if_neg hno, if_pos ((refused_iff ..).mpr hout)]

theorem readWritePmo_data (htype : (s.pmos p).type = .data)
    (hin : c.offset.toNat + c.len.toNat ≤ (s.pmos p).size.toNat) :
    readWritePmo s p c = some (c.transfer s ((s.pmos p).start + c.offset.toNat)) := by
  have hno : ¬ ((s.pmos p).type ≠ .data ∧ (s.pmos p).type ≠ .anonym) := fun h => h.1 htype
  have hok := (not_congr (refused_iff c.offset c.len (s.pmos p).size)).mpr (Nat.not_lt_of_le hin)
  simp only [readWritePmo, if_neg hno, if_neg hok, if_pos htype]

theorem readWritePmo_anonym (htype : (s.pmos p).type = .anonym)
    (hin : c.offset.toNat + c.len.toNat ≤ (s.pmos p).size.toNat) :
    readWritePmo s p c = (demandPage s p (c.offset.toNat / PMO_PAGE_SIZE)).map fun r =>
      c.transfer r.2 r.1 := by
  have hno : ¬ ((s.pmos p).type ≠ .data ∧ (s.pmos p).type ≠ .anonym) := fun h => h.2 htype
  have hdata : ¬ (s.pmos p).type = .data := fun h => by
    rw [htype] at h
    cases h
  have hok := (not_congr (refused_iff c.offset c.len (s.pmos p).size)).mpr (Nat.not_lt_of_le hin)
  simp only [readWritePmo, if_neg hno, if_neg hok, if_neg hdata]
  cases demandPage s p (c.offset.toNat / PMO_PAGE_SIZE) <;> rfl

/-- **With memory a call returns.** -/
theorem readWritePmo_returns (h : s.Inv)
    (htype : (s.pmos p).type = .data ∨ (s.pmos p).type = .anonym)
    (hpages : s.freePages ≠ []) (hnodes : RADIX_LEVELS - 1 ≤ s.freeNodes.length) :
    ∃ r s', readWritePmo s p c = some (r, s') := by
  rcases lt_or_ge (s.pmos p).size.toNat (c.offset.toNat + c.len.toNat) with hout | hin
  · exact ⟨_, _, readWritePmo_refused htype hout⟩
  rcases htype with htype | htype
  · exact ⟨_, _, readWritePmo_data htype hin⟩
  have hindex : c.offset.toNat / PMO_PAGE_SIZE < 2 ^ 64 :=
    (Nat.div_le_self _ _).trans_lt c.offset.isLt
  obtain ⟨pa, s', hd⟩ := demandPage_returns h (.inl htype) hindex hpages hnodes
  rw [readWritePmo_anonym htype hin, hd]
  exact ⟨_, _, rfl⟩

/-! ## 4. Plain calls -/

/-- A transfer of bytes that lie one behind the other, at `addr` for the byte `offset`, acts on the
    array. -/
theorem acts_transfer {addr : Nat} {s1 : Pmos}
    (hin : c.offset.toNat + c.len.toNat ≤ (s.pmos p).size.toNat)
    (hread : ∀ k, k < c.len.toNat → s1.bytes (addr + k) = content s p (c.offset.toNat + k))
    (hsame : ∀ k, k < (s.pmos p).size.toNat → content s1 p k = content s p k)
    (hwrite : ∀ data : List Byte, data.length = c.len.toNat → ∀ k, k < (s.pmos p).size.toNat →
      content (store s1 addr data) p k =
        patch (content s p) c.offset.toNat data k) :
    Acts s p c (c.transfer s1 addr).1 (c.transfer s1 addr).2 := by
  rw [Acts, arrayCall, if_pos hin]
  cases c with
  | write offset data fits =>
    exact ⟨rfl, hwrite data (PmoCall.len_write fits).symm⟩
  | read offset len =>
  refine ⟨?_, hsame⟩
  simp only [PmoCall.transfer]
  congr 1
  exact map_congr_left fun k hk => hread k (mem_range.mp hk)

theorem content_data (htype : (s.pmos p).type = .data) (k : Nat) :
    content s p k = s.bytes ((s.pmos p).start + k) := if_pos htype

variable {index k : Nat} {size : BitVec 64} {type : PmoType}

theorem content_page (htype : (s.pmos p).type = .anonym) {pa : Nat}
    (hpage : getPageFromPmo (s.pmos p) index = pa) (hpa : pa ≠ 0) (hk : k < PMO_PAGE_SIZE) :
    content s p (index * PMO_PAGE_SIZE + k) = s.bytes (pa + k) := by
  have hdiv : (index * PMO_PAGE_SIZE + k) / PMO_PAGE_SIZE = index := by
    rw [mul_comm, Nat.mul_add_div (by decide), Nat.div_eq_of_lt hk, add_zero]
  have hmod : (index * PMO_PAGE_SIZE + k) % PMO_PAGE_SIZE = k := by
    rw [mul_comm, Nat.mul_add_mod, Nat.mod_eq_of_lt hk]
  have hdata : ¬ (s.pmos p).type = .data := fun h => by
    rw [htype] at h
    cases h
  rw [content, if_neg hdata, hdiv, hmod, hpage, if_neg hpa]

theorem content_zero (htype : (s.pmos p).type = .anonym)
    (hzero : getPageFromPmo (s.pmos p) (k / PMO_PAGE_SIZE) = 0) : content s p k = 0 := by
  have hdata : ¬ (s.pmos p).type = .data := fun h => by
    rw [htype] at h
    cases h
  rw [content, if_neg hdata, if_pos hzero]

theorem content_patch_data (htype : (s.pmos p).type = .data) (offset k : Nat) (data : List Byte) :
    content (store s ((s.pmos p).start + offset) data) p k =
      patch (content s p) offset data k := by
  rw [content_data (s := store s _ data) htype]
  show patch s.bytes ((s.pmos p).start + offset) data ((s.pmos p).start + k) = _
  rw [patch_shift]
  exact patch_congr (content_data htype k).symm offset data

/-- **A copy into a page** that does not go past it. -/
theorem content_patch_page (h : s.Inv) (htype : (s.pmos p).type = .anonym) {pa : Nat}
    (hi : index < 2 ^ 64) (hpage : getPageFromPmo (s.pmos p) index = pa) (hpa : pa ≠ 0)
    {data : List Byte} (hlen : data.length ≤ PMO_PAGE_SIZE) (hk : k < 2 ^ 64) :
    content (store s pa data) p k =
      patch (content s p) (index * PMO_PAGE_SIZE) data k := by
  have hon : (s.pmos p).OnDemand := .inl htype
  have hsplit : k / PMO_PAGE_SIZE * PMO_PAGE_SIZE + k % PMO_PAGE_SIZE = k := Nat.div_add_mod' ..
  have hmod := page_lt k
  by_cases hsame : k / PMO_PAGE_SIZE = index
  · rw [hsame] at hsplit
    rw [← hsplit, content_page (s := store s pa data) htype hpage hpa hmod]
    rw [patch_start, store_bytes, patch_start]
    exact patch_congr (content_page htype hpage hpa hmod).symm 0 data
  -- another page: the range of the copy is neither in the array nor in the memory
  have hout : patch (content s p) (index * PMO_PAGE_SIZE) data k = content s p k := by
    rcases Nat.lt_or_gt_of_ne hsame with hlt | hgt
    · refine patch_of_lt data ?_
      have := Nat.mul_le_mul_right PMO_PAGE_SIZE hlt
      rw [Nat.succ_mul] at this
      omega
    · refine patch_of_ge ?_
      have := Nat.mul_le_mul_right PMO_PAGE_SIZE hgt
      rw [Nat.succ_mul] at this
      omega
  have hkp : k / PMO_PAGE_SIZE < 2 ^ 64 := (Nat.div_le_self _ _).trans_lt hk
  rw [hout]
  by_cases hzero : getPageFromPmo (s.pmos p) (k / PMO_PAGE_SIZE) = 0
  · rw [content_zero (s := store s pa data) htype hzero, content_zero htype hzero]
  have halign := (h.page p hon _ hkp hzero).1
  have hpalign : pa % PMO_PAGE_SIZE = 0 := hpage ▸ (h.page p hon index hi (hpage ▸ hpa)).1
  have hne : getPageFromPmo (s.pmos p) (k / PMO_PAGE_SIZE) ≠ pa := fun e =>
    hsame (h.distinct p p hon hon _ index hkp hi hzero (e.trans hpage.symm)).2
  generalize hpage' : getPageFromPmo (s.pmos p) (k / PMO_PAGE_SIZE) = pa' at *
  rw [← hsplit, content_page (s := store s pa data) htype hpage' hzero hmod,
    content_page htype hpage' hzero hmod]
  rcases lt_or_ge (pa' + k % PMO_PAGE_SIZE) pa with hlow | hhigh
  · exact patch_of_lt data hlow
  · refine patch_of_ge (not_lt.mp fun hlt => hne ?_)
    exact page_unique halign hpalign ⟨Nat.le_add_right _ _, Nat.add_lt_add_left hmod _⟩
      ⟨hhigh, hlt.trans_le (Nat.add_le_add_left hlen _)⟩

/-- **A plain call acts on the array.** -/
theorem readWritePmo_plain (h : s.Inv)
    (htype : (s.pmos p).type = .data ∨ (s.pmos p).type = .anonym)
    (hplain : Plain (s.pmos p).type (s.pmos p).size c) : CallRight s p c := by
  refine ⟨readWritePmo_returns h htype, fun r s' hs => ?_⟩
  have hsize := (s.pmos p).size.isLt
  rcases lt_or_ge (s.pmos p).size.toNat (c.offset.toNat + c.len.toNat) with hout | hin
  · rw [readWritePmo_refused htype hout] at hs
    cases hs
    rw [Acts, arrayCall, if_neg (Nat.not_le_of_lt hout)]
    exact ⟨rfl, fun _ _ => rfl⟩
  rcases htype with htype | htype
  · rw [readWritePmo_data htype hin] at hs
    obtain ⟨rfl, rfl⟩ := Prod.ext_iff.mp (some.inj hs)
    refine acts_transfer hin (fun k _ => ?_) (fun _ _ => rfl) fun data _ k _ =>
      content_patch_data htype _ k data
    rw [content_data htype, add_assoc]
  have hon : (s.pmos p).OnDemand := .inl htype
  have hindex : c.offset.toNat / PMO_PAGE_SIZE < 2 ^ 64 :=
    (Nat.div_le_self _ _).trans_lt c.offset.isLt
  rw [readWritePmo_anonym htype hin] at hs
  obtain ⟨⟨pa, s1⟩, hd, hs⟩ := map_eq_some_iff.mp hs
  obtain ⟨rfl, rfl⟩ := Prod.ext_iff.mp hs
  have hdem := demandPage_spec h hon hindex hd
  have hsame : ∀ k, k < (s.pmos p).size.toNat → content s1 p k = content s p k := fun k hk =>
    hdem.content h hon hindex ⟨hk.trans hsize, .inl hon⟩
  have htype1 : (s1.pmos p).type = .anonym := (hdem.fields p).1.trans htype
  rcases hplain with hdata | hout | hzero | ⟨halign, hlen⟩
  · rw [htype] at hdata
    cases hdata
  · exact absurd hin (Nat.not_le_of_lt hout)
  · -- nothing is transferred
    refine acts_transfer hin (fun k hk => ?_) hsame fun data hlen k hk => ?_
    · rw [hzero] at hk
      exact absurd hk (Nat.not_lt_zero k)
    · obtain rfl : data = [] := eq_nil_of_length_eq_zero (by rw [hlen, hzero]; rfl)
      rw [store, patch_nil, patch_nil]
      exact hsame k hk
  have hoff : c.offset.toNat / PMO_PAGE_SIZE * PMO_PAGE_SIZE = c.offset.toNat :=
    Nat.div_mul_cancel (Nat.dvd_of_mod_eq_zero halign)
  refine acts_transfer hin (fun k hk => ?_) hsame fun data hdlen k hk => ?_
  · rw [← hsame _ (by omega), ← hoff]
    exact (content_page htype1 hdem.page hdem.notNull (hk.trans_le hlen)).symm
  · rw [content_patch_page hdem.inv htype1 hindex hdem.page hdem.notNull (hdlen ▸ hlen)
      (hk.trans hsize), hoff]
    exact patch_congr (hsame k hk) _ data

/-! ## 5. Other calls -/

/-- **Two pages of an object** where the one with the higher index lies before the other in memory. -/
theorem exists_two_pages (p : Nat) (size : BitVec 64) (hi : index + 1 < 2 ^ 64) (f : Nat → Byte) :
    ∃ s : Pmos, s.Inv ∧ (s.pmos p).type = .anonym ∧ (s.pmos p).size = size ∧
      getPageFromPmo (s.pmos p) index = 8192 ∧ getPageFromPmo (s.pmos p) (index + 1) = 4096 ∧
      s.bytes = f := by
  have h0 := freshPmos_inv size
  have hzero : ∀ i, getPageFromPmo ((freshPmos size).pmos p) i = 0 :=
    (initRadix_inv (fun _ _ => 0) (show 1 ≠ 0 by decide)).2
  have hon : ((freshPmos size).pmos p).OnDemand := .inl rfl
  obtain ⟨pa1, s1, hd1⟩ := demandPage_returns h0 hon hi (cons_ne_nil _ _)
    (by decide : RADIX_LEVELS - 1 ≤ (List.range' 2 30).length)
  have h1 := demandPage_spec h0 hon hi hd1
  obtain ⟨hfree1, hnodes1, -⟩ := h1.fresh (hzero _)
  obtain ⟨rfl, hleft1⟩ : pa1 = 4096 ∧ s1.freePages = [8192] := by
    obtain ⟨e1, e2⟩ := List.cons.inj hfree1
    exact ⟨e1.symm, e2.symm⟩
  have hi' : index < 2 ^ 64 := Nat.lt_of_succ_lt hi
  have hon1 : (s1.pmos p).OnDemand := (onDemand_congr (h1.fields p).1).mpr hon
  have hzero1 : getPageFromPmo (s1.pmos p) index = 0 := by
    rw [h1.pages p hon index hi' fun e => absurd e.2 (ne_of_lt (Nat.lt_succ_self _))]
    exact hzero index
  have hnodes : RADIX_LEVELS - 1 ≤ s1.freeNodes.length := by
    have : (freshPmos size).freeNodes.length = 30 := rfl
    have : RADIX_LEVELS = 16 := rfl
    omega
  obtain ⟨pa2, s2, hd2⟩ := demandPage_returns h1.inv hon1 hi' (by rw [hleft1]; decide) hnodes
  have h2 := demandPage_spec h1.inv hon1 hi' hd2
  obtain ⟨hfree2, -⟩ := h2.fresh hzero1
  obtain rfl : 8192 = pa2 := (List.cons.inj (hleft1.symm.trans hfree2)).1
  refine ⟨{ s2 with bytes := f }, inv_bytes h2.inv f, (h2.fields p).1.trans (h1.fields p).1,
    (h2.fields p).2.1.trans (h1.fields p).2.1, h2.page, ?_, rfl⟩
  rw [h2.pages p hon1 (index + 1) hi fun e => absurd e.2 (Nat.succ_ne_self index)]
  exact h1.page

/-- The two pages, and what a call on the first of them would have to do. -/
theorem exists_acts (offset : BitVec 64)
    (hall : ∀ s : Pmos, s.Inv → (s.pmos p).type = .anonym → (s.pmos p).size = size → CallRight s p c)
    (hoff : c.offset = offset) (hin : offset.toNat + c.len.toNat ≤ size.toNat) (f : Nat → Byte) :
    ∃ s : Pmos, (s.pmos p).type = .anonym ∧
      getPageFromPmo (s.pmos p) (offset.toNat / PMO_PAGE_SIZE) = 8192 ∧
      getPageFromPmo (s.pmos p) (offset.toNat / PMO_PAGE_SIZE + 1) = 4096 ∧ s.bytes = f ∧
      (c.transfer s 8192).1 = (c.onArray (content s p)).1 ∧
      ∀ k, k < size.toNat → content (c.transfer s 8192).2 p k = (c.onArray (content s p)).2 k := by
  subst hoff
  have hi : c.offset.toNat / PMO_PAGE_SIZE + 1 < 2 ^ 64 := by
    have hsize : PMO_PAGE_SIZE = 4096 := rfl
    rw [hsize]
    omega
  obtain ⟨s, hinv, htype, rfl, hlow, hhigh, hf⟩ := exists_two_pages p size hi f
  have hcall : readWritePmo s p c = some (c.transfer s 8192) := by
    rw [readWritePmo_anonym htype hin, demandPage, hlow]
    rfl
  have hacts := (hall s hinv htype rfl).acts _ _ hcall
  rw [Acts, arrayCall, if_pos hin] at hacts
  exact ⟨s, htype, hlow, hhigh, hf, hacts⟩

theorem offset_split (n : Nat) : n / PMO_PAGE_SIZE * PMO_PAGE_SIZE + n % PMO_PAGE_SIZE = n :=
  Nat.div_add_mod' n PMO_PAGE_SIZE

/-- A write that is right for every content is plain. -/
theorem plain_of_write {offset : BitVec 64} {data : List Byte} {fits : data.length < 2 ^ 64}
    (hall : ∀ s : Pmos, s.Inv → (s.pmos p).type = .anonym → (s.pmos p).size = size → CallRight s p (.write offset data fits))
    (hin : offset.toNat + data.length ≤ size.toNat) (hpos : 0 < data.length) :
    offset.toNat % PMO_PAGE_SIZE = 0 ∧ data.length ≤ PMO_PAGE_SIZE := by
  have hsize : PMO_PAGE_SIZE = 4096 := rfl
  have hsplit := offset_split offset.toNat
  have hlen : (PmoCall.write offset data fits).len.toNat = data.length := PmoCall.len_write fits
  have hne : ∀ b : Byte, b + 1 ≠ b := by decide
  have hin' : offset.toNat + (PmoCall.write offset data fits).len.toNat ≤ size.toNat := by
    rw [hlen]
    exact hin
  have hmod : offset.toNat % PMO_PAGE_SIZE = 0 := by
    -- otherwise the first byte of the page is overwritten
    by_contra hmod
    obtain ⟨s, htype, hlow, -, hf, -, hacts⟩ :=
      exists_acts offset hall rfl hin' fun _ => data.getD 0 0 + 1
    have h := hacts (offset.toNat / PMO_PAGE_SIZE * PMO_PAGE_SIZE + 0) (by omega)
    simp only [PmoCall.transfer, PmoCall.onArray] at h
    rw [content_page (s := store s 8192 data) (k := 0) htype hlow (by decide) (by decide), store_bytes,
      patch_inside (by omega) (by omega) 0, patch_of_lt data (by omega),
      content_page (k := 0) htype hlow (by decide) (by decide), hf] at h
    exact hne _ h.symm
  refine ⟨hmod, ?_⟩
  -- otherwise the next page of the object is left out
  by_contra hlong
  obtain ⟨s, htype, -, hhigh, hf, -, hacts⟩ :=
    exists_acts offset hall rfl hin' fun _ => data.getD 4096 0 + 1
  have hnext : (offset.toNat / PMO_PAGE_SIZE + 1) * PMO_PAGE_SIZE + 0 = offset.toNat + 4096 := by
    rw [Nat.succ_mul]
    omega
  have h := hacts ((offset.toNat / PMO_PAGE_SIZE + 1) * PMO_PAGE_SIZE + 0) (by omega)
  simp only [PmoCall.transfer, PmoCall.onArray] at h
  rw [content_page (s := store s 8192 data) (k := 0) htype hhigh (by decide) (by decide), store_bytes,
    patch_of_lt data (by decide), hf, hnext, patch_inside (by omega) (by omega) 0,
    Nat.add_sub_cancel_left] at h
  exact hne _ h

/-- A read that is right for every content is plain. -/
theorem plain_of_read {offset len : BitVec 64}
    (hall : ∀ s : Pmos, s.Inv → (s.pmos p).type = .anonym → (s.pmos p).size = size → CallRight s p (.read offset len))
    (hin : offset.toNat + len.toNat ≤ size.toNat) (hpos : 0 < len.toNat) :
    offset.toNat % PMO_PAGE_SIZE = 0 ∧ len.toNat ≤ PMO_PAGE_SIZE := by
  have hsize : PMO_PAGE_SIZE = 4096 := rfl
  have hsplit := offset_split offset.toNat
  -- what the user gets is what lies behind the start of the page
  have hread : ∀ {s : Pmos}, ((PmoCall.read offset len).transfer s 8192).1 =
      ((PmoCall.read offset len).onArray (content s p)).1 →
      ∀ k, k < len.toNat → s.bytes (8192 + k) = content s p (offset.toNat + k) := by
    intro s h k hk
    simp only [PmoCall.transfer, PmoCall.onArray, PmoResult.mk.injEq, true_and] at h
    exact map_inj_left.mp h k (mem_range.mpr hk)
  have hmod : offset.toNat % PMO_PAGE_SIZE = 0 := by
    by_contra hmod
    obtain ⟨s, htype, hlow, -, hf, hdata, -⟩ :=
      exists_acts offset hall rfl hin fun a => if a = 8192 then 1 else 0
    have h := hread hdata 0 hpos
    rw [add_zero, add_zero, ← hsplit, content_page htype hlow (by decide) (page_lt _), hf] at h
    simp only [if_true, Nat.add_eq_left, if_neg hmod] at h
    exact absurd h (by decide)
  refine ⟨hmod, ?_⟩
  by_contra hlong
  obtain ⟨s, htype, -, hhigh, hf, hdata, -⟩ :=
    exists_acts offset hall rfl hin fun a => if a = 12288 then 1 else 0
  have h := hread hdata 4096 (by omega)
  have hnext : (offset.toNat / PMO_PAGE_SIZE + 1) * PMO_PAGE_SIZE + 0 = offset.toNat + 4096 := by
    rw [Nat.succ_mul]
    omega
  rw [← hnext, content_page (k := 0) htype hhigh (by decide) (by decide), hf] at h
  exact absurd h (by decide)

/-- **No other call** acts on the array for every content of the object. -/
theorem plain_of_right
    (hall : ∀ s : Pmos, s.Inv → (s.pmos p).type = .anonym → (s.pmos p).size = size → CallRight s p c) :
    Plain .anonym size c := by
  rcases lt_or_ge size.toNat (c.offset.toNat + c.len.toNat) with hout | hin
  · exact .inr (.inl hout)
  by_cases hlen : c.len = 0
  · exact .inr (.inr (.inl hlen))
  have hpos : 0 < c.len.toNat := pos_of_ne_zero fun h => hlen (BitVec.eq_of_toNat_eq h)
  refine .inr (.inr (.inr ?_))
  cases c with
  | write offset data fits =>
    rw [PmoCall.len_write fits] at hin hpos ⊢
    exact plain_of_write hall hin hpos
  | read offset len => exact plain_of_read hall hin hpos

/-! ## 6. Runs -/

/-- The object, along a run. -/
structure Keeps (s : Pmos) (p : Nat) (type : PmoType) (size : BitVec 64) : Prop where
  inv : s.Inv
  type : (s.pmos p).type = type
  size : (s.pmos p).size = size

theorem keeps_transfer (h : Keeps s p type size) (addr : Nat) :
    Keeps (c.transfer s addr).2 p type size := by
  cases c with
  | write offset data fits => exact ⟨inv_bytes h.inv _, h.type, h.size⟩
  | read offset len => exact h

/-- **Every call keeps the invariant.** -/
theorem pmoStep_keeps (htype : type = .data ∨ type = .anonym) (h : Keeps s p type size)
    (hstep : pmoStep p s c = some s') : Keeps s' p type size := by
  obtain ⟨⟨r, s1⟩, hs, rfl⟩ := map_eq_some_iff.mp hstep
  have htype' : (s.pmos p).type = .data ∨ (s.pmos p).type = .anonym := h.type ▸ htype
  rcases lt_or_ge (s.pmos p).size.toNat (c.offset.toNat + c.len.toNat) with hout | hin
  · rw [readWritePmo_refused htype' hout] at hs
    cases hs
    exact h
  rcases htype' with hdata | hanon
  · rw [readWritePmo_data hdata hin] at hs
    obtain ⟨-, rfl⟩ := Prod.ext_iff.mp (some.inj hs)
    exact keeps_transfer h _
  rw [readWritePmo_anonym hanon hin] at hs
  obtain ⟨⟨pa, s2⟩, hd, hs⟩ := map_eq_some_iff.mp hs
  obtain ⟨-, rfl⟩ := Prod.ext_iff.mp hs
  have hindex : c.offset.toNat / PMO_PAGE_SIZE < 2 ^ 64 :=
    (Nat.div_le_self _ _).trans_lt c.offset.isLt
  have hdem := demandPage_spec h.inv (.inl hanon) hindex hd
  exact keeps_transfer ⟨hdem.inv, (hdem.fields p).1.trans h.type, (hdem.fields p).2.1.trans h.size⟩ _

theorem arrayCall_of_not_writes {size : Nat} {f : Nat → Byte} (h : ¬ c.Writes k) :
    (arrayCall size f c).2 k = f k := by
  unfold arrayCall
  split
  · cases c with
    | write offset data fits =>
      simp only [PmoCall.Writes, not_and, not_lt] at h
      rcases lt_or_ge k offset.toNat with hlt | hge
      · exact patch_of_lt data hlt
      · exact patch_of_ge (h hge)
    | read offset len => rfl
  · rfl

/-- **A run leaves alone what it does not write.** -/
theorem exec_not_writes (htype : type = .data ∨ type = .anonym) {calls : List PmoCall}
    (h : Keeps s p type size) (hplain : ∀ c ∈ calls, Plain type size c)
    (hs : exec (pmoStep p) s calls = some s') (hk : k < size.toNat)
    (hno : ∀ c ∈ calls, ¬ c.Writes k) : content s' p k = content s p k := by
  induction calls generalizing s with
  | nil =>
    cases hs
    rfl
  | cons c calls ih =>
    obtain ⟨s1, hstep, hs⟩ := bind_eq_some_iff.mp hs
    have hright : CallRight s p c := by
      refine readWritePmo_plain h.inv (h.type ▸ htype) ?_
      rw [h.type, h.size]
      exact hplain c mem_cons_self
    obtain ⟨⟨r, s2⟩, hcall, rfl⟩ := map_eq_some_iff.mp hstep
    have hfirst : content s2 p k = content s p k := by
      rw [(hright.acts r s2 hcall).2 k (by rw [h.size]; exact hk)]
      exact arrayCall_of_not_writes (hno c mem_cons_self)
    rw [← hfirst]
    exact ih (pmoStep_keeps htype h hstep) (fun c hc => hplain c (mem_cons_of_mem _ hc)) hs
      fun c hc => hno c (mem_cons_of_mem _ hc)

end

/-- **An object is an array for a call**, whatever it holds, exactly if the call is plain. Every call
    of a run of plain calls acts on the array, and what no call writes stays as it is, so it reads
    as zero in an anonymous object whose page was not there. -/
theorem pmo_array_iff (type : PmoType) (size : BitVec 64) (htype : type = .data ∨ type = .anonym) :
    (∀ c, (∀ s, Keeps s p type size → CallRight s p c) ↔ Plain type size c) ∧
    ∀ s calls, Keeps s p type size → (∀ c ∈ calls, Plain type size c) →
      (∀ t ∈ trace (pmoStep p) s calls, CallRight t.pre p t.act) ∧
      ∀ s', exec (pmoStep p) s calls = some s' → ∀ k, k < size.toNat →
        (∀ c ∈ calls, ¬ c.Writes k) → content s' p k = content s p k ∧
          (type = .anonym → getPageFromPmo (s.pmos p) (k / PMO_PAGE_SIZE) = 0 →
            content s' p k = 0) := by
  have hplain : ∀ {s c}, Keeps s p type size → Plain type size c → CallRight s p c := by
    intro s c h hc
    refine readWritePmo_plain h.inv (h.type ▸ htype) ?_
    rw [h.type, h.size]
    exact hc
  refine ⟨fun c => ⟨fun hall => ?_, fun hc s h => hplain h hc⟩, fun s calls h hcalls => ⟨?_, ?_⟩⟩
  · rcases htype with rfl | rfl
    · exact .inl rfl
    · exact plain_of_right fun s hinv ht hs => hall s ⟨hinv, ht, hs⟩
  · intro t ht
    have hpre := (trace_inv (I := fun s => Keeps s p type size) (C := fun _ _ => True)
      (fun _ _ _ h _ hs => pmoStep_keeps htype h hs) calls s h (fun _ _ => trivial) t ht).1
    exact hplain hpre (hcalls _ (trace_act_mem calls s ht))
  · intro s' hs k hk hno
    have hsame := exec_not_writes htype h hcalls hs hk hno
    refine ⟨hsame, fun hanon hzero => ?_⟩
    rw [hsame]
    exact content_zero (h.type.trans hanon) hzero

/-- Reading the second page of an anonymous object is plain. -/
theorem pmo_array_page : Plain .anonym 8192 (.read 4096 4096) ∧
    CallRight (freshPmos 8192) 0 (.read 4096 4096) := by
  have hplain : Plain .anonym 8192 (.read 4096 4096) :=
    .inr (.inr (.inr (by decide)))
  exact ⟨hplain, ((pmo_array_iff 0 .anonym 8192 (.inr rfl)).1 _).mpr hplain _
    ⟨freshPmos_inv 8192, rfl, rfl⟩⟩

/-- A write of one byte at offset 5 of an anonymous object goes to offset 0. -/
theorem pmo_write_moves :
    (readWritePmo (freshPmos 4096) 0 (.write 5 [1] (by decide))).any (fun r =>
      r.1 = ⟨0, []⟩ ∧ content r.2 0 0 = 1 ∧ content r.2 0 5 = 0) = true := by
  decide

end ChCore.Object
