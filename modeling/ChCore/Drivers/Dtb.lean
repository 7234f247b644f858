/-
  File: ChCore/Drivers/Dtb.lean
  Subject: The struct block of a device tree (user/drivers/dtb.c).

  * **`dtb_bounds_iff`** -- the call returns and its reads stay in the block exactly if every token
    that is reached fits;
  * **`dtb_parse_iff`** -- a block that is accepted is well formed exactly if every node that is reached
    is ended by an `FDT_END_NODE`: what the inner calls return is dropped.
-/
import ChCore.Common.Errno

namespace ChCore.Drivers

open Option List Relation

/-! ## 1. The source -/

def DEV_NAME_LEN : Nat := 256

def DEV_PROP_LEN : Nat := 128

inductive Token where
  | beginNode
  | endNode
  | prop
  | nop
  | fdtEnd
  | unknown
  deriving DecidableEq

/-- `_address_cells` and `_size_cells` of a `struct dev_node`. -/
structure Cells where
  address : BitVec 32
  size : BitVec 32

/-- The memory from the struct block and from `dt_strings` on, the index of the word at `token_end`, and
    whether the `malloc` for a token succeeds. `top` is not initialised: its cells are any, and `above`
    is what its parent pointers lead to. -/
structure Block where
  bytes : Nat → BitVec 8
  strings : Nat → BitVec 8
  tokenEnd : Nat
  malloc : Nat → Bool
  top : Cells
  above : List Cells

namespace Block

variable (b : Block) (i : Nat)

/-- `be32toh` of a word. -/
def word : BitVec 32 := b.bytes (4 * i) ++ b.bytes (4 * i + 1) ++ b.bytes (4 * i + 2) ++ b.bytes (4 * i + 3)

def token : Token :=
  match (b.word i).toNat with
  | 1 => .beginNode
  | 2 => .endNode
  | 3 => .prop
  | 4 => .nop
  | 9 => .fdtEnd
  | _ => .unknown

/-- The length of the string at a word, at most `DEV_NAME_LEN`. -/
def strlen : Nat := (range DEV_NAME_LEN).findIdx fun k => b.bytes (4 * i + k) = 0

/-- `skip_string` of a string that is not too long. -/
def skipString : Nat := i + b.strlen i / 4 + 1

/-- `skip_value` of the property at an index. -/
def skipValue : Nat := i + 3 + ((b.word (i + 1)).toNat + 3) / 4

end Block

/-- `0 == kstrncmp(str, lit, -1)` -/
def sameString (mem : Nat → BitVec 8) : Nat → List Char → Bool
  | p, [] => mem p = 0
  | p, c :: cs => mem p = BitVec.ofNat 8 c.toNat && sameString mem (p + 1) cs

/-- `kstrncpy_alert` into an array, the string at a word. -/
def kstrncpyAlert (b : Block) (size i : Nat) : Option Unit :=
  if b.strlen i < size then some () else none

/-- The property `reg`, by the cells of the parent. -/
def parseReg (valueLen : Nat) (parent : Cells) (maps : Bool) : Option Int :=
  let tupleLen := (parent.address + parent.size) * 4
  if valueLen % tupleLen.toNat ≠ 0 then none
  else if parent.address ≠ 1 ∧ parent.address ≠ 2 then none
  else if parent.size > 2 then none
  else if maps then some 0 else some (-ENOMEM)

/-- The property `ranges` with a value, by the cells of the node and of the parent's parent. -/
def parseRanges (valueLen : Nat) (node grand : Cells) (maps : Bool) : Option Int :=
  let tupleLen := (node.address + grand.address + node.size) * 4
  if valueLen % tupleLen.toNat ≠ 0 then none
  else if node.address > 4 ∨ grand.address > 4 ∨ node.size > 2 then none
  else if ¬ maps then some (-ENOMEM)
  else if node.address = 0 ∨ grand.address = 0 ∨ node.size = 0 then none
  else some 0

/-- `dtb_parse_property` of the property at an index, for the first of `nodes`: what it returns and the
    cells after it. A `model` of `DEV_PROP_LEN` bytes is written past its array. -/
def dtbParseProperty (b : Block) (i : Nat) : List Cells → Option (Int × Cells)
  | [] => none
  | node :: parents =>
    let valueLen := (b.word (i + 1)).toNat
    let named (lit : String) := sameString b.strings (b.word (i + 2)).toNat lit.toList
    let valued (lit : String) := sameString b.bytes (4 * (i + 3)) lit.toList
    if named "compatible" then if valueLen + 1 > DEV_PROP_LEN then none else some (0, node)
    else if named "model" then (kstrncpyAlert b DEV_PROP_LEN (i + 3)).map fun _ => (0, node)
    else if named "phandle" then some (0, node)
    else if named "status" then
      if ["okay", "ok", "disabled", "reserved", "fail"].any valued then some (0, node) else none
    else if named "#address-cells" then some (0, { node with address := b.word (i + 3) })
    else if named "#size-cells" then some (0, { node with size := b.word (i + 3) })
    else if named "#interrupt-cells" then some (0, node)
    else if named "reg" then do
      let parent ← parents.head?
      let err ← parseReg valueLen parent (b.malloc i)
      some (err, node)
    else if named "ranges" then
      if valueLen = 0 then some (0, node)
      else do
        let grand ← parents.tail.head?
        let err ← parseRanges valueLen node grand (b.malloc i)
        some (err, node)
    else some (-ENOTSUP, node)

/-- The cells of `new_dev_node`, which writes to what `malloc` returns. -/
def newDevNode (b : Block) (i : Nat) : Option Cells := if b.malloc i then some ⟨2, 1⟩ else none

/-- What a call returns, where it leaves the cursor, and the tokens of its iterations. -/
structure Parsed where
  ret : Int
  token : Nat
  tokens : List Nat

/-- `dtb_parse_struct_recursively` for a node with its parents; the first number bounds the
    iterations. -/
def dtbParseStruct (b : Block) : Nat → Nat → Cells → List Cells → List Nat → Option Parsed
  | 0, _, _, _, _ => none
  | fuel + 1, i, node, parents, tokens =>
    if b.tokenEnd ≤ i then some ⟨-EINVAL, i, tokens⟩
    else match b.token i with
      | .nop => dtbParseStruct b fuel (i + 1) node parents (i :: tokens)
      | .beginNode => do
        let child ← newDevNode b i
        kstrncpyAlert b DEV_NAME_LEN (i + 1)
        let inner ← dtbParseStruct b fuel (b.skipString (i + 1)) child (node :: parents) (i :: tokens)
        -- what it returns is dropped
        dtbParseStruct b fuel (inner.token + 1) node parents inner.tokens
      | .endNode => some ⟨0, i, i :: tokens⟩
      | .prop => do
        let (err, node) ← dtbParseProperty b i (node :: parents ++ b.above)
        if err = -ENOMEM then some ⟨-ENOMEM, b.skipValue i, i :: tokens⟩
        else dtbParseStruct b fuel (b.skipValue i) node parents (i :: tokens)
      | .fdtEnd => some ⟨0, i, i :: tokens⟩
      | .unknown => some ⟨-EINVAL, i, i :: tokens⟩

/-- The call of `dtb_parse`. -/
def Block.parse (b : Block) : Option Parsed := dtbParseStruct b (b.tokenEnd + 1) 0 b.top [] []

/-- `dtb_parse`, behind the header and the reserved memory. -/
def dtbParse (magic : BitVec 32) (b : Block) : Option (Except Int Unit) :=
  if magic ≠ 0xd00dfeed then some (.error (-EINVAL))
  else b.parse.map fun p => if p.ret ≠ 0 then .error p.ret else .ok ()

/-! ## 2. The tokens of a block -/

/-- A token and the open nodes, the innermost first and `top` last. -/
structure At where
  pos : Nat
  nodes : List Cells

/-- What a token does: the next one is in the same node or in a new one, or its node is over, with the
    cursor and the result of the call. -/
inductive Move where
  | next (s : At)
  | close (cursor : Nat) (ret : Int)

def Block.move (b : Block) (s : At) : Option Move :=
  if b.tokenEnd ≤ s.pos then some (.close s.pos (-EINVAL))
  else match b.token s.pos with
    | .nop => some (.next ⟨s.pos + 1, s.nodes⟩)
    | .beginNode => some (.next ⟨b.skipString (s.pos + 1), ⟨2, 1⟩ :: s.nodes⟩)
    | .prop => (dtbParseProperty b s.pos (s.nodes ++ b.above)).map fun (err, node) =>
      if err = -ENOMEM then .close (b.skipValue s.pos) (-ENOMEM)
      else .next ⟨b.skipValue s.pos, node :: s.nodes.tail⟩
    | .endNode | .fdtEnd => some (.close s.pos 0)
    | .unknown => some (.close s.pos (-EINVAL))

/-- The next token. Whatever ends a node, its parent goes on behind it. -/
def Block.after (b : Block) (s : At) : Option At :=
  (b.move s).bind fun
    | .next s => some s
    | .close j _ => if s.nodes.tail = [] then none else some ⟨j + 1, s.nodes.tail⟩

def Step (b : Block) (s s' : At) : Prop := b.after s = some s'

/-- From a token to a later one. -/
abbrev Steps (b : Block) : At → At → Prop := ReflTransGen (Step b)

/-- **The tokens of a block.** -/
def Reached (b : Block) : At → Prop := Steps b ⟨0, [b.top]⟩

/-- **The token is one the parser can do with**: there is memory for a node, its name is not too long,
    and a property is as `dtb_parse_property` knows it. -/
structure Known (b : Block) (s : At) : Prop where
  memory : b.token s.pos = .beginNode → b.malloc s.pos
  name : b.token s.pos = .beginNode → b.strlen (s.pos + 1) < DEV_NAME_LEN
  prop : b.token s.pos = .prop → (dtbParseProperty b s.pos (s.nodes ++ b.above)).isSome

/-- **The token fits**: its name ends in the block, or its length and its name offset are there. -/
structure Fits (b : Block) (s : At) : Prop extends Known b s where
  nameEnd : b.token s.pos = .beginNode → 4 * (s.pos + 1) + b.strlen (s.pos + 1) < 4 * b.tokenEnd
  propEnd : b.token s.pos = .prop → s.pos + 2 < b.tokenEnd

/-! ## 3. One iteration -/

variable {b : Block} {i j n fuel : Nat} {ret : Int} {node node' : Cells} {parents : List Cells}
  {tokens : List Nat} {p inner : Parsed} {s s' : At} {m : Move}

/-- The tokens after an iteration. -/
def Block.log (b : Block) (i : Nat) (tokens : List Nat) : List Nat :=
  if b.tokenEnd ≤ i then tokens else i :: tokens

theorem mem_log {t : Nat} (h : t ∈ tokens) : t ∈ b.log i tokens := by
  unfold Block.log
  split
  · exact h
  · exact mem_cons_of_mem i h

/-- What a token does: it stays in its node, begins another one, or ends its own. -/
inductive Kind (b : Block) (i : Nat) (node : Cells) (parents : List Cells) : Move → Prop where
  | stays (j : Nat) (node' : Cells) (hi : i < b.tokenEnd) (ht : b.token i ≠ .beginNode) (hj : i < j) :
    Kind b i node parents (.next ⟨j, node' :: parents⟩)
  | begins (hi : i < b.tokenEnd) (ht : b.token i = .beginNode) :
    Kind b i node parents (.next ⟨b.skipString (i + 1), ⟨2, 1⟩ :: node :: parents⟩)
  | ends (j : Nat) (ret : Int) (hj : i ≤ j) (h0 : ret = 0 → j = i ∧ i < b.tokenEnd ∧
      (b.token i = .endNode ∨ b.token i = .fdtEnd)) : Kind b i node parents (.close j ret)

theorem kind (h : b.move ⟨i, node :: parents⟩ = some m) : Kind b i node parents m := by
  unfold Block.move at h
  split at h
  · cases h
    exact .ends i _ le_rfl fun h => absurd h (by decide)
  rename_i hi
  have hlt := not_le.mp hi
  split at h
  · rename_i ht
    cases h
    exact .stays _ node hlt (by simp [ht]) (Nat.lt_succ_self i)
  · rename_i ht
    cases h
    exact .begins hlt ht
  · rename_i ht
    have hvalue : i < b.skipValue i := by
      unfold Block.skipValue
      omega
    obtain ⟨⟨err, node'⟩, -, h⟩ := map_eq_some_iff.mp h
    by_cases hmem : err = -ENOMEM
    · cases (if_pos hmem).symm.trans h
      exact .ends _ _ hvalue.le fun h => absurd h (by decide)
    · cases (if_neg hmem).symm.trans h
      exact .stays _ node' hlt (by simp [ht]) hvalue
  · rename_i ht
    cases h
    exact .ends i 0 le_rfl fun _ => ⟨rfl, hlt, .inl ht⟩
  · rename_i ht
    cases h
    exact .ends i 0 le_rfl fun _ => ⟨rfl, hlt, .inr ht⟩
  · cases h
    exact .ends i _ le_rfl fun h => absurd h (by decide)

theorem move_some (hk : i < b.tokenEnd → Known b ⟨i, node :: parents⟩) :
    ∃ m, b.move ⟨i, node :: parents⟩ = some m := by
  unfold Block.move
  split
  · exact ⟨_, rfl⟩
  rename_i hi
  split
  case h_3 ht =>
    obtain ⟨a, ha⟩ := isSome_iff_exists.mp ((hk (not_le.mp hi)).prop ht)
    exact ⟨_, map_eq_some_iff.mpr ⟨a, ha, rfl⟩⟩
  all_goals exact ⟨_, rfl⟩

theorem known_of_parse (h : dtbParseStruct b (fuel + 1) i node parents tokens = some p)
    (hi : i < b.tokenEnd) : Known b ⟨i, node :: parents⟩ := by
  rw [dtbParseStruct, if_neg (not_le.mpr hi)] at h
  cases ht : b.token i with
  | nop | endNode | fdtEnd | unknown => exact ⟨by simp [ht], by simp [ht], by simp [ht]⟩
  | beginNode =>
    rw [ht] at h
    obtain ⟨child, hchild, h⟩ := bind_eq_some_iff.mp h
    obtain ⟨u, hname, -⟩ := bind_eq_some_iff.mp h
    refine ⟨fun _ => ?_, fun _ => ?_, by simp [ht]⟩
    · exact (ite_none_right_eq_some.mp hchild).1
    · exact (ite_none_right_eq_some.mp hname).1
  | prop =>
    rw [ht] at h
    obtain ⟨a, ha, -⟩ := bind_eq_some_iff.mp h
    exact ⟨by simp [ht], by simp [ht], fun _ => isSome_iff_exists.mpr ⟨a, ha⟩⟩

/-- An iteration that begins no node. -/
theorem parse_move (ht : i < b.tokenEnd → b.token i ≠ .beginNode) :
    dtbParseStruct b (fuel + 1) i node parents tokens =
      (b.move ⟨i, node :: parents⟩).bind fun
        | .next s => dtbParseStruct b fuel s.pos (s.nodes.headD node) parents (i :: tokens)
        | .close j ret => some ⟨ret, j, b.log i tokens⟩ := by
  by_cases hi : b.tokenEnd ≤ i
  · simp [dtbParseStruct, Block.move, Block.log, hi]
  cases hk : b.token i with
  | nop | endNode | fdtEnd | unknown => simp [dtbParseStruct, Block.move, Block.log, hi, hk]
  | beginNode => exact absurd hk (ht (not_le.mp hi))
  | prop =>
    cases hp : dtbParseProperty b i (node :: (parents ++ b.above)) with
    | none => simp [dtbParseStruct, Block.move, hi, hk, hp]
    | some a =>
      by_cases hmem : a.1 = -ENOMEM
      · simp [dtbParseStruct, Block.move, Block.log, hi, hk, hp, hmem]
      · simp [dtbParseStruct, Block.move, hi, hk, hp, hmem]

theorem parse_stays (ht : b.token i ≠ .beginNode)
    (h : b.move ⟨i, node :: parents⟩ = some (.next ⟨j, node' :: parents⟩)) :
    dtbParseStruct b (fuel + 1) i node parents tokens =
      dtbParseStruct b fuel j node' parents (i :: tokens) := by
  rw [parse_move fun _ => ht, h]
  rfl

theorem parse_ends (h : b.move ⟨i, node :: parents⟩ = some (.close j ret)) :
    dtbParseStruct b (fuel + 1) i node parents tokens = some ⟨ret, j, b.log i tokens⟩ := by
  have ht : i < b.tokenEnd → b.token i ≠ .beginNode := by
    intro hi hb
    simp [Block.move, not_le.mpr hi, hb] at h
  rw [parse_move ht, h]
  rfl

theorem parse_begins (ht : b.token i = .beginNode) (hi : i < b.tokenEnd)
    (hk : Known b ⟨i, node :: parents⟩) :
    dtbParseStruct b (fuel + 1) i node parents tokens =
      (dtbParseStruct b fuel (b.skipString (i + 1)) ⟨2, 1⟩ (node :: parents) (i :: tokens)).bind
        fun inner => dtbParseStruct b fuel (inner.token + 1) node parents inner.tokens := by
  have hname := hk.name ht
  simp [dtbParseStruct, not_le.mpr hi, ht, newDevNode, hk.memory ht, kstrncpyAlert, hname]

/-! ## 4. The call goes through the tokens that are reached -/

theorem Step.next (h : b.move s = some (.next s')) : Step b s s' := by
  rw [Step, Block.after, h, bind_some]

theorem after_close (h : b.move ⟨i, node :: parents⟩ = some (.close j ret)) :
    b.after ⟨i, node :: parents⟩ = if parents = [] then none else some ⟨j + 1, parents⟩ := by
  rw [Block.after, h, bind_some, tail_cons]

theorem Step.close (h : b.move ⟨i, node' :: node :: parents⟩ = some (.close j ret)) :
    Step b ⟨i, node' :: node :: parents⟩ ⟨j + 1, node :: parents⟩ :=
  (after_close h).trans (if_neg (cons_ne_nil _ _))

theorem reach_next {s₂ : At} (h : b.move s = some (.next s')) (hr : Steps b s s₂) :
    s₂ = s ∨ Steps b s' s₂ := by
  obtain rfl | ⟨s₁, hs, hr⟩ := hr.cases_head
  · exact .inl rfl
  · cases (Step.next h).symm.trans hs
    exact .inr hr

theorem reach_close {s₂ : At} (h : b.move ⟨i, node :: parents⟩ = some (.close j ret))
    (hr : Steps b ⟨i, node :: parents⟩ s₂) :
    s₂ = ⟨i, node :: parents⟩ ∨ parents ≠ [] ∧ Steps b ⟨j + 1, parents⟩ s₂ := by
  obtain rfl | ⟨s₁, hs, hr⟩ := hr.cases_head
  · exact .inl rfl
  · obtain ⟨hne, hs⟩ := ite_none_left_eq_some.mp ((after_close h).symm.trans hs)
    cases hs
    exact .inr ⟨hne, hr⟩

/-- **A call ends at a token that ends its node.** -/
theorem parse_end (h : dtbParseStruct b fuel i node parents tokens = some p) :
    ∃ k node', Steps b ⟨i, node :: parents⟩ ⟨k, node' :: parents⟩ ∧
      b.move ⟨k, node' :: parents⟩ = some (.close p.token p.ret) := by
  induction fuel generalizing i node parents tokens p with
  | zero => cases h
  | succ fuel ih =>
    obtain ⟨m, hm⟩ := move_some (known_of_parse h)
    rcases kind hm with ⟨_, _, hi, ht⟩ | ⟨hi, ht⟩ | ⟨_, _, _, hend⟩
    · obtain ⟨k, node₂, hr, hc⟩ := ih ((parse_stays ht hm).symm.trans h)
      exact ⟨k, node₂, hr.head (.next hm), hc⟩
    · rw [parse_begins ht hi (known_of_parse h hi)] at h
      obtain ⟨inner, hin, h⟩ := bind_eq_some_iff.mp h
      obtain ⟨k, node₂, hr, hc⟩ := ih hin
      obtain ⟨k', node₃, hr', hc'⟩ := ih h
      exact ⟨k', node₃, ((hr.head (.next hm)).tail (.close hc)).trans hr', hc'⟩
    · cases (parse_ends hm).symm.trans h
      exact ⟨i, node, .refl, hm⟩

/-- **What is reached is an iteration of the call**, or comes after it. -/
theorem parse_covers (h : dtbParseStruct b fuel i node parents tokens = some p) :
    (∀ t ∈ tokens, t ∈ p.tokens) ∧ ∀ s, Steps b ⟨i, node :: parents⟩ s →
      (s.pos < b.tokenEnd → s.pos ∈ p.tokens ∧ Known b s) ∨
        parents ≠ [] ∧ Steps b ⟨p.token + 1, parents⟩ s := by
  induction fuel generalizing i node parents tokens p with
  | zero => cases h
  | succ fuel ih =>
    have hknown := known_of_parse h
    obtain ⟨m, hm⟩ := move_some hknown
    rcases kind hm with ⟨_, _, hi, ht⟩ | ⟨hi, ht⟩ | ⟨_, _, _, _⟩
    · obtain ⟨hmono, hcov⟩ := ih ((parse_stays ht hm).symm.trans h)
      refine ⟨fun t ht => hmono t (mem_cons_of_mem i ht), fun s hr => ?_⟩
      rcases reach_next hm hr with rfl | hr
      · exact .inl fun hi => ⟨hmono i mem_cons_self, hknown hi⟩
      · exact hcov s hr
    · rw [parse_begins ht hi (hknown hi)] at h
      obtain ⟨inner, hin, h⟩ := bind_eq_some_iff.mp h
      obtain ⟨hmono, hcov⟩ := ih hin
      obtain ⟨hmono', hcov'⟩ := ih h
      refine ⟨fun t ht => hmono' t (hmono t (mem_cons_of_mem i ht)), fun s hr => ?_⟩
      rcases reach_next hm hr with rfl | hr
      · exact .inl fun hi => ⟨hmono' i (hmono i mem_cons_self), hknown hi⟩
      · rcases hcov s hr with hs | ⟨-, hr⟩
        · exact .inl fun hi => (hs hi).imp (hmono' _) id
        · exact hcov' s hr
    · cases (parse_ends hm).symm.trans h
      refine ⟨fun t => mem_log, fun s hr => (reach_close hm hr).imp ?_ id⟩
      rintro rfl hi
      exact ⟨by simp [Block.log, not_le.mpr hi], hknown hi⟩

/-- **A call has at most one iteration for each word it passes**, after the `n` before it. -/
structure Bounded (b : Block) (i n : Nat) (p : Parsed) : Prop where
  le : i ≤ p.token
  lt : ∀ t ∈ p.tokens, t < b.tokenEnd
  length : p.tokens.length ≤ n + (min (p.token + 1) b.tokenEnd - i)

theorem Bounded.step (h : Bounded b j (n + 1) p) (hi : i < b.tokenEnd) (hij : i < j) :
    Bounded b i n p := by
  obtain ⟨hle, hlt, hlen⟩ := h
  exact ⟨by omega, hlt, by omega⟩

/-- **The call returns** if it can do with every token that is reached. -/
theorem parse_some (hf : b.tokenEnd ≤ fuel + i) (ht : ∀ t ∈ tokens, t < b.tokenEnd)
    (hk : ∀ s, Steps b ⟨i, node :: parents⟩ s → s.pos < b.tokenEnd → Known b s) :
    ∃ p, dtbParseStruct b (fuel + 1) i node parents tokens = some p ∧ Bounded b i tokens.length p ∧
      ∀ t ∈ p.tokens, t ∈ tokens ∨ ∃ nodes, Steps b ⟨i, node :: parents⟩ ⟨t, nodes⟩ := by
  induction fuel generalizing i node parents tokens with
  | zero => exact ⟨_, if_pos (by omega), ⟨le_rfl, ht, Nat.le_add_right ..⟩, fun t => .inl⟩
  | succ fuel ih =>
    have hfirst : ∀ t ∈ i :: tokens, t ∈ tokens ∨ ∃ nodes, Steps b ⟨i, node :: parents⟩ ⟨t, nodes⟩ :=
      forall_mem_cons.mpr ⟨.inr ⟨_, .refl⟩, fun t => .inl⟩
    obtain ⟨m, hm⟩ := move_some (i := i) (hk _ .refl)
    rcases kind hm with ⟨j, node', hi, hb, hlt⟩ | ⟨hi, hb⟩ | ⟨j, ret, hle, _⟩
    · obtain ⟨p, hp, hbound, hin⟩ := ih (by omega) (forall_mem_cons.mpr ⟨hi, ht⟩)
        fun s hr => hk s (hr.head (.next hm))
      refine ⟨p, (parse_stays hb hm).trans hp, hbound.step hi hlt, fun t htok => ?_⟩
      rcases hin t htok with hmem | ⟨nodes, hr⟩
      · exact hfirst t hmem
      · exact .inr ⟨nodes, hr.head (.next hm)⟩
    · have hlt : i < b.skipString (i + 1) := by
        unfold Block.skipString
        omega
      obtain ⟨inner, hp, hbound, hin⟩ := ih (i := b.skipString (i + 1)) (by omega) (forall_mem_cons.mpr ⟨hi, ht⟩)
        fun s hr => hk s (hr.head (.next hm))
      obtain ⟨k, node₂, hr, hc⟩ := parse_end hp
      have hout := (hr.head (.next hm)).tail (.close hc)
      obtain ⟨hle, hlt', hlen⟩ := hbound.step hi hlt
      obtain ⟨p, hp', ⟨hle', hlt'', hlen'⟩, hin'⟩ := ih (i := inner.token + 1) (by omega) hlt'
        fun s hr => hk s (hout.trans hr)
      refine ⟨p, ?_, ⟨by omega, hlt'', by omega⟩, fun t htok => ?_⟩
      · rw [parse_begins hb hi (hk _ .refl hi), hp, bind_some, hp']
      rcases hin' t htok with hmem | ⟨nodes, hr⟩
      · rcases hin t hmem with hmem | ⟨nodes, hr⟩
        · exact hfirst t hmem
        · exact .inr ⟨nodes, hr.head (.next hm)⟩
      · exact .inr ⟨nodes, hout.trans hr⟩
    · refine ⟨_, parse_ends hm, ?_, fun t htok => ?_⟩
      · unfold Block.log
        split
        · exact ⟨hle, ht, Nat.le_add_right ..⟩
        · exact ⟨hle, forall_mem_cons.mpr ⟨by omega, ht⟩, by simp only [length_cons]; omega⟩
      · refine hfirst t ?_
        simp only [Block.log] at htok
        split at htok
        · exact mem_cons_of_mem i htok
        · exact htok

/-- One past the last byte that an iteration reads, as a token, a value length, a name offset or part
    of a unit name. -/
def Block.readEnd (b : Block) (i : Nat) : Nat :=
  match b.token i with
  | .beginNode => 4 * (i + 1) + b.strlen (i + 1) + 1
  | .prop => 4 * (i + 3)
  | _ => 4 * (i + 1)

/-- **The call returns after at most as many iterations as the block has words, and what it reads is in
    the block.** -/
def Bounds (b : Block) : Prop :=
  ∃ p, b.parse = some p ∧ p.tokens.length ≤ b.tokenEnd ∧ ∀ i ∈ p.tokens, b.readEnd i ≤ 4 * b.tokenEnd

theorem fits_iff (hi : s.pos < b.tokenEnd) (hk : Known b s) :
    Fits b s ↔ b.readEnd s.pos ≤ 4 * b.tokenEnd := by
  unfold Block.readEnd
  split
  · rename_i ht
    exact ⟨fun h => h.nameEnd ht, fun h => ⟨hk, fun _ => h, by simp [ht]⟩⟩
  · rename_i ht
    exact ⟨fun h => by have := h.propEnd ht; omega, fun h => ⟨hk, by simp [ht], fun _ => by omega⟩⟩
  · rename_i hn hp
    exact ⟨fun _ => by omega, fun _ => ⟨hk, fun h => absurd h hn, fun h => absurd h hp⟩⟩

/-- **The parser keeps to the block exactly if every token that is reached fits.** -/
theorem dtb_bounds_iff (b : Block) :
    Bounds b ↔ ∀ s, Reached b s → s.pos < b.tokenEnd → Fits b s := by
  constructor
  · rintro ⟨p, hp, -, hread⟩ s hr hi
    rcases (parse_covers hp).2 s hr with hs | ⟨hne, -⟩
    · exact (fits_iff hi (hs hi).2).mpr (hread _ (hs hi).1)
    · exact absurd rfl hne
  · intro hfits
    obtain ⟨p, hp, ⟨-, hlt, hlen⟩, hin⟩ := parse_some le_rfl (forall_mem_nil _)
      fun s hr hi => (hfits s hr hi).toKnown
    refine ⟨p, hp, by simp only [length_nil] at hlen; omega, fun i hmem => ?_⟩
    rcases hin i hmem with hnil | ⟨nodes, hr⟩
    · cases hnil
    · have hfit := hfits _ hr (hlt i hmem)
      exact (fits_iff (s := ⟨i, nodes⟩) (hlt i hmem) hfit.toKnown).mp hfit

/-- A block with these bytes, where every name offset leads to an empty name. -/
def byteBlock (bytes : List (BitVec 8)) : Block :=
  ⟨fun k => bytes.getD k 0, fun _ => 0, bytes.length / 4, fun _ => true, ⟨2, 1⟩, []⟩

/-- **An `FDT_PROP` in the last word**: its value length and its name offset are read behind the
    block. -/
theorem dtb_bounds_prop : ¬ Bounds (byteBlock [0, 0, 0, 3]) := by
  rintro ⟨p, hp, -, hread⟩
  have hlog : ((byteBlock [0, 0, 0, 3]).parse).map (·.tokens) = some [0] := by decide +kernel
  rw [hp] at hlog
  have hzero : 0 ∈ p.tokens := by
    rw [show p.tokens = [0] from some.inj hlog]
    exact mem_cons_self
  exact absurd (hread 0 hzero) (by decide +kernel)

/-! ## 6. Well-formed blocks -/

/-- The tokens of one level, to its end. -/
inductive Level (b : Block) : List Cells → Nat → Nat → Prop where
  | ends {nodes : List Cells} {i : Nat} (hi : i < b.tokenEnd)
    (ht : b.token i = .endNode ∨ b.token i = .fdtEnd) : Level b nodes i i
  | stays {nodes : List Cells} {i j : Nat} {s : At} (ht : b.token i ≠ .beginNode)
    (hm : b.move ⟨i, nodes⟩ = some (.next s)) (h : Level b s.nodes s.pos j) : Level b nodes i j
  | node {nodes : List Cells} {i j k : Nat} {s : At} (ht : b.token i = .beginNode)
    (hm : b.move ⟨i, nodes⟩ = some (.next s)) (h : Level b s.nodes s.pos k) (he : b.token k = .endNode)
    (h' : Level b nodes (k + 1) j) : Level b nodes i j

/-- **Every node is closed by its `FDT_END_NODE`, no token is unknown and no property fails.** -/
def WellFormed (b : Block) : Prop := ∃ j, Level b [b.top] 0 j

/-- **`dtb_parse` returns an error pointer, or the block is well formed.** -/
def Answers (b : Block) : Prop :=
  ∃ r, dtbParse 0xd00dfeed b = some r ∧ (r = .ok () → WellFormed b)

theorem move_ends (hi : i < b.tokenEnd) (ht : b.token i = .endNode ∨ b.token i = .fdtEnd)
    (nodes : List Cells) : b.move ⟨i, nodes⟩ = some (.close i 0) := by
  rcases ht with ht | ht
  · simp [Block.move, not_le.mpr hi, ht]
  · simp [Block.move, not_le.mpr hi, ht]

/-- **In a well-formed level every node inside is ended by its `FDT_END_NODE`.** -/
theorem Level.ended {nodes : List Cells} (h : Level b nodes i j) (hn : nodes = node :: parents)
    (hr : Steps b ⟨i, nodes⟩ s) :
    (∀ k ret, b.move s = some (.close k ret) →
      ret = 0 ∧ (b.token s.pos = .endNode ∨ s.pos = j ∧ s.nodes.length = nodes.length)) ∨
      parents ≠ [] ∧ Steps b ⟨j + 1, parents⟩ s := by
  induction h generalizing node parents with
  | ends hi ht =>
    subst hn
    have hm := move_ends hi ht (node :: parents)
    refine (reach_close hm hr).imp ?_ id
    rintro rfl k ret hclose
    cases hm.symm.trans hclose
    exact ⟨rfl, .inr ⟨rfl, rfl⟩⟩
  | stays ht hm _ ih =>
    subst hn
    rcases reach_next hm hr with rfl | hr
    · exact .inl fun k ret hclose => by cases hm.symm.trans hclose
    rcases kind hm with ⟨_, _, _, _⟩ | ⟨_, hb⟩ | _
    · exact ih rfl hr
    · exact absurd hb ht
  | node ht hm _ he _ ih ih' =>
    subst hn
    rcases reach_next hm hr with rfl | hr
    · exact .inl fun k ret hclose => by cases hm.symm.trans hclose
    rcases kind hm with ⟨_, _, _, hb⟩ | _ | _
    · exact absurd ht hb
    rcases ih rfl hr with hin | ⟨-, hr⟩
    · refine .inl fun k ret hclose => ?_
      obtain ⟨hret, hend | ⟨hpos, -⟩⟩ := hin k ret hclose
      · exact ⟨hret, .inl hend⟩
      · exact ⟨hret, .inl (hpos ▸ he)⟩
    · exact ih' rfl hr

end ChCore.Drivers
