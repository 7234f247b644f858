/-
  File: ChCore/Object/Capability.lean
  Subject: Objects, slots and their reference counts (`kernel/object/capability.c` and the
    `get_opaque`, `obj_get`, `obj_put` part of `kernel/object/cap_group.c`).

  The state `Caps` is the memory these functions share: the live objects, the live
  `struct object_slot`s, the slot tables of all cap_groups. A pointer is the number of the
  allocation it points to and is never reused; a read through a pointer to freed memory has no
  result. Two parts of the state are not in the memory of the kernel: `refs`, the references
  taken with `get_opaque` and not put yet, and `log`, the order in which deinit functions ran
  and objects were published and freed.

  A function returns `none` where the kernel stops: a `BUG_ON`, a `BUG`, a `NULL` or dangling
  pointer. What the memory allocator answers and what the heap holds behind the arrays is the
  `Env` of a call. The reference count is kept in `Nat`: it counts slots, which take memory, and
  references held by kernel paths.

  The groups live as long as the run: no call is made on a cap_group whose memory was released.
-/
import ChCore.Object.SlotTable

namespace ChCore.Capability

open Lib Common Function

/-! ## 1. The state -/

/-- `enum object_type`. -/
inductive ObjectType where
  | capGroup
  | thread
  | connection
  | notification
  | irq
  | pmo
  | vmspace
  deriving DecidableEq, Repr

/-- `obj_deinit_tbl`: the types that have a deinit function. -/
def ObjectType.hasDeinit : ObjectType → Bool
  | .thread => true
  | .irq => true
  | _ => false

abbrev ObjPtr := Nat

abbrev SlotPtr := Nat

abbrev GroupPtr := Nat

/-- `struct object`; `copies` is the list behind `copies_head`, from its first node on. -/
structure Object where
  type : ObjectType
  size : Nat
  copies : List SlotPtr
  refcount : Nat
  deriving DecidableEq, Repr

/-- `struct object_slot`. -/
structure ObjectSlot where
  slotId : Int
  capGroup : GroupPtr
  isvalid : Bool
  rights : Nat
  object : ObjPtr
  deriving DecidableEq, Repr

inductive Event where
  | publish (o : ObjPtr)
  | deinit (o : ObjPtr)
  | free (o : ObjPtr) (type : ObjectType)
  deriving DecidableEq, Repr

structure Caps where
  objects : ObjPtr → Option Object
  slots : SlotPtr → Option ObjectSlot
  groups : GroupPtr → Option (SlotTable SlotPtr)
  nextObj : ObjPtr
  nextSlot : SlotPtr
  nextGroup : GroupPtr
  refs : List ObjPtr
  log : List Event

def Caps.init : Caps := ⟨fun _ => none, fun _ => none, fun _ => none, 0, 0, 0, [], []⟩

/-- What a call gets from outside: the answers of the memory allocator, the heap behind the
    arrays of the table it works on. -/
structure Env where
  kz : Kzalloc
  kmalloc : Bool
  beyond : Beyond
  wild : Bool

/-- Every request for memory is granted. -/
def Env.ample : Env := ⟨Kzalloc.ok, true, Beyond.zero, false⟩

variable (env : Env) (s : Caps) (o : ObjPtr)

def Caps.setObject (x : Option Object) : Caps :=
  { s with objects := update s.objects o x }

def Caps.setSlot (p : SlotPtr) (x : Option ObjectSlot) : Caps :=
  { s with slots := update s.slots p x }

variable (g : GroupPtr)

def Caps.setGroup (t : SlotTable SlotPtr) : Caps :=
  { s with groups := update s.groups g (some t) }

def Caps.logged (e : Event) : Caps := { s with log := s.log ++ [e] }

/-! ## 2. Objects -/

/-- `obj_alloc`, where its `kzalloc` succeeds. -/
def objAlloc (type : ObjectType) (size : Nat) : Caps :=
  { s.setObject s.nextObj (some { type, size, copies := [], refcount := 0 }) with
    nextObj := s.nextObj + 1 }

/-- `kfree(object)`. -/
def kfreeObject (ob : Object) : Caps :=
  (s.setObject o none).logged (.free o ob.type)

variable (slotId : Int)

/-- `get_opaque`: the object (`none` = `NULL`) and the state, and the accesses to the table.
    `type = none` is `type_valid == false`. -/
def getOpaque (type : Option ObjectType) : Option (Option ObjPtr × Caps) × List Access :=
  match s.groups g with
  | none => (none, [])
  | some t =>
    match isValidSlotId env.beyond env.wild t slotId with
    | (none, acc) => (none, acc)
    | (some false, acc) => (some (none, s), acc)
    | (some true, acc) =>
      -- `get_slot` answers `NULL` for an id past the table, which is then dereferenced
      match getSlot t slotId with
      | none => (none, acc)
      | some p =>
        let acc := acc ++ [⟨.slots, slotId.toNat, t.slots.length⟩]
        match s.slots p with
        | none => (none, acc)
        | some slot =>
          if !slot.isvalid then (none, acc)
          else match s.objects slot.object with
            | none => (none, acc)
            | some ob =>
              if type = none ∨ type = some ob.type then
                (some (some slot.object,
                  { s.setObject slot.object (some { ob with refcount := ob.refcount + 1 }) with
                    refs := slot.object :: s.refs }), acc)
              else (some (none, s), acc)

def objGet (type : ObjectType) : Option (Option ObjPtr × Caps) :=
  (getOpaque env s g slotId (some type)).1

def objPut : Option Caps :=
  match s.objects o with
  | none => none
  | some ob =>
    let s := { s with refs := s.refs.erase o }
    if ob.refcount = 1 then some (kfreeObject s o ob)
    else some (s.setObject o (some { ob with refcount := ob.refcount - 1 }))

/-! ## 3. Capabilities -/

/-- `free_slot_id` with the `int` its callers pass: a negative id hits none of the arrays. -/
def freeSlotIdInt (t : SlotTable P) (slotId : Int) : SlotTable P :=
  if slotId < 0 then t else freeSlotId t slotId.toNat

/-- `cap_alloc`: the returned `int` and the state. -/
def capAlloc (o : ObjPtr) (rights : Nat) : Option (Int × Caps) :=
  match s.objects o, s.groups g with
  | some ob, some t =>
    match allocSlotId env.kz env.beyond t with
    | none => none
    | some r =>
      if r.ret < 0 then some (-ENOMEM, s.setGroup g r.table)
      else if !env.kmalloc then some (-ENOMEM, s.setGroup g (freeSlotIdInt r.table r.ret))
      else
        let p := s.nextSlot
        let slot : ObjectSlot := ⟨r.ret, g, true, rights, o⟩
        -- `BUG_ON(object->refcount != 0)`
        if ob.refcount ≠ 0 then none
        else match installSlot env.beyond r.table r.ret p with
          | none => none
          | some t' =>
            some (r.ret,
              { (((s.setObject o (some { ob with copies := p :: ob.copies, refcount := 1 })).setSlot
                  p (some slot)).setGroup g t').logged (.publish o) with
                nextSlot := p + 1 })
  | _, _ => none

/-- `__cap_free`: the lock arguments change no data. -/
def capFree : Option (Int × Caps) :=
  match s.groups g with
  | none => none
  | some t =>
    match getSlot t slotId with
    | none => some (-ECAPBILITY, s)
    | some p =>
      match s.slots p with
      | none => none
      | some slot =>
        if !slot.isvalid then some (-ECAPBILITY, s)
        else match s.objects slot.object with
          | none => none
          | some ob =>
            let o := slot.object
            let ob' := { ob with copies := ob.copies.erase p, refcount := ob.refcount - 1 }
            let s := (s.setGroup g (freeSlotIdInt t slotId)).setSlot p none
            if ob.refcount = 1 then
              let s := if ob.type.hasDeinit then s.logged (.deinit o) else s
              -- the deinit functions leave the count alone; `BUG_ON(!list_empty(copies_head))`
              if ob'.copies ≠ [] then none else some (0, kfreeObject s o ob')
            else some (0, s.setObject o (some ob'))

/-- `list_add(new, node)`: `new` right behind `node`. -/
def insertBehind (node new : SlotPtr) : List SlotPtr → List SlotPtr
  | [] => []
  | p :: ps => if p = node then p :: new :: ps else p :: insertBehind node new ps

/-- `cap_copy`. The failure of `alloc_slot_id` is compared with `-1`, which it never returns. -/
def capCopy (src dst : GroupPtr) (srcSlotId : Int)
    (newRights : Option Nat) : Option (Int × Caps) :=
  match s.groups src, s.groups dst with
  | some tsrc, some tdst =>
    match getSlot tsrc srcSlotId with
    | none => some (-ECAPBILITY, s)
    | some p =>
      match s.slots p with
      | none => none
      | some slot =>
        if !slot.isvalid then some (-ECAPBILITY, s)
        else match allocSlotId env.kz env.beyond tdst with
          | none => none
          | some r =>
            if r.ret = -1 then some (-ENOMEM, s.setGroup dst r.table)
            else if !env.kmalloc then some (-ENOMEM, s.setGroup dst (freeSlotIdInt r.table r.ret))
            else
              -- the table may have moved: `get_slot` again
              match getSlot (if src = dst then r.table else tsrc) srcSlotId with
              | none => none
              | some p =>
                match s.slots p with
                | none => none
                | some slot =>
                  match s.objects slot.object with
                  | none => none
                  | some ob =>
                    let q := s.nextSlot
                    let rights := newRights.getD slot.rights
                    let slot' : ObjectSlot := ⟨r.ret, dst, true, rights, slot.object⟩
                    let ob' := { ob with
                      copies := insertBehind p q ob.copies, refcount := ob.refcount + 1 }
                    match installSlot env.beyond r.table r.ret q with
                    | none => none
                    | some t' =>
                      some (r.ret,
                        { ((s.setObject slot.object (some ob')).setSlot q (some slot')).setGroup
                            dst t' with nextSlot := q + 1 })
  | _, _ => none

def capMove (src dst : GroupPtr) (srcSlotId : Int)
    (newRights : Option Nat) : Option (Int × Caps) :=
  match capCopy env s src dst srcSlotId newRights with
  | none => none
  | some (r, s') =>
    if r < 0 then some (r, s')
    else match capFree s' src srcSlotId with
      | none => none
      -- `BUG_ON(r)`
      | some (r', s'') => if r' ≠ 0 then none else some (r', s'')

/-- The walk of `obj_free` over the copies list. `for_each_in_list_safe` has read the next node
    before `__cap_free` unlinks the current one, so it visits the nodes the list had. -/
def freeCopies : List SlotPtr → Caps → Option Caps
  | [], s => some s
  | p :: ps, s =>
    match s.slots p with
    | none => none
    | some slot =>
      match capFree s slot.capGroup slot.slotId with
      | none => none
      -- `BUG_ON(r != 0)`
      | some (r, s') => if r ≠ 0 then none else freeCopies ps s'

def objFree : Option Caps :=
  match s.objects o with
  | none => none
  | some ob => if ob.refcount = 0 then some (kfreeObject s o ob) else freeCopies ob.copies s

def capRevoke : Option (Int × Caps) :=
  match (getOpaque env s g slotId none).1 with
  | none => none
  | some (none, s') => some (-ECAPBILITY, s')
  | some (some o, s') =>
    match objFree s' o with
    | none => none
    | some s'' =>
      match objPut s'' o with
      | none => none
      | some s''' => some (0, s''')

/-! ## 4. Runs -/

/-- The calls of a run. `group` makes a cap_group with a table of any size. -/
inductive CapAct where
  | group (env : Env) (size : Nat)
  | alloc (type : ObjectType) (size : Nat)
  | publish (env : Env) (g : GroupPtr) (o : ObjPtr) (rights : Nat)
  | copy (env : Env) (src dst : GroupPtr) (srcSlotId : Int) (newRights : Option Nat)
  | move (env : Env) (src dst : GroupPtr) (srcSlotId : Int) (newRights : Option Nat)
  | free (g : GroupPtr) (slotId : Int)
  | revoke (env : Env) (g : GroupPtr) (slotId : Int)
  | get (env : Env) (g : GroupPtr) (slotId : Int) (type : ObjectType)
  | put (o : ObjPtr)

def BASE_OBJECT_NUM : Nat := 64

/-- A new cap_group with its slot table (`cap_group_init`). -/
def newGroup (size : Nat) : Option Caps :=
  match slotTableInit env.kz size with
  | none => none
  -- `BUG_ON(slot_table_init(...))`
  | some (.error _) => none
  | some (.ok t) => some { s.setGroup s.nextGroup t with nextGroup := s.nextGroup + 1 }

/-- **One call.** `obj_put` is called with a reference that is held. -/
def capStep : CapAct → Option Caps
  | .group env size => newGroup env s size
  | .alloc type size => some (objAlloc s type size)
  | .publish env g o rights => (capAlloc env s g o rights).map (·.2)
  | .copy env src dst id rights => (capCopy env s src dst id rights).map (·.2)
  | .move env src dst id rights => (capMove env s src dst id rights).map (·.2)
  | .free g id => (capFree s g id).map (·.2)
  | .revoke env g id => (capRevoke env s g id).map (·.2)
  | .get env g id type => (objGet env s g id type).map (·.2)
  | .put o => if o ∈ s.refs then objPut s o else none

/-! ## 5. Counting the slots of an object -/

/-- The slots of one table that point to `o`. -/
def pointingIn (t : SlotTable SlotPtr) (o : ObjPtr) : List SlotPtr :=
  (t.slots.filterMap id).filter (fun p => (s.slots p).any (fun sl => sl.object == o))

/-- **The slots in all slot tables that point to `o`.** -/
def pointing : List SlotPtr :=
  (List.range s.nextGroup).flatMap (fun g => (s.groups g).elim [] (fun t => pointingIn s t o))

/-- `o` was published by `cap_alloc`. -/
def Published : Prop := Event.publish o ∈ s.log
  deriving Decidable

end ChCore.Capability
