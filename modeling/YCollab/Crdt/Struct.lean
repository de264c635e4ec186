import YCollab.Crdt.Content

/-!
# Structs

`internal/crdt/struct.go`: the entries of a client's clock space and their wire form. An item
keeps what the wire said (`origin`, `rightOrigin`, `wireParent`, `hasParentSub`, `parentSub`,
`content`) and the shared type it was resolved to (`parent`). The links to its neighbours and its
deleted flag change while the item stays put, so they belong to the document (`Crdt.Doc`), which
keeps them by item.

A shared type is named by what reaches it (`TypeID`): a root name, or the item that holds it.
-/

namespace YCollab.Crdt

open Lib0

/-- A shared type: a root type by its name, a nested one by the item that holds it. -/
inductive TypeID where
  | root (name : Bytes)
  | nested (owner : ID)
  deriving DecidableEq, Repr

/-- A list of items: the sequence of a type, or the entries of one of its keys. -/
@[ext]
structure ListID where
  parent : TypeID
  key : Option Bytes
  deriving DecidableEq, Repr

/-- The parent as it appears on the wire. -/
inductive ParentInfo where
  | root (name : Bytes)
  | item (id : ID)
  deriving DecidableEq, Repr

/-- One YATA operation: a run of content inserted between two known neighbours. -/
structure Item where
  id : ID
  /-- The left neighbour at insertion time. -/
  origin : Option ID
  /-- The right neighbour at insertion time. -/
  rightOrigin : Option ID
  /-- The parent as decoded, absent from the wire when a neighbour can tell it. -/
  wireParent : Option ParentInfo
  /-- The info bit: the item is an entry of a map. -/
  hasParentSub : Bool
  /-- The key of the entry, once it is known. -/
  parentSub : Bytes
  content : Content
  /-- The type the item hangs off, once it is resolved. -/
  parent : Option TypeID := none

/-- One entry of a client's clock space. -/
inductive Struct where
  /-- A placeholder for an item whose content has been garbage collected. -/
  | gc (id : ID) (length : ℕ)
  /-- A clock range the sender deliberately did not send. -/
  | skip (id : ID) (length : ℕ)
  | item (it : Item)

namespace Item

/-- The number of clocks the item takes. -/
def len (it : Item) : ℕ := it.content.len

/-- The key of a map entry, nothing for an element of a sequence. -/
def key (it : Item) : Option Bytes := if it.hasParentSub then some it.parentSub else none

/-- The `i`-th clock unit of the item. -/
def unit (it : Item) (i : ℕ) : ID := ⟨it.id.client, it.id.clock + i⟩

/-- The clock units of the item. -/
def units (it : Item) : List ID := (List.range it.len).map it.unit

/-- The ID of the item's final clock unit. -/
def lastID (it : Item) : ID := ⟨it.id.client, it.id.clock + it.len - 1⟩

/-- What is left of an item when its tail is cut off. -/
def head (it : Item) (content : Content) : Item := { it with content }

/-- The tail of an item from its `offset`-th unit on, inserted after the unit before. -/
def tail (it : Item) (offset : ℕ) (content : Content) : Item :=
  { it with
    id := ⟨it.id.client, it.id.clock + offset⟩
    origin := some ⟨it.id.client, it.id.clock + offset - 1⟩
    content }

@[simp] theorem unit_zero (it : Item) : it.unit 0 = it.id := rfl

@[simp] theorem head_id (it : Item) (c : Content) : (it.head c).id = it.id := rfl

@[simp] theorem tail_id (it : Item) (k : ℕ) (c : Content) : (it.tail k c).id = it.unit k := rfl

theorem key_eq_some {it : Item} {k : Bytes} :
    it.key = some k ↔ it.hasParentSub = true ∧ it.parentSub = k := by
  unfold key
  cases it.hasParentSub <;> simp

theorem key_eq_none {it : Item} : it.key = none ↔ it.hasParentSub = false := by
  unfold key
  cases it.hasParentSub <;> simp

theorem mem_units {it : Item} {x : ID} :
    x ∈ it.units ↔ x.client = it.id.client ∧ it.id.clock ≤ x.clock ∧
      x.clock < it.id.clock + it.len := by
  simp only [units, List.mem_map, List.mem_range, unit]
  constructor
  · rintro ⟨i, hi, rfl⟩
    exact ⟨rfl, by simp, by simpa using hi⟩
  · rintro ⟨hc, h1, h2⟩
    refine ⟨x.clock - it.id.clock, by omega, ?_⟩
    cases x
    simp only [ID.mk.injEq] at hc h1 ⊢
    exact ⟨hc.symm, by omega⟩

end Item

namespace Struct

/-- `StructID`. -/
def id : Struct → ID
  | gc id _ => id
  | skip id _ => id
  | item it => it.id

/-- `StructLen`: the clock units the struct occupies. -/
def len : Struct → ℕ
  | gc _ n => n
  | skip _ n => n
  | item it => it.len

/-- Whether it is a Skip. -/
def isSkip : Struct → Bool
  | skip _ _ => true
  | _ => false

/-- The first clock past the struct. -/
def endClock (s : Struct) : ℕ := s.id.clock + s.len

@[simp] theorem id_item (it : Item) : (item it).id = it.id := rfl

@[simp] theorem len_item (it : Item) : (item it).len = it.len := rfl

@[simp] theorem id_gc (id : ID) (n : ℕ) : (gc id n).id = id := rfl

@[simp] theorem len_gc (id : ID) (n : ℕ) : (gc id n).len = n := rfl

@[simp] theorem endClock_item (it : Item) : (item it).endClock = it.id.clock + it.len := rfl

end Struct

/-- An identifier: its client and its clock. -/
def writeID (e : Encoder) (id : ID) : Encoder := (e.writeVarUint id.client).writeVarUint id.clock

/-- `readID`. -/
def readID : Read ID := do
  let client ← readSafeVarUint
  let clock ← readSafeVarUint
  pure ⟨client, clock⟩

/-- `writeParentInfo`: the resolved parent if there is one, what the wire said otherwise. -/
def Item.writeParentInfo (e : Encoder) (it : Item) : Encoder :=
  match it.parent with
  | some (.nested owner) => writeID (e.writeVarUint 0) owner
  | some (.root name) => (e.writeVarUint 1).writeVarString name
  | none =>
    match it.wireParent with
    | none => (e.writeVarUint 1).writeVarString []
    | some (.root name) => (e.writeVarUint 1).writeVarString name
    | some (.item id) => writeID (e.writeVarUint 0) id

/-- The origin an item is written with: a block that starts in the middle of an item
synthesises one that refers to the item itself. -/
def Item.writeOrigin (it : Item) (offset : ℕ) : Option ID :=
  if offset > 0 then some ⟨it.id.client, it.id.clock + offset - 1⟩ else it.origin

/-- The info byte: the content ref and the flags of the optional fields. -/
def infoByte (ref : ℕ) (hasOrigin hasRightOrigin hasParentSub : Bool) : ℕ :=
  ref + (if hasOrigin then 0x80 else 0) + (if hasRightOrigin then 0x40 else 0) +
    (if hasParentSub then 0x20 else 0)

/-- An identifier that may be missing, which the info byte tells. -/
def writeOptionID (e : Encoder) : Option ID → Encoder
  | none => e
  | some id => writeID e id

/-- `Item.write`, without the first `offset` units. -/
def Item.write (e : Encoder) (offset : ℕ) (it : Item) : Encoder :=
  let origin := it.writeOrigin offset
  let e := e.writeUint8 (UInt8.ofNat
    (infoByte it.content.ref origin.isSome it.rightOrigin.isSome it.hasParentSub))
  let e := writeOptionID e origin
  let e := writeOptionID e it.rightOrigin
  let e :=
    if origin.isNone ∧ it.rightOrigin.isNone then
      let e := it.writeParentInfo e
      if it.hasParentSub then e.writeVarString it.parentSub else e
    else e
  it.content.write e offset

/-- Append the struct, skipping its first `offset` clock units. -/
def Struct.write (e : Encoder) (offset : ℕ) : Struct → Encoder
  | .gc _ n => (e.writeUint8 0).writeVarUint (n - offset)
  | .skip _ n => (e.writeUint8 10).writeVarUint (n - offset)
  | .item it => it.write e offset

/-- An ID that is on the wire only when its flag is set. -/
def readOptionID (present : Bool) : Read (Option ID) :=
  if present then do
    let id ← readID
    pure (some id)
  else pure none

/-- The parent of an item with neither neighbour. -/
def readParentInfo : Read ParentInfo := do
  let kind ← readVarUint
  if kind = 1 then do
    let name ← readVarString
    pure (.root name)
  else if kind = 0 then do
    let id ← readID
    pure (.item id)
  else Read.fail .corruptUpdate

/-- The parent info and the key, which are on the wire only when both neighbours are absent. -/
def readParent (absent hasParentSub : Bool) : Read (Option ParentInfo × Bytes) :=
  if absent then do
    let parent ← readParentInfo
    if hasParentSub then do
      let sub ← readVarString
      pure (some parent, sub)
    else pure (some parent, [])
  else pure (none, [])

/-- The item case of `readStruct`. -/
def readItem (id : ID) (info : ℕ) : Read Struct := do
  let hasParentSub : Bool := info / 0x20 % 2 = 1
  let origin ← readOptionID (info / 0x80 % 2 = 1)
  let rightOrigin ← readOptionID (info / 0x40 % 2 = 1)
  let (wireParent, parentSub) ← readParent (origin.isNone && rightOrigin.isNone) hasParentSub
  let content ← readContent (info % 0x20)
  pure (.item { id, origin, rightOrigin, wireParent, hasParentSub, parentSub, content })

/-- One struct of `client`'s clock space starting at `clock`. The flags of a GC or Skip struct
must be clear. -/
def readStruct (client clock : ℕ) : Read Struct := do
  let info ← readUint8
  let id : ID := ⟨client, clock⟩
  let ref := info.toNat % 0x20
  if ref = 0 then
    if info.toNat ≥ 0x20 then Read.fail .corruptUpdate else do
      let n ← readLen
      pure (.gc id n)
  else if ref = 10 then
    if info.toNat ≥ 0x20 then Read.fail .corruptUpdate else do
      let n ← readLen
      pure (.skip id n)
  else readItem id info.toNat

end YCollab.Crdt
