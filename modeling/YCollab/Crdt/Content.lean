import YCollab.Lib0.Any
import YCollab.Lib0.Utf16

/-!
# Item content

`internal/crdt/content.go`, with the IDs of `id.go` and the type refs of `type.go`: the payload of
an item, its length in clock units, how it is cut in two, and its wire form.

`Content.splice` returns both halves where the source truncates its receiver and returns the
tail. Merging two contents (`MergeWith`) is never called by the document and is left out.
-/

namespace YCollab.Crdt

open Lib0

/-- One clock tick of one client: an element of content. -/
@[ext] structure ID where
  client : ℕ
  clock : ℕ
  deriving DecidableEq, Repr

/-- The unit after `x`. -/
def ID.next (x : ID) : ID := ⟨x.client, x.clock + 1⟩

/-- The seven shared types a ContentType can hold. -/
inductive TypeRef where
  | array | map | text | xmlElement | xmlFragment | xmlHook | xmlText
  deriving DecidableEq, Repr

namespace TypeRef

/-- The number on the wire. -/
def toNat : TypeRef → ℕ
  | array => 0
  | map => 1
  | text => 2
  | xmlElement => 3
  | xmlFragment => 4
  | xmlHook => 5
  | xmlText => 6

/-- The type a number names. -/
def ofNat? : ℕ → Option TypeRef
  | 0 => some array
  | 1 => some map
  | 2 => some text
  | 3 => some xmlElement
  | 4 => some xmlFragment
  | 5 => some xmlHook
  | 6 => some xmlText
  | _ => none

/-- Whether a node or hook name follows on the wire. -/
def hasName : TypeRef → Bool
  | xmlElement | xmlHook => true
  | _ => false

@[simp] theorem ofNat?_toNat (r : TypeRef) : ofNat? r.toNat = some r := by cases r <;> rfl

theorem toNat_le (r : TypeRef) : r.toNat ≤ 6 := by cases r <;> decide

end TypeRef

/-- The payload of an item. -/
inductive Content where
  /-- A run of deleted clock units that carries no value. -/
  | deleted (length : ℕ)
  /-- Legacy JSON values, as their raw text. -/
  | json (values : List Bytes)
  | binary (data : Bytes)
  /-- Text; its length is in UTF-16 code units. -/
  | string (str : Bytes)
  | embed (json : Bytes)
  | format (key value : Bytes)
  /-- A nested shared type, with the name an XML element or hook has. Its children are items of
  their own. -/
  | type (ref : TypeRef) (name : Bytes)
  | any (values : List Any)
  /-- A subdocument reference. -/
  | doc (guid : Bytes) (opts : Any)

/-- `splitUTF16` past its first test: walk the runes that are left, `units` code units into the
string with `head` behind. It fails when the cut falls inside a surrogate pair. -/
def splitLoop (n : ℕ) : List Rune → ℕ → Bytes → Option (Bytes × Bytes)
  | [], units, head => if units = n then some (head, []) else none
  | r :: rs, units, head =>
    if units = n then some (head, (r :: rs).flatMap Rune.bytes)
    else if units + r.units > n then none
    else splitLoop n rs (units + r.units) (head ++ r.bytes)

/-- Split a string after `n` UTF-16 code units. -/
def splitUTF16 (s : Bytes) (n : ℕ) : Option (Bytes × Bytes) :=
  if n = 0 then some ([], s) else splitLoop n (runes s) 0 []

namespace Content

/-- The five bits that name the content on the wire. -/
def ref : Content → ℕ
  | deleted _ => 1
  | json _ => 2
  | binary _ => 3
  | string _ => 4
  | embed _ => 5
  | format _ _ => 6
  | type _ _ => 7
  | any _ => 8
  | doc _ _ => 9

/-- The length in clock units. -/
def len : Content → ℕ
  | deleted n => n
  | json values => values.length
  | string s => utf16Length s
  | any values => values.length
  | _ => 1

/-- Whether the content marks its own item deleted. -/
def isDeleted : Content → Bool
  | deleted _ => true
  | _ => false

/-- Cut the content after `offset` units: the head that stays and the tail. -/
def splice : Content → ℕ → Except Err (Content × Content)
  | deleted n, offset => .ok (deleted offset, deleted (n - offset))
  | json values, offset => .ok (json (values.take offset), json (values.drop offset))
  | any values, offset => .ok (any (values.take offset), any (values.drop offset))
  | string s, offset =>
    match splitUTF16 s offset with
    | some (head, tail) => .ok (string head, string tail)
    | none => .error .splitSurrogate
  | _, _ => .error .notSplittable

/-- Append the content, skipping its first `offset` units. -/
def write (e : Encoder) (offset : ℕ) : Content → Encoder
  | deleted n => e.writeVarUint (n - offset)
  | json values =>
    (values.drop offset).foldl Encoder.writeVarString (e.writeVarUint (values.length - offset))
  | binary data => e.writeVarUint8Array data
  | string s =>
    if offset = 0 then e.writeVarString s
    else
      match splitUTF16 s offset with
      | none => e.writeVarString s
      | some (_, tail) => e.writeVarString tail
  | embed j => e.writeVarString j
  | format key value => (e.writeVarString key).writeVarString value
  | type r name =>
    let e := e.writeVarUint r.toNat
    if r.hasName then e.writeVarString name else e
  | any values =>
    (values.drop offset).foldl Encoder.writeAny (e.writeVarUint (values.length - offset))
  | doc guid opts => (e.writeVarString guid).writeAny opts

end Content

/-- `maxLen` caps decoded lengths. -/
def maxLen : ℕ := 2 ^ 31

/-- A varUint that will have to be written back out. -/
def readSafeVarUint : Read ℕ := do
  let n ← readVarUint
  if n > maxSafeInteger then Read.fail .integerOutOfRange else pure n

/-- A length prefix. -/
def readLen : Read ℕ := do
  let n ← readVarUint
  if n > maxLen then Read.fail .negativeLength else pure n

/-- `readAbstractType`: the type ref and the name that some of them carry. -/
def readAbstractType : Read Content := do
  let n ← readVarUint
  match TypeRef.ofNat? n with
  | none => Read.fail .unknownTypeRef
  | some r =>
    if r.hasName then do
      let name ← readVarString
      pure (.type r name)
    else pure (.type r [])

/-- The content named by the low five bits of the info byte. -/
def readContent (ref : ℕ) : Read Content :=
  match ref with
  | 1 => do
    let n ← readLen
    pure (.deleted n)
  | 2 => do
    let n ← readLen
    Read.checkRemaining n
    let values ← Read.times readVarString n
    pure (.json values)
  | 3 => do
    let b ← readVarUint8Array
    pure (.binary b)
  | 4 => do
    let s ← readVarString
    pure (.string s)
  | 5 => do
    let s ← readVarString
    pure (.embed s)
  | 6 => do
    let key ← readVarString
    let value ← readVarString
    pure (.format key value)
  | 7 => readAbstractType
  | 8 => do
    let n ← readLen
    Read.checkRemaining n
    let values ← Read.times readAny n
    pure (.any values)
  | 9 => do
    let guid ← readVarString
    let opts ← readAny
    pure (.doc guid opts)
  | _ => Read.fail .unknownContentRef

end YCollab.Crdt
