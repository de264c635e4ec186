import Mathlib.Algebra.BigOperators.Group.List.Basic
import YCollab.Crdt.History

/-!
# What a document costs to hold

`internal/crdt/memory.go`: an estimate of the heap a document takes, from the sizes of the headers
and of what they point at. A switch over the type of a content or of an any value counts a type it
does not know as one interface word.

The decoder builds an object as an `Object`, which `anyBytes` does not know, and the options of a
subdocument are not looked at. So the strings in objects and options are not counted (`hidden`), and
the estimate covers the content exactly as long as they are no more than the headers (`headers`).
-/

namespace YCollab.Crdt

open Lib0

/-- The sizes the compiler gives to the fixed parts; the defaults are those of a 64-bit machine. -/
structure Sizes where
  item : ℕ := 112
  gc : ℕ := 24
  id : ℕ := 16
  parent : ℕ := 40
  iface : ℕ := 16
  sliceHeader : ℕ := 24
  mapEntry : ℕ := 32
  string : ℕ := 16
  contentDeleted : ℕ := 8
  contentJSON : ℕ := 24
  contentBinary : ℕ := 24
  contentString : ℕ := 16
  contentEmbed : ℕ := 16
  contentFormat : ℕ := 32
  contentType : ℕ := 8
  contentAny : ℕ := 24
  contentDoc : ℕ := 32
  abstractType : ℕ := 64

section Any

variable (z : Sizes)

mutual

/-- `anyBytes`. An array is walked; its case for a `map[string]any` is never reached, and an object
is one word. -/
def anyBytes : Any → ℕ
  | .string s => z.iface + s.length
  | .bytes b => z.iface + b.length
  | .array l => z.iface + anysBytes l
  | _ => z.iface

/-- The same for a list. -/
def anysBytes : List Any → ℕ
  | [] => 0
  | v :: l => anyBytes v + anysBytes l

end

mutual

/-- The interface words that are counted for a value. -/
def anyHeaders : Any → ℕ
  | .array l => z.iface + anysHeaders l
  | _ => z.iface

/-- The same for a list. -/
def anysHeaders : List Any → ℕ
  | [] => 0
  | v :: l => anyHeaders v + anysHeaders l

end

end Any

mutual

/-- The bytes of the strings and byte arrays in a value, at any depth. -/
def anyHeld : Any → ℕ
  | .string s => s.length
  | .bytes b => b.length
  | .array l => anysHeld l
  | .object fields => fieldsHeld fields
  | _ => 0

/-- The same for a list. -/
def anysHeld : List Any → ℕ
  | [] => 0
  | v :: l => anyHeld v + anysHeld l

/-- What the fields of an object hold. -/
def fieldsHeld : List (Bytes × Any) → ℕ
  | [] => 0
  | (key, v) :: l => key.length + anyHeld v + fieldsHeld l

end

mutual

/-- The bytes of a value that are inside an object. -/
def anyHidden : Any → ℕ
  | .array l => anysHidden l
  | .object fields => fieldsHeld fields
  | _ => 0

/-- The same for a list. -/
def anysHidden : List Any → ℕ
  | [] => 0
  | v :: l => anyHidden v + anysHidden l

end

mutual

theorem anyBytes_add_hidden (z : Sizes) :
    ∀ v, anyBytes z v + anyHidden v = anyHeaders z v + anyHeld v
  | .array l => by
    have := anysBytes_add_hidden z l
    simp only [anyBytes, anyHidden, anyHeaders, anyHeld]
    omega
  | .undefined | .null | .bool _ | .int _ | .float32 _ | .float64 _ | .bigInt _ | .string _
  | .bytes _ | .object _ => by simp [anyBytes, anyHidden, anyHeaders, anyHeld]

theorem anysBytes_add_hidden (z : Sizes) :
    ∀ l, anysBytes z l + anysHidden l = anysHeaders z l + anysHeld l
  | [] => rfl
  | v :: l => by
    have hv := anyBytes_add_hidden z v
    have hl := anysBytes_add_hidden z l
    simp only [anysBytes, anysHidden, anysHeaders, anysHeld]
    omega

end

/-! ### Contents -/

namespace Content

/-- `contentBytes`; `index` is what the keys of a shared type take. -/
def bytes (z : Sizes) (index : ℕ) : Content → ℕ
  | deleted _ => z.contentDeleted
  | string str => z.contentString + str.length
  | binary data => z.contentBinary + data.length
  | embed text => z.contentEmbed + text.length
  | format key value => z.contentFormat + (key.length + value.length)
  | json values => z.contentJSON + (values.map fun s => z.string + s.length).sum
  | any values => z.contentAny + anysBytes z values
  | type _ name => z.contentType + (z.abstractType + name.length + index)
  | doc guid _ => z.contentDoc + guid.length

/-- The bytes of the strings and byte arrays in a content. -/
def held : Content → ℕ
  | deleted _ => 0
  | string str => str.length
  | binary data => data.length
  | embed text => text.length
  | format key value => key.length + value.length
  | json values => (values.map List.length).sum
  | any values => anysHeld values
  | type _ name => name.length
  | doc guid opts => guid.length + anyHeld opts

/-- What is counted for a content besides its strings and byte arrays. -/
def headers (z : Sizes) (index : ℕ) : Content → ℕ
  | deleted _ => z.contentDeleted
  | string _ => z.contentString
  | binary _ => z.contentBinary
  | embed _ => z.contentEmbed
  | format _ _ => z.contentFormat
  | json values => z.contentJSON + values.length * z.string
  | any values => z.contentAny + anysHeaders z values
  | type _ _ => z.contentType + z.abstractType + index
  | doc _ _ => z.contentDoc

end Content

/-! ### Structs and documents -/

namespace Doc

/-- The keys of a shared type that have an item. -/
def keysOf (d : Doc) (t : TypeID) : List Bytes :=
  ((d.store.entries.flatMap Prod.snd).filterMap fun
    | .item it =>
      if it.parent = some t ∧ (d.mapItems t it.parentSub).isSome then some it.parentSub else none
    | _ => none).eraseDups

/-- What the keys of the type an item holds take. -/
def indexBytes (z : Sizes) (d : Doc) (id : ID) : ℕ :=
  ((d.keysOf (.nested id)).map fun key => key.length + z.mapEntry).sum

/-- The header of an item and of what it points at, its content apart. -/
def itemBytes (z : Sizes) (it : Item) : ℕ :=
  z.item + (if it.origin.isSome then z.id else 0) + (if it.rightOrigin.isSome then z.id else 0) +
    (match it.wireParent with
      | some (.root name) => z.parent + name.length
      | some (.item _) => z.parent
      | none => 0) + it.parentSub.length

/-- The structs of a document, integrated and pending. -/
def structs (d : Doc) : List Struct :=
  d.store.entries.flatMap Prod.snd ++
    d.pending.flatMap fun u => u.clients.flatMap ClientBlock.structs

/-- A number read off the content of a struct. -/
def ofContent (f : Content → ℕ) : Struct → ℕ
  | .item it => f it.content
  | _ => 0

/-- The bytes of the strings and byte arrays in the items of a document, integrated or pending. -/
def held (d : Doc) : ℕ := (d.structs.map (ofContent Content.held)).sum

/-- What is counted for a struct besides the strings and byte arrays of its content. -/
def structHeaders (z : Sizes) (d : Doc) : Struct → ℕ
  | .item it => itemBytes z it + it.content.headers z (d.indexBytes z it.id)
  | .gc _ _ => z.gc
  | .skip _ _ => z.iface

/-- What is counted besides the strings and byte arrays of the contents. -/
def headers (z : Sizes) (spare : ℕ) (d : Doc) : ℕ :=
  d.store.entries.length * (z.mapEntry + z.sliceHeader) + spare +
    (d.structs.map fun s => z.iface + d.structHeaders z s).sum

end Doc

end YCollab.Crdt
