import Mathlib.Logic.Function.Basic
import YCollab.Crdt.StructStore

/-!
# Documents

`internal/crdt/doc.go` and the splitting half of `structstore.go`: a struct store, the shared types
that its items hang off, and what could not be integrated yet.

A Go pointer to an integrated item is the ID of the item's first unit, which no operation ever
changes once the item is in the store: a split keeps it on the left half. The fields a Go item or
shared type has behind such a pointer are maps of the document: `left`, `right`, `deleted` by item,
`start`, `mapItems` by type. A root type exists as soon as it is named, so `share` is not
represented, and `keep`, which nothing reads, is left out.

Loops that end because a list or a queue does carry a bound on their turns (`fuel`): the number of
structs in the store, or in the queue. Where the source ranges over a Go map, whose order is not
specified, the model goes from the greatest client down; no two clients share a struct or a range.
-/

namespace YCollab.Crdt

open Lib0

/-- One collaborative document. -/
structure Doc where
  store : StructStore := SortedMap.empty
  /-- The left neighbour of an item in its list. -/
  left : ID → Option ID := fun _ => none
  /-- The right neighbour of an item in its list. -/
  right : ID → Option ID := fun _ => none
  /-- Whether an item has been deleted. -/
  deleted : ID → Bool := fun _ => false
  /-- The head of the sequence of a type. -/
  start : TypeID → Option ID := fun _ => none
  /-- The newest item of a type for each key. -/
  mapItems : TypeID → Bytes → Option ID := fun _ _ => none
  /-- Updates that referred to structs the document does not have yet. -/
  pending : List Update := []
  /-- Deletions of clock ranges that have not been received. -/
  pendingDeletes : DeleteSet := SortedMap.empty

namespace Doc

/-- `NewDoc`. -/
def empty : Doc := {}

/-- The number of structs in the store, a bound on the length of every list of items. -/
def size (d : Doc) : ℕ := (d.store.entries.map fun p => p.2.length).sum

/-- The next clock the document expects of a client. -/
def state (d : Doc) (client : ℕ) : ℕ := d.store.state client

/-- `StateVector`: the next clock of every client. -/
def stateVector (d : Doc) : StateVector := d.store.stateVector

/-! ### Splitting -/

/-- Put the two halves of `it` in its place: `head` takes over its links on the left and `tail`
those on the right. A split item that was the newest entry for its key hands that role to its
right half. -/
def replace (d : Doc) (it head tail : Item) (index : ℕ) : Doc :=
  let next := d.right it.id
  { d with
    store := d.store.splitAt head tail index
    left := Function.update
      (match next with
        | some r => Function.update d.left r (some tail.id)
        | none => d.left) tail.id (some it.id)
    right := Function.update (Function.update d.right tail.id next) it.id (some tail.id)
    deleted := Function.update d.deleted tail.id (d.deleted it.id)
    mapItems :=
      match it.parent with
      | some p =>
        if it.hasParentSub && next.isNone then
          Function.update d.mapItems p
            (Function.update (d.mapItems p) it.parentSub (some tail.id))
        else d.mapItems
      | none => d.mapItems }

/-- Cut `it` in two after `offset` units; `index` is its place in the store. It returns the two
halves. -/
def splitItem (d : Doc) (it : Item) (offset index : ℕ) : Except Err (Doc × Item × Item) :=
  match it.content.splice offset with
  | .error x => .error x
  | .ok (head, tail) =>
    .ok (d.replace it (it.head head) (it.tail offset tail) index, it.head head,
      it.tail offset tail)

/-- The item that starts exactly at `id`, splitting the one that covers it. -/
def getItemCleanStart (d : Doc) (id : ID) : Except Err (Doc × Item) :=
  match d.store.find id with
  | .error x => .error x
  | .ok i =>
    match (d.store.structs id.client)[i]? with
    | some (.item it) =>
      let offset := id.clock - it.id.clock
      if offset = 0 then .ok (d, it)
      else
        match d.splitItem it offset i with
        | .error x => .error x
        | .ok (d, _, right) => .ok (d, right)
    | _ => .error .missingStruct

/-- The item that ends exactly after `id`, splitting the one that covers it. -/
def getItemCleanEnd (d : Doc) (id : ID) : Except Err (Doc × Item) :=
  match d.store.find id with
  | .error x => .error x
  | .ok i =>
    match (d.store.structs id.client)[i]? with
    | some (.item it) =>
      let offset := id.clock - it.id.clock
      if offset + 1 = it.len then .ok (d, it)
      else
        match d.splitItem it (offset + 1) i with
        | .error x => .error x
        | .ok (d, it, _) => .ok (d, it)
    | _ => .error .missingStruct

/-! ### Resolving the neighbours of an item -/

/-- Whether an ID that `id`'s item refers to belongs to another client and has not arrived. -/
def missing (d : Doc) (id : ID) : Option ID → Bool
  | none => false
  | some o => o.client ≠ id.client ∧ o.clock ≥ d.state o.client

/-- The ID of the item that holds the parent, when the wire names one. -/
def ownerID (it : Item) : Option ID :=
  match it.wireParent with
  | some (.item owner) => some owner
  | _ => none

/-- Look up a neighbour that may be absent. -/
def resolveNeighbour (d : Doc) (clean : Doc → ID → Except Err (Doc × Item)) :
    Option ID → Except Err (Doc × Option Item)
  | none => .ok (d, none)
  | some id =>
    match clean d id with
    | .error x => .error x
    | .ok (d, it) => .ok (d, some it)

/-- Fill in the parent: what the wire said, or a neighbour's along with its key. The type of an
owner that is gone, or that holds no type, is no parent. -/
def resolveParent (d : Doc) (it : Item) (left right : Option Item) : Item :=
  match it.wireParent with
  | none =>
    match left.or right with
    | some n =>
      { it with parent := n.parent, hasParentSub := n.hasParentSub, parentSub := n.parentSub }
    | none => it
  | some (.root name) => { it with parent := some (.root name) }
  | some (.item owner) =>
    match d.store.getItem owner with
    | .ok o =>
      match o.content with
      | .type _ _ => { it with parent := some (.nested o.id) }
      | _ => { it with parent := none }
    | .error _ => { it with parent := none }

/-- Fill in an item's left, right and parent from the store, or report that a dependency is
missing. An item next to garbage-collected content has nowhere to attach and loses its parent. -/
def resolve (d : Doc) (it : Item) : Option (Doc × Item × Option ID × Option ID) :=
  if d.missing it.id it.origin || d.missing it.id it.rightOrigin || d.missing it.id (ownerID it)
  then none
  else
    match d.resolveNeighbour getItemCleanEnd it.origin with
    | .error _ => some (d, { it with parent := none }, none, none)
    | .ok (d, left) =>
      let it := { it with origin := left.map Item.lastID }
      match d.resolveNeighbour getItemCleanStart it.rightOrigin with
      | .error _ => some (d, { it with parent := none }, left.map Item.id, none)
      | .ok (d, right) =>
        some (d, d.resolveParent it left right, left.map Item.id, right.map Item.id)

/-! ### Placing an item among its parent's children -/

/-- Walk to the start of a list of items. -/
def leftmost (d : Doc) : ℕ → Option ID → Option ID
  | 0, x => x
  | _ + 1, none => none
  | fuel + 1, some x =>
    match d.left x with
    | none => some x
    | some l => leftmost d fuel (some l)

/-- The first item of a list. -/
def listHead (d : Doc) (l : ListID) : Option ID :=
  match l.key with
  | some k => d.leftmost d.size (d.mapItems l.parent k)
  | none => d.start l.parent

/-- The item to the right of `left` in a list, its first item if there is no `left`. -/
def after (d : Doc) (l : ListID) : Option ID → Option ID
  | some x => d.right x
  | none => d.listHead l

/-- The item covering `id`. -/
def itemAt (d : Doc) (id : ID) : Option Item :=
  match d.store.getItem id with
  | .ok it => some it
  | .error _ => none

/-- The loop of `resolveConflict` over the items `o` between the neighbours. `before` are the
items passed, `conflicting` those passed since `left` last moved. -/
def conflictLoop (d : Doc) (it : Item) (right : Option ID) :
    ℕ → Option ID → Option ID → List ID → List ID → Option ID
  | 0, _, left, _, _ => left
  | fuel + 1, o, left, before, conflicting =>
    match o with
    | none => left
    | some oid =>
      if right = some oid then left
      else
        let before := oid :: before
        let conflicting := oid :: conflicting
        match d.itemAt oid with
        | none => left
        | some other =>
          if it.origin = other.origin then
            if other.id.client < it.id.client then
              conflictLoop d it right fuel (d.right oid) (some oid) before []
            else if it.rightOrigin = other.rightOrigin then left
            else conflictLoop d it right fuel (d.right oid) left before conflicting
          else
            match other.origin.bind d.itemAt with
            | none => left
            | some oo =>
              if oo.id ∈ before then
                if oo.id ∈ conflicting then
                  conflictLoop d it right fuel (d.right oid) left before conflicting
                else conflictLoop d it right fuel (d.right oid) (some oid) before []
              else left

/-- The item this one must sit to the right of. -/
def resolveConflict (d : Doc) (it : Item) (p : TypeID) (left right : Option ID) : Option ID :=
  d.conflictLoop it right (d.size + 1) (d.after ⟨p, it.key⟩ left) left [] []

/-- The neighbourhood is not already exactly left, this, right. -/
def conflicts (d : Doc) (left right : Option ID) : Bool :=
  match left, right with
  | none, none => true
  | none, some r => (d.left r).isSome
  | some l, right => d.right l ≠ right

/-- Mark an item as deleted. -/
def deleteItem (d : Doc) (id : ID) : Doc :=
  { d with deleted := Function.update d.deleted id true }

/-- Whether the item that holds a type is deleted. -/
def ownerDeleted (d : Doc) : TypeID → Bool
  | .root _ => false
  | .nested owner => d.deleted owner

/-- Link `it` into the list of its parent, to the right of `left`. The newest entry of a map
overwrites the entry before it. -/
def relink (d : Doc) (it : Item) (p : TypeID) (left : Option ID) : Doc :=
  let right := d.after ⟨p, it.key⟩ left
  let d := match left with
    | some l => { d with right := Function.update d.right l (some it.id) }
    | none =>
      if it.hasParentSub then d
      else { d with start := Function.update d.start p (some it.id) }
  let d := { d with
    left := Function.update d.left it.id left,
    right := Function.update d.right it.id right }
  match right with
  | some r => { d with left := Function.update d.left r (some it.id) }
  | none =>
    if it.hasParentSub then
      let d := { d with
        mapItems := Function.update d.mapItems p
          (Function.update (d.mapItems p) it.parentSub (some it.id)) }
      match left with
      | some l => d.deleteItem l
      | none => d
    else d

/-- Put `it` into the store and into the list of its parent, to the right of `left`. An item under
a deleted parent, or an entry of a map that is not the newest, is born deleted. -/
def link (d : Doc) (it : Item) (p : TypeID) (left : Option ID) : Doc :=
  let right := d.after ⟨p, it.key⟩ left
  let d := d.relink it p left
  let d := { d with
    store := d.store.append (.item it),
    deleted := Function.update d.deleted it.id it.content.isDeleted }
  if d.ownerDeleted p || it.hasParentSub && right.isSome then d.deleteItem it.id else d

/-- Drop the first `offset` units of an item, which the document has already. -/
def trim (d : Doc) (it : Item) (left : Option ID) (offset : ℕ) :
    Doc × Option (Item × Option ID) :=
  if offset = 0 then (d, some (it, left))
  else
    match d.getItemCleanEnd ⟨it.id.client, it.id.clock + offset - 1⟩ with
    | .error _ => (d, none)
    | .ok (d, l) =>
      match it.content.splice offset with
      | .error _ => (d, none)
      | .ok (_, tail) =>
        (d, some ({ it with
          id := ⟨it.id.client, it.id.clock + offset⟩
          origin := some l.lastID
          content := tail }, some l.id))

/-- Place an item among its parent's children; without a parent only its clock range stays
occupied. -/
def integrateItem (d : Doc) (it : Item) (left right : Option ID) (offset : ℕ) : Doc :=
  match d.trim it left offset with
  | (d, none) => d
  | (d, some (it, left)) =>
    match it.parent with
    | none => { d with store := d.store.append (.gc it.id it.len) }
    | some p =>
      d.link it p (if d.conflicts left right then d.resolveConflict it p left right else left)

/-! ### Integrating an update -/

/-- What becomes of the document when the head of a queue has its turn; nothing if the head has to
wait, because of a gap or for a struct of another client. A head that is known already, or a marker
of what the sender did not send, leaves the document as it is. -/
def integrateHead (d : Doc) : Struct → Option Doc
  | .skip _ _ => some d
  | .gc id n =>
    let state := d.state id.client
    let offset := state - id.clock
    if state < id.clock then none
    else if offset ≥ n then some d
    else
      some { d with
        store := d.store.append (.gc ⟨id.client, id.clock + offset⟩ (n - offset)) }
  | .item it =>
    let state := d.state it.id.client
    let offset := state - it.id.clock
    if state < it.id.clock then none
    else if offset ≥ it.len then some d
    else
      match d.resolve it with
      | none => none
      | some (d, it, left, right) => some (d.integrateItem it left right offset)

/-- Integrate the structs of one client in order until one has to wait. It returns what is left of
the queue and whether anything moved. -/
def drain (d : Doc) : List Struct → Doc × List Struct × Bool
  | [] => (d, [], false)
  | head :: queue =>
    match d.integrateHead head with
    | none => (d, head :: queue, false)
    | some d =>
      let (d, rest, _) := drain d queue
      (d, rest, true)

/-- One queue for each client, in the order the clients first appear. -/
def gather : List (ℕ × List Struct) → List ClientBlock → List (ℕ × List Struct)
  | queues, [] => queues
  | queues, block :: blocks =>
    gather
      (if queues.any (·.1 = block.client) then
        queues.map fun q => if q.1 = block.client then (q.1, q.2 ++ block.structs) else q
      else queues ++ [(block.client, block.structs)]) blocks

/-- One turn over all queues. -/
def pass (d : Doc) : List (ℕ × List Struct) → Doc × List (ℕ × List Struct) × Bool
  | [] => (d, [], false)
  | (client, queue) :: queues =>
    let (d, rest, moved) := d.drain queue
    let (d, queues, moved') := pass d queues
    (d, (client, rest) :: queues, moved || moved')

/-- Turns over the queues until nothing moves. -/
def integrateLoop : ℕ → Doc → List (ℕ × List Struct) → Doc × List (ℕ × List Struct)
  | 0, d, queues => (d, queues)
  | fuel + 1, d, queues =>
    let (d, queues, moved) := d.pass queues
    if moved then integrateLoop fuel d queues else (d, queues)

/-- The number of structs in the queues. -/
def queued (queues : List (ℕ × List Struct)) : ℕ := (queues.map fun q => q.2.length).sum

/-- The blocks of the queues that are not empty. -/
def blocksOf (queues : List (ℕ × List Struct)) : List ClientBlock :=
  queues.filterMap fun q =>
    match q.2 with
    | [] => none
    | s :: ss => some ⟨q.1, s.id.clock, s :: ss⟩

/-- Apply as many of the update's structs as possible and keep the rest for later. -/
def integrate (d : Doc) (u : Update) : Doc :=
  let queues := gather [] u.clients
  let (d, queues) := integrateLoop (queued queues + 1) d queues
  match blocksOf queues with
  | [] => d
  | rest => { d with pending := d.pending ++ [⟨rest, SortedMap.empty⟩] }

/-! ### Deletions -/

/-- The loop of `deleteRange` over the structs of a client from index `idx` on. -/
def deleteLoop (client toClock : ℕ) : ℕ → ℕ → Doc → Doc
  | 0, _, d => d
  | fuel + 1, idx, d =>
    match (d.store.structs client)[idx]? with
    | none => d
    | some st =>
      if st.id.clock ≥ toClock then d
      else
        match st with
        | .item it =>
          if d.deleted it.id then deleteLoop client toClock fuel (idx + 1) d
          else if it.id.clock + it.len > toClock then
            match d.splitItem it (toClock - it.id.clock) idx with
            | .error _ => deleteLoop client toClock fuel (idx + 1) d
            | .ok (d, _, _) => deleteLoop client toClock fuel (idx + 1) (d.deleteItem it.id)
          else deleteLoop client toClock fuel (idx + 1) (d.deleteItem it.id)
        | _ => deleteLoop client toClock fuel (idx + 1) d

/-- Split the item that covers `id` in front of it, if that can be done. -/
def splitBefore (d : Doc) (id : ID) : Doc :=
  match d.getItemCleanStart id with
  | .ok (d, _) => d
  | .error _ => d

/-- Delete the items of a clock range, splitting at its boundaries. -/
def deleteRange (d : Doc) (client fromClock toClock : ℕ) : Doc :=
  if toClock ≤ fromClock then d
  else
    let d := d.splitBefore ⟨client, fromClock⟩
    match d.store.find ⟨client, fromClock⟩ with
    | .error _ => d
    | .ok idx => deleteLoop client toClock ((d.store.structs client).length + 2) idx d

/-- One range of a delete set: what has been received is deleted, the rest is remembered. `state`
is the client's clock. -/
def applyRange (client state : ℕ) (d : Doc) (r : DeleteRange) : Doc :=
  if r.clock ≥ state then
    { d with pendingDeletes := DeleteSet.add d.pendingDeletes client r.clock r.len }
  else if r.endClock > state then
    { d with pendingDeletes := DeleteSet.add d.pendingDeletes client state (r.endClock - state) }
      |>.deleteRange client r.clock state
  else d.deleteRange client r.clock r.endClock

/-- Mark the ranges of a delete set deleted. -/
def applyDeleteSet (d : Doc) (ds : DeleteSet) : Doc :=
  ds.entries.foldl (fun d p => p.2.foldl (applyRange p.1 (d.state p.1)) d) d

/-! ### Applying an update -/

/-- The number of structs in a list of updates. -/
def structCount (us : List Update) : ℕ :=
  (us.map fun u => (u.clients.map fun b => b.structs.length).sum).sum

/-- Re-run the held-back updates until none of them makes progress. -/
def retryLoop : ℕ → Doc → Doc
  | 0, d => d
  | fuel + 1, d =>
    if d.pending.isEmpty then d
    else
      let before := d.pending
      let d := before.foldl integrate { d with pending := [] }
      if structCount d.pending ≥ structCount before then d else retryLoop fuel d

/-- `retryPending`: held-back structs as long as one goes in, then the delete ranges that were
remembered. -/
def retryPending (d : Doc) : Doc :=
  let d := retryLoop (structCount d.pending + 1) d
  if DeleteSet.isEmpty d.pendingDeletes then d
  else { d with pendingDeletes := SortedMap.empty }.applyDeleteSet d.pendingDeletes

/-- Integrate an already-parsed update. -/
def applyDecodedUpdate (d : Doc) (u : Update) : Doc :=
  ((d.integrate u).applyDeleteSet u.deletes).retryPending

/-- `ApplyUpdate`: bytes that do not parse change nothing. -/
def applyUpdate (d : Doc) (b : Bytes) : Except Err Doc :=
  match decodeUpdate b with
  | .ok u => .ok (d.applyDecodedUpdate u)
  | .error x => .error x

/-! ### Reading the document -/

/-- The clock units of the items from `x` on, following the right neighbours. -/
def walkRight (d : Doc) : ℕ → Option ID → Option (List ID)
  | _, none => some []
  | 0, some _ => none
  | fuel + 1, some x =>
    match d.itemAt x with
    | none => none
    | some it => (walkRight d fuel (d.right x)).map (it.units ++ ·)

/-- The clock units of a list in their order, tombstones included. -/
def listUnits (d : Doc) (l : ListID) : Option (List ID) := d.walkRight d.size (d.listHead l)

/-! ### Writing the document -/

/-- Whether a struct counts as deleted: a deleted item, or a GC. -/
def structDeleted (d : Doc) : Struct → Bool
  | .item it => d.deleted it.id
  | .gc _ _ => true
  | .skip _ _ => false

/-- `DeleteSet`: the deletions the store knows about. -/
def deleteSet (d : Doc) : DeleteSet :=
  d.store.entries.foldl (fun ds p =>
    p.2.foldl (fun ds st =>
      if d.structDeleted st then DeleteSet.add ds p.1 st.id.clock st.len else ds) ds)
    SortedMap.empty

/-- What peers are told has been deleted: the deletions of the store and those held back. -/
def deleteSetForUpdate (d : Doc) : DeleteSet :=
  d.pendingDeletes.entries.foldl (fun ds p =>
    p.2.foldl (fun ds r => DeleteSet.add ds p.1 r.clock r.len) ds) d.deleteSet

/-- The block of one client for a peer that has its structs up to `clock`. -/
def blockFrom (d : Doc) (client clock : ℕ) : Option ClientBlock :=
  match d.store.structs client with
  | [] => none
  | first :: _ =>
    if clock ≥ d.state client then none
    else
      let clock := if clock < first.id.clock then first.id.clock else clock
      match d.store.find ⟨client, clock⟩ with
      | .error _ => none
      | .ok idx => some ⟨client, clock, (d.store.structs client).drop idx⟩

/-- The update for the holder of `sv`. -/
def stateAsUpdate (d : Doc) (sv : StateVector) : Update where
  clients := d.store.keys.filterMap fun client => d.blockFrom client (sv.get client)
  deletes := d.deleteSetForUpdate

/-- Everything the holder of `sv` is missing. -/
def encodeStateAsUpdate (d : Doc) (sv : StateVector) : Except Err Bytes := (d.stateAsUpdate sv).encode

/-- `EncodeStateVector`. -/
def encodeStateVector (d : Doc) : Except Err Bytes := Crdt.encodeStateVector d.stateVector

/-- What a peer with the given encoded state vector is missing. -/
def encodeDiff (d : Doc) (encodedSV : Bytes) : Except Err Bytes :=
  match decodeStateVector encodedSV with
  | .ok sv => d.encodeStateAsUpdate sv
  | .error x => .error x

end Doc

end YCollab.Crdt
