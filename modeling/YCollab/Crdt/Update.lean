import YCollab.Crdt.DeleteSet
import YCollab.Crdt.Struct

/-!
# Updates and state vectors

`internal/crdt/update.go` and `statevector.go`: a decoded v1 update, structs grouped per client
and then a delete set, and the clocks a document has integrated. Trailing bytes are rejected in
both formats.
-/

namespace YCollab.Crdt

open Lib0

/-- The clock each client is known up to: the next expected one. -/
abbrev StateVector := SortedMap ℕ ℕ

namespace StateVector

/-- The known clock of a client, zero if the client is unknown. -/
def get (sv : StateVector) (client : ℕ) : ℕ := (sv.find? client).getD 0

/-- A client and its clock. -/
def writeClient (e : Encoder) (p : ℕ × ℕ) : Encoder := (e.writeVarUint p.1).writeVarUint p.2

/-- `writeStateVector`, greatest client first. -/
def write (e : Encoder) (sv : StateVector) : Encoder :=
  sv.entries.foldl writeClient (e.writeVarUint sv.entries.length)

end StateVector

/-- `EncodeStateVector`. -/
def encodeStateVector (sv : StateVector) : Except Err Bytes := (sv.write {}).result

/-- A client and its clock. -/
def readStateClient : Read (ℕ × ℕ) := do
  let client ← readSafeVarUint
  let clock ← readSafeVarUint
  pure (client, clock)

/-- `readStateVector`; of two entries of one client the last counts. -/
def readStateVector : Read StateVector := do
  let numClients ← readVarUint
  Read.checkRemaining numClients
  let clients ← Read.times readStateClient numClients
  pure (clients.foldl (fun sv p => sv.insert p.1 p.2) SortedMap.empty)

/-- Run a reader over the whole input: trailing bytes are an error. -/
def decodeAll {α : Type} (r : Read α) (b : Bytes) : Except Err α :=
  match r b with
  | .ok (a, []) => .ok a
  | .ok (_, _ :: _) => .error .corruptUpdate
  | .error x => .error x

/-- `DecodeStateVector`. -/
def decodeStateVector (b : Bytes) : Except Err StateVector := decodeAll readStateVector b

/-- One client's contiguous run of structs inside an update. -/
structure ClientBlock where
  client : ℕ
  startClock : ℕ
  structs : List Struct

/-- A decoded update. -/
structure Update where
  clients : List ClientBlock
  deletes : DeleteSet

/-- `n` consecutive structs of one client's clock space. -/
def readStructs (client : ℕ) : ℕ → ℕ → Read (List Struct)
  | 0, _ => pure []
  | n + 1, clock => do
    let s ← readStruct client clock
    let rest ← readStructs client n (clock + s.len)
    pure (s :: rest)

/-- The structs of one client, from its first clock on. -/
def readClientBlock : Read ClientBlock := do
  let numStructs ← readVarUint
  Read.checkRemaining numStructs
  let client ← readSafeVarUint
  let startClock ← readSafeVarUint
  let structs ← readStructs client numStructs startClock
  pure { client, startClock, structs }

/-- `readUpdate`: the blocks, then the delete set. -/
def readUpdate : Read Update := do
  let numClients ← readVarUint
  Read.checkRemaining numClients
  let clients ← Read.times readClientBlock numClients
  let deletes ← readDeleteSet
  pure { clients, deletes }

/-- `DecodeUpdate`. -/
def decodeUpdate (b : Bytes) : Except Err Update := decodeAll readUpdate b

/-- The structs of a block: only the first one can start in the middle. -/
def writeStructs (e : Encoder) (startClock : ℕ) : List Struct → Encoder
  | [] => e
  | s :: ss =>
    ss.foldl (fun e s => s.write e 0) (s.write e (startClock - s.id.clock))

/-- One block. -/
def ClientBlock.write (e : Encoder) (block : ClientBlock) : Encoder :=
  writeStructs (((e.writeVarUint block.structs.length).writeVarUint block.client).writeVarUint
    block.startClock) block.startClock block.structs

/-- The blocks in the order they are written: the greatest client id first, blocks of one client
in the order they have. A list in descending order already, which the source does not sort, stays
as it is. -/
def sortBlocks (blocks : List ClientBlock) : List ClientBlock :=
  blocks.insertionSort fun b b' => b'.client ≤ b.client

/-- `Update.write`: the blocks by descending client, then the delete set. -/
def Update.write (e : Encoder) (u : Update) : Encoder :=
  let blocks := sortBlocks u.clients
  DeleteSet.write (blocks.foldl ClientBlock.write (e.writeVarUint blocks.length)) u.deletes

/-- `Encode`: the wire form, or the encoder's error. -/
def Update.encode (u : Update) : Except Err Bytes := (u.write {}).result

end YCollab.Crdt
