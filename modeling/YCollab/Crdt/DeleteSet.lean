import Mathlib.Data.List.Sort
import YCollab.Crdt.Content
import YCollab.Data.Search
import YCollab.Data.SortedMap

/-!
# Delete sets

`internal/crdt/deleteset.go`: the deleted clock ranges of each client. The map of the source is a
`SortedMap`, whose entries run from the greatest client id down, the order in which every
client-keyed section of the wire format is written. Clocks and lengths are natural numbers: the
64-bit words of the source do not wrap while every range ends below `2^63`.
-/

namespace YCollab.Crdt

open Lib0

/-- A half-open range of one client's clock space. -/
structure DeleteRange where
  clock : ℕ
  len : ℕ
  deriving DecidableEq, Repr

/-- `End`: the first clock past the range. -/
def DeleteRange.endClock (r : DeleteRange) : ℕ := r.clock + r.len

/-- Deletions per client. -/
abbrev DeleteSet := SortedMap ℕ (List DeleteRange)

/-- The merge loop of `Add` over ranges sorted by clock: `last` is the range being built. The source
writes the result into the slice it reads, but never beyond what it has read. -/
def mergeRanges (last : DeleteRange) : List DeleteRange → List DeleteRange
  | [] => [last]
  | r :: rs =>
    if r.clock ≤ last.endClock then
      if r.endClock > last.endClock then
        mergeRanges { last with len := r.endClock - last.clock } rs
      else mergeRanges last rs
    else last :: mergeRanges r rs

/-- Sort by clock, then merge adjacent and overlapping ranges. -/
def normalizeRanges (ranges : List DeleteRange) : List DeleteRange :=
  match ranges.insertionSort (fun r r' => r.clock ≤ r'.clock) with
  | [] => []
  | r :: rs => mergeRanges r rs

namespace DeleteSet

/-- The ranges of one client. -/
def ranges (ds : DeleteSet) (client : ℕ) : List DeleteRange := (ds.find? client).getD []

/-- Whether the set deletes nothing. -/
def isEmpty (ds : DeleteSet) : Bool := ds.entries.all fun p => p.2.isEmpty

/-- Record that `[clock, clock + length)` of `client` is deleted. -/
def add (ds : DeleteSet) (client clock length : ℕ) : DeleteSet :=
  if length = 0 then ds
  else ds.insert client (normalizeRanges (ds.ranges client ++ [⟨clock, length⟩]))

/-- The predicate of the binary search: the range at an index ends after a clock. -/
def endsAfter (ranges : List DeleteRange) (clock i : ℕ) : Bool :=
  match ranges[i]? with
  | some r => r.endClock > clock
  | none => true

/-- Whether the unit is deleted: only the first range that ends after it can contain it. -/
def isDeleted (ds : DeleteSet) (id : ID) : Bool :=
  let ranges := ds.ranges id.client
  match ranges[Search.search ranges.length (endsAfter ranges id.clock)]? with
  | some r => r.clock ≤ id.clock
  | none => false

/-- A range: its clock and its length. -/
def writeRange (e : Encoder) (r : DeleteRange) : Encoder :=
  (e.writeVarUint r.clock).writeVarUint r.len

/-- One client of the wire form and its ranges. -/
def writeClient (e : Encoder) (p : ℕ × List DeleteRange) : Encoder :=
  p.2.foldl writeRange ((e.writeVarUint p.1).writeVarUint p.2.length)

/-- `DeleteSet.write`: the clients in descending order. -/
def write (e : Encoder) (ds : DeleteSet) : Encoder :=
  ds.entries.foldl writeClient (e.writeVarUint ds.entries.length)

end DeleteSet

/-- A range: its clock and its length. -/
def readDeleteRange : Read DeleteRange := do
  let clock ← readSafeVarUint
  let len ← readLen
  pure ⟨clock, len⟩

/-- A client and its ranges. -/
def readDeleteClient : Read (ℕ × List DeleteRange) := do
  let client ← readSafeVarUint
  let numRanges ← readVarUint
  Read.checkRemaining numRanges
  let ranges ← Read.times readDeleteRange numRanges
  pure (client, ranges)

/-- A client that occurs twice keeps its last ranges, as in a Go map. -/
def readDeleteSet : Read DeleteSet := do
  let numClients ← readVarUint
  Read.checkRemaining numClients
  let clients ← Read.times readDeleteClient numClients
  pure (clients.foldl (fun ds p => ds.insert p.1 p.2) SortedMap.empty)

end YCollab.Crdt
