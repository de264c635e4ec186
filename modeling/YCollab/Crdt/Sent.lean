import YCollab.Crdt.Wire

/-!
# What is sent

A block may start in the middle of its first struct: `Struct.write` then skips the units in front of
its start clock. What is written is what a block that starts at its first struct would be
(`ClientBlock.sent`): the first struct is cut, and where it cannot be cut, because a surrogate pair
is in the way, it is written as a whole and the clocks that follow it shift. The update a receiver
decodes is that of the sent blocks (`Update.encode_sent`).
-/

namespace YCollab.Crdt

open Lib0

namespace Content

/-- What is written of a content without its first units; all of it where it cannot be cut. -/
def dropped (c : Content) (offset : ℕ) : Content :=
  match c.splice offset with
  | .ok (_, tail) => tail
  | .error _ => c

@[simp] theorem dropped_zero (c : Content) : c.dropped 0 = c := by
  cases c <;> simp [dropped, splice, splitUTF16]

theorem write_dropped (c : Content) (e : Encoder) (offset : ℕ) :
    c.write e offset = (c.dropped offset).write e 0 := by
  cases c with
  | json values => simp [dropped, splice, write]
  | any values => simp [dropped, splice, write]
  | string s =>
    by_cases h0 : offset = 0
    · simp [h0]
    · simp only [write, h0, if_false, dropped, splice]
      cases splitUTF16 s offset <;> rfl
  | _ => simp [dropped, splice, write]

theorem ref_dropped (c : Content) (offset : ℕ) : (c.dropped offset).ref = c.ref := by
  cases c with
  | string s =>
    simp only [dropped, splice]
    cases splitUTF16 s offset <;> rfl
  | _ => rfl

end Content

/-- What is written of an item without its first units. -/
def Item.dropped (it : Item) (offset : ℕ) : Item :=
  { it with
    id := it.unit offset
    origin := it.writeOrigin offset
    content := it.content.dropped offset }

namespace Struct

/-- What is written of a struct without its first units. -/
def dropped (offset : ℕ) : Struct → Struct
  | gc id n => gc ⟨id.client, id.clock + offset⟩ (n - offset)
  | skip id n => skip ⟨id.client, id.clock + offset⟩ (n - offset)
  | item it => item (it.dropped offset)

/-- The struct at another place. -/
def moved (id : ID) : Struct → Struct
  | gc _ n => gc id n
  | skip _ n => skip id n
  | item it => item { it with id }

theorem write_dropped (st : Struct) (e : Encoder) (offset : ℕ) :
    st.write e offset = (st.dropped offset).write e 0 := by
  cases st with
  | gc id n => rfl
  | skip id n => rfl
  | item it =>
    simp only [write, dropped, Item.write, Item.dropped, Content.ref_dropped, Item.writeOrigin,
      Content.write_dropped it.content _ offset]
    rfl

@[simp] theorem write_moved (st : Struct) (e : Encoder) (id : ID) :
    (st.moved id).write e 0 = st.write e 0 := by
  cases st <;> rfl

@[simp] theorem id_moved (st : Struct) (id : ID) : (st.moved id).id = id := by cases st <;> rfl

@[simp] theorem len_moved (st : Struct) (id : ID) : (st.moved id).len = st.len := by cases st <;> rfl

theorem moved_self (st : Struct) : st.moved st.id = st := by cases st <;> rfl

end Struct

/-- The structs one after the other, from a clock on. -/
def renumber (client : ℕ) : ℕ → List Struct → List Struct
  | _, [] => []
  | clock, st :: l => st.moved ⟨client, clock⟩ :: renumber client (clock + st.len) l

section Renumber

variable {c k : ℕ} {l : List Struct}

theorem contig_renumber (c k : ℕ) (l : List Struct) : Contig c k (renumber c k l) := by
  induction l generalizing k with
  | nil => exact trivial
  | cons st l ih => exact ⟨st.id_moved _, by rw [Struct.len_moved]; exact ih _⟩

theorem renumber_eq (h : Contig c k l) : renumber c k l = l := by
  induction l generalizing k with
  | nil => rfl
  | cons st l ih => rw [renumber, ← h.1, st.moved_self, ih h.2]

@[simp] theorem length_renumber : (renumber c k l).length = l.length := by
  induction l generalizing k with
  | nil => rfl
  | cons st l ih => simp [renumber, ih]

theorem foldl_write_renumber (e : Encoder) :
    (renumber c k l).foldl (fun e st => st.write e 0) e = l.foldl (fun e st => st.write e 0) e := by
  induction l generalizing k e with
  | nil => rfl
  | cons st l ih => simp [renumber, ih]

theorem exists_of_mem_renumber {st : Struct} (h : st ∈ renumber c k l) :
    ∃ st' ∈ l, ∃ id, st = st'.moved id := by
  induction l generalizing k with
  | nil => cases h
  | cons st₀ l ih =>
    rcases List.mem_cons.1 h with rfl | h
    · exact ⟨st₀, List.mem_cons_self .., _, rfl⟩
    · obtain ⟨st', hm, id, rfl⟩ := ih h
      exact ⟨st', List.mem_cons_of_mem _ hm, id, rfl⟩

end Renumber

/-- The structs that are written of a block. -/
def sentStructs (startClock : ℕ) : List Struct → List Struct
  | [] => []
  | st :: l => st.dropped (startClock - st.id.clock) :: l

/-- The block a receiver reads. -/
def ClientBlock.sent (blk : ClientBlock) : ClientBlock :=
  { blk with structs := renumber blk.client blk.startClock (sentStructs blk.startClock blk.structs) }

/-- The update a receiver reads, up to the order of its blocks. -/
def Update.sent (u : Update) : Update := ⟨u.clients.map ClientBlock.sent, u.deletes⟩

theorem ClientBlock.write_sent (blk : ClientBlock) (e : Encoder) : write e blk.sent = write e blk := by
  obtain ⟨c, k, l⟩ := blk
  cases l with
  | nil => rfl
  | cons st l =>
    have hzero : k - ((st.dropped (k - st.id.clock)).moved ⟨c, k⟩).id.clock = 0 := by simp
    simp only [write, sent, sentStructs, renumber, writeStructs, List.length_cons, length_renumber,
      hzero, foldl_write_renumber, Struct.write_moved, ← Struct.write_dropped]

/-- **What is encoded is what is sent.** -/
theorem Update.encode_sent (u : Update) : u.sent.encode = u.encode := by
  have hsort : sortBlocks (u.clients.map ClientBlock.sent) =
      (sortBlocks u.clients).map ClientBlock.sent :=
    (List.map_insertionSort (fun b b' : ClientBlock => b'.client ≤ b.client)
      (fun b b' : ClientBlock => b'.client ≤ b.client) ClientBlock.sent u.clients
      fun _ _ _ _ => Iff.rfl).symm
  have hwrite : ∀ (l : List ClientBlock) (e : Encoder),
      (l.map ClientBlock.sent).foldl ClientBlock.write e = l.foldl ClientBlock.write e := by
    intro l
    induction l with
    | nil => exact fun e => rfl
    | cons blk l ih => exact fun e => by simp only [List.map_cons, List.foldl_cons,
        ClientBlock.write_sent, ih]
  simp only [encode, write, sent, hsort, hwrite, List.length_map]

end YCollab.Crdt
