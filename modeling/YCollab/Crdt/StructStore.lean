import Mathlib.Data.List.Induction
import Mathlib.Tactic.Set
import YCollab.Crdt.Update
import YCollab.Data.Search

/-!
# The struct store

`internal/crdt/structstore.go`, the part that reads: every struct a document has integrated,
grouped by client and sorted by clock. Splitting an item rewrites the links of its neighbours,
so it is an operation of the document (`Crdt.Doc`).
-/

namespace YCollab.Crdt

/-- The structs of each client in clock order. -/
abbrev StructStore := SortedMap ℕ (List Struct)

/-- One past the last clock of a list of structs. -/
def stateOf (structs : List Struct) : ℕ :=
  match structs.getLast? with
  | none => 0
  | some last => last.endClock

namespace StructStore

/-- The structs of one client. -/
def structs (s : StructStore) (client : ℕ) : List Struct := (s.find? client).getD []

/-- The next expected clock of a client. -/
def state (s : StructStore) (client : ℕ) : ℕ := stateOf (s.structs client)

/-- `StateVector`. -/
def stateVector (s : StructStore) : StateVector := s.mapVal stateOf

/-- Add a struct at the end of its client's list; a struct that does not start where the clock
space ends is refused. -/
def append (s : StructStore) (st : Struct) : StructStore :=
  if s.state st.id.client = st.id.clock then
    s.insert st.id.client (s.structs st.id.client ++ [st])
  else s

/-- The predicate of the binary search: the struct at an index ends after a clock. -/
def endsAfter (structs : List Struct) (clock i : ℕ) : Bool :=
  match structs[i]? with
  | some st => st.endClock > clock
  | none => true

/-- The index of the struct covering a clock, by binary search. -/
def find (s : StructStore) (id : ID) : Except Err ℕ :=
  let structs := s.structs id.client
  let i := Search.search structs.length (endsAfter structs id.clock)
  match structs[i]? with
  | none => .error .missingStruct
  | some st => if st.id.clock > id.clock then .error .missingStruct else .ok i

/-- The struct covering `id`. -/
def get (s : StructStore) (id : ID) : Except Err Struct :=
  match s.find id with
  | .error x => .error x
  | .ok i =>
    match (s.structs id.client)[i]? with
    | none => .error .missingStruct
    | some st => .ok st

/-- The item covering `id`. -/
def getItem (s : StructStore) (id : ID) : Except Err Item :=
  match s.get id with
  | .ok (.item it) => .ok it
  | .ok _ => .error .missingStruct
  | .error x => .error x

/-- Put `it` and `right` where the struct at `index` was. -/
def splitAt (s : StructStore) (it right : Item) (index : ℕ) : StructStore :=
  let structs := s.structs it.id.client
  s.insert it.id.client
    (structs.take index ++ .item it :: .item right :: structs.drop (index + 1))

end StructStore

/-! ### Gapless stores -/

/-- Consecutive structs of one client, the first at clock `c`: none is empty, none is a Skip. -/
def Run (client : ℕ) : ℕ → List Struct → Prop
  | _, [] => True
  | c, st :: l =>
    st.id = ⟨client, c⟩ ∧ 0 < st.len ∧ st.isSkip = false ∧ Run client (c + st.len) l

/-- The clock units that a list of structs occupies. -/
def lengthOf (l : List Struct) : ℕ := (l.map Struct.len).sum

variable {client c : ℕ} {l l' A B : List Struct} {st : Struct}

@[simp] theorem lengthOf_nil : lengthOf [] = 0 := rfl

@[simp] theorem lengthOf_cons : lengthOf (st :: l) = st.len + lengthOf l := rfl

@[simp] theorem lengthOf_append : lengthOf (l ++ l') = lengthOf l + lengthOf l' := by
  simp [lengthOf]

theorem run_append : Run client c (l ++ l') ↔ Run client c l ∧ Run client (c + lengthOf l) l' := by
  induction l generalizing c with
  | nil => simp [Run]
  | cons st l ih => simp [Run, ih, and_assoc, Nat.add_assoc]

theorem Run.split (h : Run client c (A ++ st :: B)) :
    Run client c A ∧ st.id = ⟨client, c + lengthOf A⟩ ∧ 0 < st.len ∧ st.isSkip = false ∧
      Run client (c + lengthOf A + st.len) B := by
  obtain ⟨hA, hid, hpos, hskip, hB⟩ := run_append.1 h
  exact ⟨hA, hid, hpos, hskip, hB⟩

theorem Run.stateOf (h : Run client 0 l) : stateOf l = lengthOf l := by
  induction l using List.reverseRecOn with
  | nil => rfl
  | append_singleton l st _ =>
    obtain ⟨-, hid, -⟩ := h.split
    simp [Crdt.stateOf, Struct.endClock, hid]

theorem Run.exists_cover (h : Run client c l) {k : ℕ} (hc : c ≤ k) (hk : k < c + lengthOf l) :
    ∃ A st B, l = A ++ st :: B ∧ st.id.clock ≤ k ∧ k < st.endClock := by
  induction l generalizing c with
  | nil => simp at hk; omega
  | cons st l ih =>
    obtain ⟨hid, hpos, -, hl⟩ := h
    by_cases hlt : k < c + st.len
    · exact ⟨[], st, l, rfl, by simp [hid, hc], by simp [Struct.endClock, hid, hlt]⟩
    · obtain ⟨A, st', B, rfl, h1, h2⟩ := ih hl (by omega) (by simp at hk; omega)
      exact ⟨st :: A, st', B, rfl, h1, h2⟩

theorem Run.clock_ge (h : Run client c l) (hst : st ∈ l) : c ≤ st.id.clock := by
  obtain ⟨A, B, rfl⟩ := List.append_of_mem hst
  obtain ⟨-, hid, -⟩ := h.split
  simp [hid]

theorem Run.endClock_le_end (h : Run client c l) (hst : st ∈ l) :
    st.endClock ≤ c + lengthOf l := by
  obtain ⟨A, B, rfl⟩ := List.append_of_mem hst
  obtain ⟨-, hid, -⟩ := h.split
  simp [Struct.endClock, hid]
  omega

theorem Run.endClock_le (h : Run client c (A ++ st :: B)) {st' : Struct} (hm : st' ∈ A) :
    st'.endClock ≤ st.id.clock := by
  obtain ⟨hA, hid, -⟩ := h.split
  have := hA.endClock_le_end hm
  simp [hid, this]

theorem Run.le_clock (h : Run client c (A ++ st :: B)) {st' : Struct} (hm : st' ∈ B) :
    st.endClock ≤ st'.id.clock := by
  obtain ⟨-, hid, -, -, hB⟩ := h.split
  have := hB.clock_ge hm
  simpa [Struct.endClock, hid] using this

theorem Run.pairwise (h : Run client c l) :
    l.Pairwise fun st st' => st.endClock ≤ st'.id.clock := by
  induction l generalizing c with
  | nil => exact .nil
  | cons st l ih =>
    refine List.pairwise_cons.2 ⟨fun st' hm => ?_, ih h.2.2.2⟩
    exact Run.le_clock (A := []) h hm

theorem Run.cover_unique (h : Run client c l) {st' : Struct} (hst : st ∈ l) (hst' : st' ∈ l)
    {k : ℕ} (h1 : st.id.clock ≤ k) (h2 : k < st.endClock) (h1' : st'.id.clock ≤ k)
    (h2' : k < st'.endClock) : st = st' := by
  obtain ⟨A, B, rfl⟩ := List.append_of_mem hst
  rcases List.mem_append.1 hst' with hm | hm
  · have := h.endClock_le hm
    omega
  · rcases List.mem_cons.1 hm with rfl | hm
    · rfl
    · have := h.le_clock hm
      omega

namespace StructStore

/-- The store is gapless: the structs of each client cover its clocks from zero on. -/
structure Gapless (s : StructStore) : Prop where
  run : ∀ client, Run client 0 (s.structs client)
  nonempty : ∀ p ∈ s.entries, p.2 ≠ []

variable {s : StructStore} {id : ID}

theorem structs_insert (s : StructStore) (client client' : ℕ) (l : List Struct) :
    structs (SortedMap.insert s client l) client' =
      if client' = client then l else s.structs client' := by
  unfold structs
  rw [SortedMap.find?_insert]
  split <;> rfl

theorem Gapless.empty : Gapless SortedMap.empty := ⟨fun _ => trivial, by simp [SortedMap.empty]⟩

theorem Gapless.insert (h : s.Gapless) {client : ℕ} {l : List Struct} (hl : Run client 0 l)
    (hne : l ≠ []) : Gapless (SortedMap.insert s client l) where
  run client' := by
    rw [structs_insert]
    split
    next heq => exact heq ▸ hl
    next => exact h.run client'
  nonempty := by
    intro p hp
    have := SortedMap.mem_insertEntry hp
    rcases this with rfl | hp
    · exact hne
    · exact h.nonempty p hp

theorem Gapless.client_eq (h : s.Gapless) {client : ℕ} (hst : st ∈ s.structs client) :
    st.id.client = client := by
  obtain ⟨A, B, hs⟩ := List.append_of_mem hst
  obtain ⟨-, hid, -⟩ := (hs ▸ h.run client).split
  rw [hid]

theorem Gapless.state_eq (h : s.Gapless) (client : ℕ) :
    s.state client = lengthOf (s.structs client) := (h.run client).stateOf

theorem Gapless.find?_eq (h : s.Gapless) (client : ℕ) :
    s.find? client = if s.state client = 0 then none else some (s.structs client) := by
  have hstate := h.state_eq client
  cases hf : s.find? client with
  | none => simp [state, structs, hf, stateOf]
  | some l =>
    have hl : s.structs client = l := by simp [structs, hf]
    have hne := h.nonempty _ (SortedMap.find?_eq_some.1 hf)
    obtain ⟨st, l', rfl⟩ := List.exists_cons_of_ne_nil hne
    have hpos := (hl ▸ h.run client).2.1
    rw [if_neg (by rw [hstate, hl, lengthOf_cons]; omega), hl]

theorem Gapless.stateVector_find? (h : s.Gapless) (client : ℕ) :
    s.stateVector.find? client = if s.state client = 0 then none else some (s.state client) := by
  rw [stateVector, SortedMap.find?_mapVal, h.find?_eq]
  split <;> rfl

theorem Gapless.stateVector_eq {s' : StructStore} (h : s.Gapless) (h' : s'.Gapless)
    (heq : ∀ client, s.state client = s'.state client) : s.stateVector = s'.stateVector :=
  SortedMap.ext_find fun client => by
    rw [h.stateVector_find?, h'.stateVector_find?, heq]

theorem endsAfter_mono (h : Run client c l) (k : ℕ) {i j : ℕ} (hij : i ≤ j)
    (hi : endsAfter l k i) : endsAfter l k j := by
  unfold endsAfter at hi ⊢
  rcases Nat.eq_or_lt_of_le hij with rfl | hlt
  · exact hi
  cases hj : l[j]? with
  | none => rfl
  | some st =>
    obtain ⟨hjl, rfl⟩ := List.getElem?_eq_some_iff.1 hj
    have hle := (List.pairwise_iff_getElem.1 h.pairwise) i j (hlt.trans hjl) hjl hlt
    rw [List.getElem?_eq_getElem (hlt.trans hjl)] at hi
    simp only [decide_eq_true_eq, gt_iff_lt] at hi ⊢
    simp only [Struct.endClock] at hi hle ⊢
    omega

/-- The binary search finds the struct that covers a clock. -/
theorem Gapless.find_eq (h : s.Gapless) (hs : s.structs id.client = A ++ st :: B)
    (hlo : st.id.clock ≤ id.clock) (hhi : id.clock < st.endClock) : s.find id = .ok A.length := by
  have hrun := hs ▸ h.run id.client
  set f := endsAfter (A ++ st :: B) id.clock with hf
  have hA : f A.length = true := by simp [hf, endsAfter, hhi]
  have hbefore : ∀ i < A.length, f i = false := by
    intro i hi
    have hst' : (A ++ st :: B)[i]? = some A[i] := by simp [List.getElem?_append_left hi, hi]
    have := hrun.endClock_le (List.getElem_mem hi)
    simp only [hf, endsAfter, hst', decide_eq_false_iff_not]
    omega
  obtain ⟨hle, hfalse, htrue⟩ := Search.search_spec (f := f)
    (fun i j hij => endsAfter_mono hrun id.clock hij) (A ++ st :: B).length
  have hi : Search.search (A ++ st :: B).length f = A.length := by
    rcases Nat.lt_trichotomy (Search.search (A ++ st :: B).length f) A.length with hlt | heq | hlt
    · have := htrue (hlt.trans (by simp))
      rw [hbefore _ hlt] at this
      cases this
    · exact heq
    · have := hfalse _ hlt
      rw [hA] at this
      cases this
  unfold find
  simp only [hs, ← hf, hi]
  simp [Nat.not_lt.2 hlo]

theorem Gapless.find_missing (h : s.Gapless) (hk : s.state id.client ≤ id.clock) :
    s.find id = .error .missingStruct := by
  have hrun := h.run id.client
  rw [h.state_eq] at hk
  obtain ⟨hle, -, htrue⟩ := Search.search_spec (f := endsAfter (s.structs id.client) id.clock)
    (fun i j hij => endsAfter_mono hrun id.clock hij) (s.structs id.client).length
  unfold find
  dsimp only
  split
  · rfl
  next st hst =>
    obtain ⟨hlt, rfl⟩ := List.getElem?_eq_some_iff.1 hst
    have hend := hrun.endClock_le_end (List.getElem_mem hlt)
    have := htrue hlt
    simp only [endsAfter, hst, decide_eq_true_eq] at this
    omega

theorem Gapless.exists_cover (h : s.Gapless) (hk : id.clock < s.state id.client) :
    ∃ A st B, s.structs id.client = A ++ st :: B ∧ st.id.clock ≤ id.clock ∧
      id.clock < st.endClock := by
  rw [h.state_eq] at hk
  exact (h.run id.client).exists_cover (Nat.zero_le _) (by omega)

theorem Gapless.find_ok (h : s.Gapless) {i : ℕ} (hf : s.find id = .ok i) :
    ∃ A st B, s.structs id.client = A ++ st :: B ∧ i = A.length ∧ st.id.clock ≤ id.clock ∧
      id.clock < st.endClock := by
  by_cases hk : id.clock < s.state id.client
  · obtain ⟨A, st, B, hs, hlo, hhi⟩ := h.exists_cover hk
    rw [h.find_eq hs hlo hhi] at hf
    cases hf
    exact ⟨A, st, B, hs, rfl, hlo, hhi⟩
  · rw [h.find_missing (Nat.le_of_not_lt hk)] at hf
    cases hf

theorem get_eq_of_find {i : ℕ} (hf : s.find id = .ok i)
    (hi : (s.structs id.client)[i]? = some st) : s.get id = .ok st := by
  simp [get, hf, hi]

theorem Gapless.get_eq (h : s.Gapless) (hst : st ∈ s.structs id.client)
    (hlo : st.id.clock ≤ id.clock) (hhi : id.clock < st.endClock) : s.get id = .ok st := by
  obtain ⟨A, B, hs⟩ := List.append_of_mem hst
  exact get_eq_of_find (h.find_eq hs hlo hhi) (by simp [hs])

theorem Gapless.getItem_eq (h : s.Gapless) {it : Item} (hst : .item it ∈ s.structs id.client)
    (hlo : it.id.clock ≤ id.clock) (hhi : id.clock < it.id.clock + it.len) :
    s.getItem id = .ok it := by
  simp [getItem, h.get_eq hst hlo hhi]

/-! ### Appending and splitting -/

theorem structs_append (h : s.state st.id.client = st.id.clock) (client : ℕ) :
    (s.append st).structs client =
      if client = st.id.client then s.structs client ++ [st] else s.structs client := by
  rw [append, if_pos h, structs_insert]
  split
  next heq => rw [heq]
  next => rfl

theorem Gapless.append (h : s.Gapless) (hpos : 0 < st.len) (hskip : st.isSkip = false) :
    (s.append st).Gapless := by
  unfold StructStore.append
  split
  next hstate =>
    refine h.insert (run_append.2 ⟨h.run _, ?_⟩) (by simp)
    rw [h.state_eq] at hstate
    refine ⟨?_, hpos, hskip, trivial⟩
    rw [Nat.zero_add, hstate]
  next => exact h

theorem Gapless.state_append (h : s.Gapless) (hpos : 0 < st.len) (hskip : st.isSkip = false)
    (hstate : s.state st.id.client = st.id.clock) (client : ℕ) :
    (s.append st).state client = if client = st.id.client then st.endClock else s.state client := by
  rw [(h.append hpos hskip).state_eq, structs_append hstate]
  split
  next heq =>
    subst heq
    rw [lengthOf_append, ← h.state_eq, hstate]
    simp [Struct.endClock]
  next => rw [h.state_eq]

/-- What a split does to the structs of the client: `it` becomes `it'` and `right`. -/
structure Halves (it it' right : Item) : Prop where
  id_head : it'.id = it.id
  id_tail : right.id = ⟨it.id.client, it.id.clock + it'.len⟩
  len_add : it'.len + right.len = it.len
  head_pos : 0 < it'.len
  tail_pos : 0 < right.len

variable {it it' right : Item}

theorem structs_splitAt (hs : s.structs it.id.client = A ++ .item it :: B) (hid : it'.id = it.id)
    (client : ℕ) :
    (s.splitAt it' right A.length).structs client =
      if client = it.id.client then A ++ .item it' :: .item right :: B
      else s.structs client := by
  unfold splitAt
  rw [structs_insert, hid]
  split
  next => simp [hs, List.drop_append]
  next => rfl

theorem Gapless.splitAt (h : s.Gapless) (hs : s.structs it.id.client = A ++ .item it :: B)
    (hh : Halves it it' right) : (s.splitAt it' right A.length).Gapless := by
  unfold StructStore.splitAt
  have hrun := hs ▸ h.run it.id.client
  obtain ⟨hA, hid, -, -, hB⟩ := hrun.split
  refine h.insert ?_ (by simp)
  have hclock : it.id.clock = lengthOf A := by simpa using congrArg ID.clock hid
  have hlen := hh.len_add
  have hdrop : (A ++ .item it :: B).drop (A.length + 1) = B := by simp
  rw [hh.id_head, hs, List.take_left, hdrop]
  refine run_append.2 ⟨hA, ?_, hh.head_pos, rfl, ?_, hh.tail_pos, rfl, ?_⟩
  · simpa [hh.id_head] using hid
  · simp [hh.id_tail, hclock]
  · have hsum : lengthOf A + it'.len + right.len = lengthOf A + it.len := by omega
    simpa [hsum] using hB

theorem Gapless.state_splitAt (h : s.Gapless) (hs : s.structs it.id.client = A ++ .item it :: B)
    (hh : Halves it it' right) (client : ℕ) :
    (s.splitAt it' right A.length).state client = s.state client := by
  rw [(h.splitAt hs hh).state_eq, h.state_eq, structs_splitAt hs hh.id_head]
  split
  next heq =>
    have := hh.len_add
    simp only [heq, hs, lengthOf_append, lengthOf_cons, Struct.len_item]
    omega
  next => rfl

end StructStore

end YCollab.Crdt
