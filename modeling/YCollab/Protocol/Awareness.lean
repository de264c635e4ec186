import YCollab.Data.SortedMap
import YCollab.Protocol.Messages

/-!
# Awareness

`internal/protocol/awareness.go`: the last state every client published, with the clock it was
published at. A client that is gone keeps its clock for a while, so that a repeated old update
does not bring its cursor back.

A point in time and a duration are integers (nanoseconds). A walk over the map of entries goes
from the greatest client id to the smallest; the source's order is arbitrary, and it matters only
for which of two equally old entries `forgetOldest` drops.
-/

namespace YCollab.Protocol

open Lib0

/-- The bytes of a text of the source. -/
def text (s : String) : Bytes := s.toUTF8.toList

/-- `NullState`: what is written for a client that is gone. -/
def nullState : Bytes := [0x6e, 0x75, 0x6c, 0x6c]

/-- `DefaultTimeout`. -/
def defaultTimeout : ℤ := 30 * 10 ^ 9

/-- How long the clock of a removed client is remembered. -/
def forgetAfter : ℤ := 600 * 10 ^ 9

/-- `Limits`, as configured: zero is the default, a negative number is no limit. -/
structure Limits where
  /-- The largest state a client may publish, in bytes. -/
  maxState : ℤ := 0
  /-- How many clients one room will track. -/
  maxClients : ℤ := 0
  deriving DecidableEq

/-- The limit on a state that applies. -/
def Limits.stateLimit (l : Limits) : ℤ := if l.maxState = 0 then 4096 else l.maxState

/-- The limit on clients that applies. -/
def Limits.clientLimit (l : Limits) : ℤ := if l.maxClients = 0 then 1024 else l.maxClients

/-- What is known of a client. -/
structure Entry where
  clock : ℕ := 0
  /-- Raw JSON, meaningful only when `present`. -/
  state : Bytes := []
  present : Bool := false
  lastUpdated : ℤ := 0
  deriving DecidableEq

/-- `Awareness`: what is known of all clients. -/
structure Awareness where
  entries : SortedMap ℕ Entry := SortedMap.empty
  limits : Limits := {}
  /-- Counts the entries that hold a state. -/
  present : ℤ := 0

/-- Why an awareness update is refused. -/
inductive AwarenessErr where
  /-- An error of `lib0`. -/
  | lib0 (x : Err)
  /-- `ErrAwarenessClockOutOfRange`. -/
  | clockOutOfRange
  /-- `ErrStateTooLarge`, with the size and the limit. -/
  | stateTooLarge (size : ℕ) (max : ℤ)
  /-- `ErrTooManyClients`, with the number of states held. -/
  | tooManyClients (present : ℤ)
  /-- `ErrTrailingBytes`. -/
  | trailingBytes
  deriving DecidableEq

/-- What a client is told when it has broken one of the limits; the other errors are malformed
messages. -/
def AwarenessErr.refusal : AwarenessErr → Option Bytes
  | .stateTooLarge size max =>
    some (text s!"protocol: awareness state is too large: {size} bytes, limit {max}")
  | .tooManyClients present => some (text s!"protocol: too many awareness clients: {present}")
  | _ => none

namespace Awareness

variable (a : Awareness)

/-- `Len`: how many clients have a state. -/
def len : ℕ := (a.entries.entries.filter fun p => p.2.present).length

/-- `Clients`: the clients that have a state, in ascending order. -/
def clients : List ℕ := ((a.entries.entries.filter fun p => p.2.present).map Prod.fst).reverse

/-- `State`. -/
def state (client : ℕ) : Option Bytes :=
  match a.entries.find? client with
  | some e => if e.present then some e.state else none
  | none => none

/-- The oldest entry without a state. -/
def oldest : List (ℕ × Entry) → Option (ℕ × Entry)
  | [] => none
  | p :: l =>
    match oldest l with
    | none => if p.2.present then none else some p
    | some q => if !p.2.present && p.2.lastUpdated ≤ q.2.lastUpdated then some p else some q

/-- The loop of `forgetOldest`; the fuel is the number of entries. -/
def forgetLoop (limit : ℤ) : ℕ → Awareness → Awareness
  | 0, a => a
  | fuel + 1, a =>
    if a.entries.entries.length < limit then a
    else
      match oldest a.entries.entries with
      | none => a
      | some p => forgetLoop limit fuel { a with entries := a.entries.filter fun id _ => id ≠ p.1 }

/-- `forgetOldest`: drop removed entries, the oldest first, until fewer than `limit` are left. -/
def forgetOldest (limit : ℤ) : Awareness := forgetLoop limit a.entries.entries.length a

/-- What one entry of an update does, and whether the client changed. -/
def applyEntry (now : ℤ) (client clock : ℕ) (state : Bytes) :
    Except AwarenessErr (Awareness × Bool) :=
  if client > maxSafeInteger ∨ clock > maxSafeInteger then .error .clockOutOfRange
  else
    let known := a.entries.find? client
    let e := known.getD {}
    let isNull := state = nullState
    let maxState := a.limits.stateLimit
    let maxClients := a.limits.clientLimit
    if ¬isNull ∧ maxState > 0 ∧ state.length > maxState then
      .error (.stateTooLarge state.length maxState)
    else if ¬isNull ∧ maxClients > 0 ∧ (known = none ∨ ¬e.present) ∧ a.present ≥ maxClients then
      .error (.tooManyClients a.present)
    else if ¬(e.clock < clock ∨ (e.clock = clock ∧ isNull ∧ e.present)) then .ok (a, false)
    else
      let a := if known = none ∧ maxClients > 0 then a.forgetOldest (2 * maxClients) else a
      .ok ({ a with
        present :=
          if isNull then (if e.present then a.present - 1 else a.present)
          else (if e.present then a.present else a.present + 1)
        entries := a.entries.insert client
          { clock, state := if isNull then [] else state, present := ¬isNull
            lastUpdated := now } }, true)

/-- One entry of an update as it is written. -/
def readEntry : Read (ℕ × ℕ × Bytes) := do
  let client ← readVarUint
  let clock ← readVarUint
  let state ← readVarString
  pure (client, clock, state)

/-- The loop of `ApplyUpdate`: the entries before an error stay applied. -/
def applyLoop (now : ℤ) : ℕ → Bytes → Awareness → List ℕ →
    Awareness × List ℕ × Except AwarenessErr Bytes
  | 0, b, a, changed => (a, changed, .ok b)
  | n + 1, b, a, changed =>
    match readEntry b with
    | .error x => (a, changed, .error (.lib0 x))
    | .ok ((client, clock, state), b) =>
      match a.applyEntry now client clock state with
      | .error x => (a, changed, .error x)
      | .ok (a, c) => applyLoop now n b a (if c then changed ++ [client] else changed)

/-- `ApplyUpdate`: the new state, the clients that changed, and the error if there was one. -/
def applyUpdate (payload : Bytes) (now : ℤ) : Awareness × List ℕ × Option AwarenessErr :=
  match (do let n ← readVarUint; Read.checkRemaining n; pure n : Read ℕ) payload with
  | .error x => (a, [], some (.lib0 x))
  | .ok (n, b) =>
    match applyLoop now n b a [] with
    | (a, changed, .error x) => (a, changed, some x)
    | (a, changed, .ok []) => (a, changed, none)
    | (a, changed, .ok (_ :: _)) => (a, changed, some .trailingBytes)

/-- An entry: the client, its clock and its state. -/
def writeEntry (e : Encoder) (id : ℕ) : Encoder :=
  let ent := (a.entries.find? id).getD {}
  ((e.writeVarUint id).writeVarUint ent.clock).writeVarString
    (if ent.present then ent.state else nullState)

/-- `Encode`. -/
def encode (clients : List ℕ) : Except Err Bytes :=
  (clients.foldl a.writeEntry (({} : Encoder).writeVarUint clients.length)).result

/-- `EncodeAll`. -/
def encodeAll : Except Err Bytes := a.encode a.clients

/-- The entry of a client that is removed; its clock is left alone. -/
def dropState (now : ℤ) (a : Awareness) (id : ℕ) : Awareness :=
  let e := (a.entries.find? id).getD {}
  { a with
    present := if e.present then a.present - 1 else a.present
    entries := a.entries.insert id { e with present := false, state := [], lastUpdated := now } }

/-- `remove`: drop the states of `clients` and encode the announcement of it. -/
def remove (clients : List ℕ) (now : ℤ) : Awareness × Except Err Bytes :=
  let a := clients.foldl (dropState now) a
  (a, a.encode clients)

/-- `Sweep`: remove the states that were not renewed within `ttl` and forget the clocks that are
old enough. There is nothing to announce if no state is stale. -/
def sweep (now ttl : ℤ) : Awareness × Option (Except Err Bytes) :=
  let stale := ((a.entries.entries.filter fun p =>
    p.2.present ∧ now - p.2.lastUpdated ≥ ttl).map Prod.fst).reverse
  let a := { a with
    entries := a.entries.filter fun _ e => e.present ∨ now - e.lastUpdated < forgetAfter }
  match stale with
  | [] => (a, none)
  | stale =>
    let (a, payload) := a.remove stale now
    (a, some payload)

/-- `RemoveClients`. -/
def removeClients (clients : List ℕ) (now : ℤ) : Awareness × Option (Except Err Bytes) :=
  match clients.filter fun id => (a.state id).isSome with
  | [] => (a, none)
  | present =>
    let (a, payload) := a.remove present now
    (a, some payload)

/-! ### What the operations do to the states -/

variable {a} {a' : Awareness} {id client clock : ℕ} {now : ℤ} {payload : Bytes} {changed : List ℕ}

theorem state_congr (h : a'.entries.find? id = a.entries.find? id) : a'.state id = a.state id := by
  simp [state, h]

theorem state_filter {p : ℕ → Entry → Bool}
    (hp : ∀ e, a.entries.find? id = some e → e.present = true → p id e = true) :
    ({ a with entries := a.entries.filter p } : Awareness).state id = a.state id := by
  simp only [state, SortedMap.find?_filter]
  cases hfind : a.entries.find? id with
  | none => rfl
  | some e =>
    cases he : e.present with
    | true => simp [Option.filter, hp e hfind he, he]
    | false =>
      cases hpe : p id e with
      | true => simp [Option.filter, hpe, he]
      | false => simp [Option.filter, hpe, he]

theorem dropState_state (now : ℤ) (a : Awareness) (client id : ℕ) :
    (a.dropState now client).state id = if id = client then none else a.state id := by
  simp only [dropState, state, SortedMap.find?_insert]
  by_cases hid : id = client
  · simp [hid]
  · simp [hid]

theorem foldl_dropState_state (l : List ℕ) (a : Awareness) :
    (l.foldl (dropState now) a).state id = if id ∈ l then none else a.state id := by
  induction l generalizing a with
  | nil => rfl
  | cons client l ih =>
    rw [List.foldl_cons, ih, dropState_state]
    by_cases hl : id ∈ l
    · simp [hl]
    · simp [hl]

theorem removeClients_state (l : List ℕ) (id : ℕ) :
    (a.removeClients l now).1.state id = if id ∈ l then none else a.state id := by
  have hmem : ∀ {k}, k ∈ l.filter (fun id => (a.state id).isSome) ↔ k ∈ l ∧ (a.state k).isSome :=
    List.mem_filter
  have hnone : ¬(a.state id).isSome → a.state id = none := by simp
  unfold removeClients
  split
  next hnil =>
    rw [hnil] at hmem
    split
    next hl => exact hnone fun hs => by cases hmem.2 ⟨hl, hs⟩
    next => rfl
  next heq =>
    simp only [remove, foldl_dropState_state, hmem]
    by_cases hl : id ∈ l
    · by_cases hs : (a.state id).isSome
      · simp [hl, hs]
      · simp [hl, hnone hs]
    · simp [hl]

theorem sweep_state (now ttl : ℤ) (id : ℕ) :
    (a.sweep now ttl).1.state id = none ∨ (a.sweep now ttl).1.state id = a.state id := by
  have hkeep : ({ a with entries := (a.entries.filter
      fun _ e => e.present ∨ now - e.lastUpdated < forgetAfter) } : Awareness).state id =
      a.state id := state_filter fun e _ he => by simp [he]
  unfold sweep
  simp only
  split
  · exact .inr hkeep
  · simp only [remove, foldl_dropState_state]
    split
    · exact .inl rfl
    · exact .inr hkeep

theorem oldest_not_present {l : List (ℕ × Entry)} {p : ℕ × Entry} (h : oldest l = some p) :
    p ∈ l ∧ p.2.present = false := by
  induction l generalizing p with
  | nil => cases h
  | cons q l ih =>
    simp only [oldest] at h
    split at h
    next hnone =>
      split at h
      · cases h
      next hq =>
        cases h
        exact ⟨List.mem_cons_self .., by simpa using hq⟩
    next q' hq' =>
      split at h
      next hq =>
        cases h
        simp only [Bool.and_eq_true, Bool.not_eq_true', decide_eq_true_eq] at hq
        exact ⟨List.mem_cons_self .., hq.1⟩
      · obtain ⟨hm, hp⟩ := ih (hq'.trans h)
        exact ⟨List.mem_cons_of_mem _ hm, hp⟩

theorem forgetLoop_state (limit : ℤ) (n : ℕ) (a : Awareness) :
    (forgetLoop limit n a).state id = a.state id := by
  induction n generalizing a with
  | zero => rfl
  | succ n ih =>
    unfold forgetLoop
    split
    · rfl
    · split
      · rfl
      next p hp =>
        obtain ⟨hm, hpresent⟩ := oldest_not_present hp
        refine (ih _).trans (state_filter fun e hfind he => ?_)
        simp only [decide_eq_true_eq]
        rintro rfl
        obtain rfl := Option.some.inj (hfind.symm.trans (SortedMap.find?_eq_some.2 hm))
        rw [hpresent] at he
        cases he

/-- An entry of an update touches the state of its own client only. -/
theorem applyEntry_state {state : Bytes} {c : Bool}
    (h : a.applyEntry now client clock state = .ok (a', c)) :
    a'.state id = a.state id ∨ (c = true ∧ id = client) := by
  unfold applyEntry at h
  split at h
  · cases h
  simp only at h
  split at h
  · cases h
  split at h
  · cases h
  split at h
  · cases h
    exact .inl rfl
  · cases h
    by_cases hid : id = client
    · exact .inr ⟨rfl, hid⟩
    · left
      refine (state_congr (SortedMap.find?_insert_of_ne _ _ hid)).trans ?_
      split
      · exact forgetLoop_state ..
      · rfl

theorem applyLoop_state {n : ℕ} {b : Bytes} {changed' : List ℕ} {res : Except AwarenessErr Bytes}
    (h : applyLoop now n b a changed = (a', changed', res)) :
    (∀ id ∈ changed, id ∈ changed') ∧ ∀ id, a'.state id = a.state id ∨ id ∈ changed' := by
  induction n generalizing b a changed with
  | zero =>
    cases h
    exact ⟨fun _ hid => hid, fun _ => .inl rfl⟩
  | succ n ih =>
    unfold applyLoop at h
    split at h
    · cases h
      exact ⟨fun _ hid => hid, fun _ => .inl rfl⟩
    next client clock state b _ =>
      split at h
      · cases h
        exact ⟨fun _ hid => hid, fun _ => .inl rfl⟩
      next a₁ c happ =>
        obtain ⟨hsub, hstate⟩ := ih h
        refine ⟨fun id hid => hsub id ?_, fun id => ?_⟩
        · split
          · exact List.mem_append_left _ hid
          · exact hid
        · have hentry : a₁.state id = a.state id ∨ (c = true ∧ id = client) := applyEntry_state happ
          rcases hentry with heq | ⟨rfl, rfl⟩
          · exact heq ▸ hstate id
          · exact .inr (hsub id (by simp))

/-- **An update touches the states of the clients it reports as changed**, whether it is accepted
or refused. -/
theorem applyUpdate_state {err : Option AwarenessErr}
    (h : a.applyUpdate payload now = (a', changed, err)) (id : ℕ) :
    a'.state id = a.state id ∨ id ∈ changed := by
  unfold applyUpdate at h
  split at h
  · cases h
    exact .inl rfl
  · split at h
    all_goals
      next heq =>
        cases h
        exact (applyLoop_state heq).2 id

end Awareness

end YCollab.Protocol
