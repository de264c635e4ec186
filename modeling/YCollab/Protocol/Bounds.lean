import YCollab.Protocol.Awareness

/-!
# The bounds on awareness

Client ids are chosen by the clients, so the tracker of a room is bounded by counting: at most
`clientLimit` states are held, at most twice as many clocks are remembered, and no state is longer
than `stateLimit`. The count of the states is kept in a counter beside the entries.

Every call is made of three moves: an entry of an update is accepted (`applyEntry`), the state of a
tracked client is dropped (`dropState`), entries without a state are forgotten (a `filter`).
`Closed.call` is the rule for what these moves keep. `Kept` is about the numbers and `Sized` about
what can be written back out; both are kept by the moves, so both hold in every run.
-/

namespace YCollab.Protocol

open Lib0

/-- A call that changes the tracker. -/
inductive Call where
  | applyUpdate (payload : Bytes) (now : ℤ)
  | removeClients (clients : List ℕ) (now : ℤ)
  | sweep (now ttl : ℤ)

namespace Awareness

/-- `NewAwarenessWithLimits`. -/
def newAwarenessWithLimits (limits : Limits) : Awareness := { limits }

/-- The tracker after a call, whether it reports an error or not. -/
def call (a : Awareness) : Call → Awareness
  | .applyUpdate payload now => (a.applyUpdate payload now).1
  | .removeClients clients now => (a.removeClients clients now).1
  | .sweep now ttl => (a.sweep now ttl).1

/-- The tracker after a run of calls. -/
def calls (a : Awareness) (l : List Call) : Awareness := l.foldl call a

/-- The entry the source reads for a client: one without a state if the client is not tracked. -/
def entry (a : Awareness) (id : ℕ) : Entry := (a.entries.find? id).getD {}

/-- Store the entry of a client and correct the counter. -/
def put (a : Awareness) (id : ℕ) (e : Entry) : Awareness :=
  { a with
    entries := a.entries.insert id e
    present := a.present - (if (a.entry id).present then 1 else 0) + if e.present then 1 else 0 }

variable {a a' : Awareness} {id client clock : ℕ} {now ttl : ℤ} {payload state : Bytes}

theorem dropState_eq_put :
    a.dropState now id =
      a.put id { a.entry id with present := false, state := [], lastUpdated := now } := by
  unfold dropState put entry
  by_cases hpres : ((a.entries.find? id).getD {}).present
  · simp [hpres]
  · simp [hpres]

/-! ### Counting entries -/

theorem len_eq_countP : a.len = a.entries.entries.countP fun p => p.2.present :=
  (List.countP_eq_length_filter ..).symm

theorem countP_others (a : Awareness) (id : ℕ) :
    a.len = ((a.entries.entries.filter fun p => p.1 ≠ id).countP fun p => p.2.present) +
      if (a.entry id).present then 1 else 0 := by
  rw [len_eq_countP, entry]
  cases hfind : a.entries.find? id with
  | none => rw [SortedMap.filter_of_find?_none hfind]; simp
  | some e => rw [(SortedMap.perm_of_find? hfind).countP_eq, List.countP_cons]; rfl

theorem put_len (a : Awareness) (id : ℕ) (e : Entry) :
    ((a.put id e).len : ℤ) =
      a.len - (if (a.entry id).present then 1 else 0) + if e.present then 1 else 0 := by
  have hput : (a.put id e).len =
      ((a.entries.entries.filter fun p => p.1 ≠ id).countP fun p => p.2.present) +
        if e.present then 1 else 0 := by
    rw [len_eq_countP, put, (SortedMap.insert_perm ..).countP_eq, List.countP_cons]
  rw [hput, countP_others a id]
  push_cast
  ring

theorem put_length_of_known {e : Entry} (h : a.entries.find? id ≠ none) :
    (a.put id e).entries.entries.length = a.entries.entries.length := by
  obtain ⟨u, hu⟩ := Option.ne_none_iff_exists'.1 h
  rw [put, (SortedMap.insert_perm ..).length_eq, (SortedMap.perm_of_find? hu).length_eq]
  rfl

theorem put_length_le {e : Entry} :
    (a.put id e).entries.entries.length ≤ a.entries.entries.length + 1 :=
  SortedMap.length_insertEntry_le ..

theorem len_filter {p : ℕ → Entry → Bool} (hp : ∀ q ∈ a.entries.entries, q.2.present → p q.1 q.2) :
    ({ a with entries := a.entries.filter p } : Awareness).len = a.len := by
  rw [len, len]
  simp only [SortedMap.filter, List.filter_filter]
  refine congrArg _ (List.filter_congr fun q hq => ?_)
  cases hpres : q.2.present with
  | true => simpa using hp q hq hpres
  | false => rfl

/-! ### Forgetting -/

theorem exists_oldest {l : List (ℕ × Entry)} (h : ∃ p ∈ l, p.2.present = false) :
    ∃ p, oldest l = some p := by
  induction l with
  | nil => simp at h
  | cons q l ih =>
    unfold oldest
    split
    next hnone =>
      obtain ⟨p, hp, hpres⟩ := h
      rcases List.mem_cons.1 hp with rfl | hp
      · exact ⟨p, by simp [hpres]⟩
      · obtain ⟨p', hp'⟩ := ih ⟨p, hp, hpres⟩
        rw [hnone] at hp'
        cases hp'
    next => split <;> exact ⟨_, rfl⟩

/-- What `forgetLoop` gives is what it was given without some entries that hold no state. -/
theorem forgetLoop_keeps {I : Awareness → Prop}
    (hI : ∀ (a : Awareness) (p : ℕ → Entry → Bool), I a →
      (∀ q ∈ a.entries.entries, q.2.present → p q.1 q.2) →
      I { a with entries := a.entries.filter p })
    (limit : ℤ) (fuel : ℕ) (h : I a) : I (forgetLoop limit fuel a) := by
  induction fuel generalizing a with
  | zero => exact h
  | succ fuel ih =>
    unfold forgetLoop
    split
    · exact h
    · split
      · exact h
      next p hp =>
        obtain ⟨hm, hpres⟩ := oldest_not_present hp
        refine ih (hI a _ h fun q hq hq' => ?_)
        -- the victim holds no state, so `q` is another entry
        simp only [ne_eq, decide_not, Bool.not_eq_true', decide_eq_false_iff_not]
        intro heq
        have hqp : a.entries.find? q.1 = some p.2 := heq ▸ SortedMap.find?_eq_some.2 hm
        rw [SortedMap.find?_eq_some.2 hq, Option.some.injEq] at hqp
        rw [hqp, hpres] at hq'
        cases hq'

/-- **A victim is always found**: as long as fewer than `limit` states are held, `forgetOldest`
leaves fewer than `limit` entries. -/
theorem forgetLoop_length {limit : ℤ} {fuel : ℕ} (hlen : a.len < limit)
    (hfuel : a.entries.entries.length ≤ fuel) :
    ((forgetLoop limit fuel a).entries.entries.length : ℤ) < limit := by
  induction fuel generalizing a with
  | zero =>
    have : a.entries.entries.length = 0 := by omega
    simp only [forgetLoop, this]
    omega
  | succ fuel ih =>
    unfold forgetLoop
    split
    next hlt => exact hlt
    next hge =>
      -- not every entry holds a state, or `len` would be their number
      have hex : ∃ p ∈ a.entries.entries, p.2.present = false := by
        by_contra hall
        have hself : (a.entries.entries.filter fun p => p.2.present) = a.entries.entries :=
          List.filter_eq_self.2 fun p hp => by
            by_contra hpres
            exact hall ⟨p, hp, by simpa using hpres⟩
        rw [len, hself] at hlen
        exact hge hlen
      obtain ⟨p, hp⟩ := exists_oldest hex
      obtain ⟨hm, hpres⟩ := oldest_not_present hp
      rw [hp]
      refine ih ?_ ?_
      · refine lt_of_le_of_lt ?_ hlen
        rw [len_eq_countP, len_eq_countP]
        exact_mod_cast List.Sublist.countP_le List.filter_sublist
      · have hperm := (SortedMap.perm_of_find? (SortedMap.find?_eq_some.2 hm)).length_eq
        rw [List.length_cons] at hperm
        show (a.entries.entries.filter fun q => decide (q.1 ≠ p.1)).length ≤ fuel
        omega

theorem forgetLoop_find?_none (limit : ℤ) (fuel : ℕ) (h : a.entries.find? id = none) :
    (forgetLoop limit fuel a).entries.find? id = none := by
  refine forgetLoop_keeps (I := fun a => a.entries.find? id = none) (fun a p h _ => ?_)
    limit fuel h
  simp only [SortedMap.find?_filter, h, Option.filter_none]

/-! ### What an entry of an update does -/

/-- The entry that an accepted entry of an update leaves for its client. -/
def published (now : ℤ) (clock : ℕ) (state : Bytes) : Entry where
  clock
  state := if state = nullState then [] else state
  present := state ≠ nullState
  lastUpdated := now

/-- The tracker an unknown client is added to. -/
def makeRoom (a : Awareness) (client : ℕ) : Awareness :=
  if a.entries.find? client = none ∧ a.limits.clientLimit > 0 then
    a.forgetOldest (2 * a.limits.clientLimit)
  else a

theorem makeRoom_find? (a : Awareness) (client : ℕ) :
    (a.makeRoom client).entries.find? client = a.entries.find? client := by
  unfold makeRoom
  split
  next hroom => rw [forgetOldest, forgetLoop_find?_none _ _ hroom.1, hroom.1]
  next => rfl

theorem makeRoom_entry (a : Awareness) (client : ℕ) :
    (a.makeRoom client).entry client = a.entry client := by
  rw [entry, makeRoom_find?, entry]

/-- The clock rule ignores the entry: its clock is not newer, and it does not retract a state at
the clock of that state. -/
def Stale (a : Awareness) (x : ℕ × ℕ × Bytes) : Prop :=
  ¬((a.entry x.1).clock < x.2.1 ∨
    ((a.entry x.1).clock = x.2.1 ∧ x.2.2 = nullState ∧ (a.entry x.1).present))

instance (a : Awareness) (x : ℕ × ℕ × Bytes) : Decidable (a.Stale x) :=
  inferInstanceAs (Decidable (¬_))

/-- What the checks before the clock rule say about an entry. -/
def refusal (a : Awareness) (x : ℕ × ℕ × Bytes) : Option AwarenessErr :=
  if x.1 > maxSafeInteger ∨ x.2.1 > maxSafeInteger then some .clockOutOfRange
  else if x.2.2 ≠ nullState ∧ a.limits.stateLimit > 0 ∧ x.2.2.length > a.limits.stateLimit then
    some (.stateTooLarge x.2.2.length a.limits.stateLimit)
  else if x.2.2 ≠ nullState ∧ a.limits.clientLimit > 0 ∧
      (a.entries.find? x.1 = none ∨ ¬(a.entry x.1).present) ∧ a.present ≥ a.limits.clientLimit then
    some (.tooManyClients a.present)
  else none

/-- The tracker after an entry that passes the checks: room is made for an entry that is stored. -/
def accept (now : ℤ) (a : Awareness) (x : ℕ × ℕ × Bytes) : Awareness :=
  if a.Stale x then a else (a.makeRoom x.1).put x.1 (published now x.2.1 x.2.2)

/-- An entry is refused by the checks, or it is accepted and its client has changed unless it is
stale. -/
theorem applyEntry_eq_accept (a : Awareness) (now : ℤ) (x : ℕ × ℕ × Bytes) :
    a.applyEntry now x.1 x.2.1 x.2.2 =
      match a.refusal x with
      | some err => .error err
      | none => .ok (a.accept now x, !decide (a.Stale x)) := by
  unfold applyEntry refusal
  split
  · rfl
  simp only
  split
  · rfl
  split
  next hfull => rw [entry, if_pos hfull]
  next hfull =>
    rw [entry, if_neg hfull]
    split
    next hold => simp [accept, show a.Stale x from hold]
    next hnew =>
      simp only [accept, show ¬a.Stale x from hnew, if_false, decide_false, Bool.not_false]
      rw [put, makeRoom_entry]
      -- the counter follows the state of the client: four cases, before and after
      by_cases hnull : x.2.2 = nullState
      · by_cases hpres : ((a.entries.find? x.1).getD {}).present
        · simp [published, hnull, hpres, makeRoom, entry]
        · simp [published, hnull, hpres, makeRoom, entry]
      · by_cases hpres : ((a.entries.find? x.1).getD {}).present
        · simp [published, hnull, hpres, makeRoom, entry]
        · simp [published, hnull, hpres, makeRoom, entry]

theorem applyEntry_eq {c : Bool} (h : a.applyEntry now client clock state = .ok (a', c)) :
    client ≤ maxSafeInteger ∧ clock ≤ maxSafeInteger ∧
    (state ≠ nullState → 0 < a.limits.stateLimit → state.length ≤ a.limits.stateLimit) ∧
    (state ≠ nullState → 0 < a.limits.clientLimit → (a.entry client).present = false →
      a.present < a.limits.clientLimit) ∧
    a' = a.accept now (client, clock, state) := by
  rw [applyEntry_eq_accept a now (client, clock, state)] at h
  split at h
  next => cases h
  next href =>
    cases h
    unfold refusal at href
    split_ifs at href with hrange hstate hclients
    simp only at hrange hstate hclients
    refine ⟨by omega, by omega, fun hnull hlimit => ?_, fun hnull hlimit hpres => ?_, rfl⟩
    · by_contra hlong
      exact hstate ⟨hnull, hlimit, by omega⟩
    · by_contra hfull
      exact hclients ⟨hnull, hlimit, .inr (by simpa using hpres), by omega⟩

/-! ### What the calls keep -/

/-- `I` is kept by the moves that the calls are made of, as long as no state is longer than `n`. -/
structure Closed (I : Awareness → Prop) (n : ℕ) : Prop where
  /-- Accepting an entry of an update. -/
  entry : ∀ {a a' : Awareness} {now : ℤ} {client clock : ℕ} {state : Bytes} {c : Bool}, I a →
    state.length ≤ n → a.applyEntry now client clock state = .ok (a', c) → I a'
  /-- Dropping the state of a tracked client. -/
  drop : ∀ {a : Awareness} {now : ℤ} {id : ℕ}, I a → a.entries.find? id ≠ none →
    I (a.dropState now id)
  /-- Forgetting entries that hold no state. -/
  forget : ∀ {a : Awareness} {p : ℕ → Entry → Bool}, I a →
    (∀ q ∈ a.entries.entries, q.2.present → p q.1 q.2) → I { a with entries := a.entries.filter p }

/-- A string is no longer than what it is read from. -/
theorem readVarString_length {b rest s : Bytes} (h : readVarString b = .ok (s, rest)) :
    s.length ≤ b.length ∧ rest.length ≤ b.length := by
  unfold readVarString readVarUint8Array at h
  rw [Read.bind_run] at h
  split at h
  next n mid hn =>
    have hmid : mid.length ≤ b.length := readVarUintLoop_length hn
    rw [Read.bind_run] at h
    unfold Read.checkRemaining readBytes at h
    split at h
    next hcheck =>
      split at hcheck
      · cases hcheck
      · cases hcheck
        split at h
        · cases h
        · cases h
          simp only [List.length_take, List.length_drop]
          omega
    next => cases h
  next => cases h

theorem readEntry_length {b rest : Bytes} {x : ℕ × ℕ × Bytes} (h : readEntry b = .ok (x, rest)) :
    x.2.2.length ≤ b.length ∧ rest.length ≤ b.length := by
  unfold readEntry at h
  rw [Read.bind_run] at h
  split at h
  next client b₁ hclient =>
    have hb₁ : b₁.length ≤ b.length := readVarUintLoop_length hclient
    rw [Read.bind_run] at h
    split at h
    next clock b₂ hclock =>
      have hb₂ : b₂.length ≤ b₁.length := readVarUintLoop_length hclock
      rw [Read.bind_run] at h
      split at h
      next state b₃ hstate =>
        cases h
        obtain ⟨hlen, hrest⟩ := readVarString_length hstate
        exact ⟨hlen.trans (hb₂.trans hb₁), hrest.trans (hb₂.trans hb₁)⟩
      next => cases h
    next => cases h
  next => cases h

theorem readCount_length {b rest : Bytes} {k : ℕ}
    (h : (do let n ← readVarUint; Read.checkRemaining n; pure n : Read ℕ) b = .ok (k, rest)) :
    rest.length ≤ b.length := by
  rw [Read.bind_run] at h
  split at h
  next n mid hn =>
    rw [Read.bind_run] at h
    unfold Read.checkRemaining at h
    split at h
    next hcheck =>
      split at hcheck
      · cases hcheck
      · cases hcheck
        cases h
        exact readVarUintLoop_length hn
    next => cases h
  next => cases h

theorem known_of_state (h : (a.state id).isSome) : a.entries.find? id ≠ none := by
  intro hnone
  simp [Awareness.state, hnone] at h

theorem known_of_stale {p : Entry → Prop} [DecidablePred p]
    (h : id ∈ ((a.entries.entries.filter fun q =>
      q.2.present ∧ now - q.2.lastUpdated ≥ ttl).map Prod.fst).reverse) :
    (a.entries.filter fun _ e => e.present ∨ p e).find? id ≠ none := by
  simp only [List.mem_reverse, List.mem_map, List.mem_filter, decide_eq_true_eq] at h
  obtain ⟨q, ⟨hq, hpres, -⟩, rfl⟩ := h
  rw [SortedMap.find?_filter, SortedMap.find?_eq_some.2 hq]
  simp [Option.filter, hpres]

section Closed

variable {I : Awareness → Prop} {n : ℕ}

theorem Closed.applyLoop (hI : Closed I n) {k : ℕ} {b : Bytes} {changed : List ℕ} (h : I a)
    (hb : b.length ≤ n) : I (applyLoop now k b a changed).1 := by
  induction k generalizing b a changed with
  | zero => exact h
  | succ k ih =>
    unfold Awareness.applyLoop
    split
    · exact h
    next client clock state rest hread =>
      obtain ⟨hstate, hrest⟩ := readEntry_length hread
      split
      · exact h
      next a' c happ => exact ih (hI.entry h (hstate.trans hb) happ) (hrest.trans hb)

theorem Closed.applyUpdate (hI : Closed I n) (h : I a) (hb : payload.length ≤ n) :
    I (a.applyUpdate payload now).1 := by
  unfold Awareness.applyUpdate
  split
  · exact h
  next k rest hread =>
    have hloop : I (Awareness.applyLoop now k rest a []).1 :=
      hI.applyLoop h ((readCount_length hread).trans hb)
    split
    all_goals
      next heq =>
        rw [heq] at hloop
        exact hloop

theorem Closed.foldl_drop (hI : Closed I n) {l : List ℕ} (h : I a)
    (hl : ∀ id ∈ l, a.entries.find? id ≠ none) : I (l.foldl (dropState now) a) := by
  induction l generalizing a with
  | nil => exact h
  | cons id l ih =>
    refine ih (hI.drop h (hl id (by simp))) fun id' hid' => ?_
    -- a dropped client stays tracked, so the clients that follow are tracked still
    simp only [dropState, SortedMap.find?_insert]
    split
    · simp
    · exact hl id' (by simp [hid'])

theorem Closed.removeClients (hI : Closed I n) (h : I a) (l : List ℕ) :
    I (a.removeClients l now).1 := by
  unfold Awareness.removeClients
  split
  · exact h
  · exact hI.foldl_drop h fun id hid => known_of_state (List.mem_filter.1 hid).2

theorem Closed.sweep (hI : Closed I n) (h : I a) : I (a.sweep now ttl).1 := by
  have hforget : I { a with
      entries := a.entries.filter fun _ e => e.present ∨ now - e.lastUpdated < forgetAfter } :=
    hI.forget h fun q _ hq => by simp [hq]
  unfold Awareness.sweep
  simp only
  split
  · exact hforget
  · exact hI.foldl_drop hforget fun id hid => known_of_stale hid

/-- **The rule for calls**: what the moves keep, a call keeps. -/
theorem Closed.call (hI : Closed I n) (h : I a) (c : Call)
    (hc : ∀ payload now, c = .applyUpdate payload now → payload.length ≤ n) : I (a.call c) := by
  cases c with
  | applyUpdate payload now => exact hI.applyUpdate h (hc payload now rfl)
  | removeClients l now => exact hI.removeClients h l
  | sweep now ttl => exact hI.sweep h

end Closed

/-! ### The numbers -/

/-- What is counted and bounded under the limits `l`. -/
structure Kept (l : Limits) (a : Awareness) : Prop where
  limits : a.limits = l
  /-- The counter counts the entries that hold a state. -/
  count : a.present = a.len
  present_le : a.present ≤ l.clientLimit
  entries_le : (a.entries.entries.length : ℤ) ≤ 2 * l.clientLimit
  state_le : ∀ q ∈ a.entries.entries, q.2.present → 0 < l.stateLimit →
    (q.2.state.length : ℤ) ≤ l.stateLimit

variable {l : Limits}

theorem Kept.put {e : Entry} (h : a.Kept l)
    (hroom : a.entries.find? id = none → (a.entries.entries.length : ℤ) < 2 * l.clientLimit)
    (hplace : e.present → (a.entry id).present = false → a.present < l.clientLimit)
    (hstate : e.present → 0 < l.stateLimit → (e.state.length : ℤ) ≤ l.stateLimit) :
    (a.put id e).Kept l where
  limits := h.limits
  count := by rw [put_len, ← h.count]; rfl
  present_le := by
    have hle := h.present_le
    simp only [Awareness.put]
    by_cases he : e.present
    · cases hold : (a.entry id).present with
      | true => simpa [he] using hle
      | false =>
        have hlt := hplace he hold
        simp only [he]
        omega
    · simp only [he, Bool.false_eq_true, if_false]
      split <;> omega
  entries_le := by
    by_cases hknown : a.entries.find? id = none
    · have hlen : (a.put id e).entries.entries.length ≤ a.entries.entries.length + 1 :=
        put_length_le
      have hlt := hroom hknown
      omega
    · rw [put_length_of_known hknown]
      exact h.entries_le
  state_le q hq hpres := by
    rcases SortedMap.mem_entries_insert hq with rfl | hq
    · exact hstate hpres
    · exact h.state_le q hq hpres

theorem Kept.filter {p : ℕ → Entry → Bool} (h : a.Kept l)
    (hp : ∀ q ∈ a.entries.entries, q.2.present → p q.1 q.2) :
    ({ a with entries := a.entries.filter p } : Awareness).Kept l where
  limits := h.limits
  count := h.count.trans (congrArg _ (len_filter hp).symm)
  present_le := h.present_le
  entries_le := by
    refine le_trans ?_ h.entries_le
    exact_mod_cast List.length_filter_le ..
  state_le q hq := h.state_le q (List.mem_filter.1 hq).1

theorem Kept.makeRoom (h : a.Kept l) (hl : 0 < l.clientLimit) (client : ℕ) :
    (a.makeRoom client).Kept l ∧ (a.entries.find? client = none →
      ((a.makeRoom client).entries.entries.length : ℤ) < 2 * l.clientLimit) := by
  have hlen : (a.len : ℤ) < 2 * a.limits.clientLimit := by
    have hle := h.present_le
    rw [h.limits, ← h.count]
    omega
  unfold Awareness.makeRoom
  split
  next hroom =>
    refine ⟨forgetLoop_keeps (I := Kept l) (fun a p h hp => h.filter hp) _ _ h, fun _ => ?_⟩
    exact (forgetLoop_length hlen le_rfl).trans_eq (by rw [h.limits])
  next hknown =>
    refine ⟨h, fun hnone => absurd ⟨hnone, ?_⟩ hknown⟩
    rw [h.limits]
    exact hl

theorem makeRoom_present (a : Awareness) (client : ℕ) :
    (a.makeRoom client).present = a.present := by
  unfold makeRoom
  split
  · exact forgetLoop_keeps (I := fun a' => a'.present = a.present) (fun _ _ h _ => h) _ _ rfl
  · rfl

theorem Kept.closed (hl : 0 < l.clientLimit) (n : ℕ) : Closed (Kept l) n where
  entry {a a' now client clock state c} h _ happ := by
    obtain ⟨-, -, hstate, hclients, rfl⟩ := applyEntry_eq happ
    rw [h.limits] at hstate hclients
    unfold accept
    split
    · exact h
    · obtain ⟨hroom, hlt⟩ := h.makeRoom hl client
      have hnull : (published now clock state).present → state ≠ nullState := by
        simp [published]
      refine hroom.put (fun hnone => hlt (makeRoom_find? a client ▸ hnone))
        (fun hpres hold => ?_) fun hpres hlimit => ?_
      · rw [makeRoom_entry] at hold
        rw [makeRoom_present]
        exact hclients (hnull hpres) hl hold
      · simp only [published, hnull hpres]
        exact hstate (hnull hpres) hlimit
  drop h hknown := by
    rw [dropState_eq_put]
    exact h.put (fun hnone => absurd hnone hknown) nofun nofun
  forget h hp := h.filter hp

/-! ### What can be written -/

/-- Every id, clock and state is one that the encoder can write. -/
def Sized (a : Awareness) : Prop :=
  ∀ q ∈ a.entries.entries, q.1 ≤ maxSafeInteger ∧ q.2.clock ≤ maxSafeInteger ∧
    q.2.state.length ≤ maxSafeInteger

theorem Sized.put {e : Entry} (h : a.Sized) (hid : id ≤ maxSafeInteger)
    (hclock : e.clock ≤ maxSafeInteger) (hstate : e.state.length ≤ maxSafeInteger) :
    (a.put id e).Sized := by
  intro q hq
  rcases SortedMap.mem_entries_insert hq with rfl | hq
  · exact ⟨hid, hclock, hstate⟩
  · exact h q hq

theorem Sized.filter (h : a.Sized) (p : ℕ → Entry → Bool) :
    ({ a with entries := a.entries.filter p } : Awareness).Sized :=
  fun q hq => h q (List.mem_filter.1 hq).1

theorem Sized.entry (h : a.Sized) (id : ℕ) :
    (a.entry id).clock ≤ maxSafeInteger ∧ (a.entry id).state.length ≤ maxSafeInteger := by
  unfold Awareness.entry
  cases hfind : a.entries.find? id with
  | none => exact ⟨Nat.zero_le _, Nat.zero_le _⟩
  | some e => exact (h (id, e) (SortedMap.find?_eq_some.1 hfind)).2

theorem Sized.id_le (h : a.Sized) (hknown : a.entries.find? id ≠ none) : id ≤ maxSafeInteger := by
  obtain ⟨e, he⟩ := Option.ne_none_iff_exists'.1 hknown
  exact (h (id, e) (SortedMap.find?_eq_some.1 he)).1

theorem Sized.closed : Closed Sized maxSafeInteger where
  entry {a a' now client clock state c} h hlen happ := by
    obtain ⟨hclient, hclock, -, -, rfl⟩ := applyEntry_eq happ
    unfold accept
    split
    · exact h
    · have hroom : (a.makeRoom client).Sized := by
        unfold makeRoom
        split
        · exact forgetLoop_keeps (fun a p h _ => h.filter p) _ _ h
        · exact h
      refine hroom.put hclient hclock ?_
      simp only [published]
      split
      · exact Nat.zero_le _
      · exact hlen
  drop {a now id} h hknown := by
    rw [dropState_eq_put]
    exact h.put (h.id_le hknown) (h.entry id).1 (Nat.zero_le _)
  forget h _ := h.filter _

theorem writeEntry_appends (id : ℕ) : Appends (a.writeEntry · id) :=
  ((writeVarUint_appends id).comp (writeVarUint_appends _)).comp (writeVarUint8Array_appends _)

/-- **What `Encode` refuses**: of a tracker whose entries can be written, exactly the lists with an
id that cannot be written. -/
theorem Sized.encode_iff (h : a.Sized) (clients : List ℕ) :
    (∃ b, a.encode clients = .ok b) ↔
      clients.length ≤ maxSafeInteger ∧ ∀ id ∈ clients, id ≤ maxSafeInteger := by
  constructor
  · rintro ⟨b, hb⟩
    refine ⟨Nat.le_of_not_lt fun hlt => ?_, fun id hid => Nat.le_of_not_lt fun hlt => ?_⟩
    · exact ((writeVarUint_fails hlt).andThen (foldl_appends writeEntry_appends _)).result b hb
    · have hf : Fails (a.writeEntry · id) :=
        ((writeVarUint_fails hlt).andThen (writeVarUint_appends _)).andThen
          (writeVarUint8Array_appends _)
      exact ((foldl_fails hid hf writeEntry_appends).after
        (·.writeVarUint clients.length)).result b hb
  · rintro ⟨hlen, hid⟩
    have hentry : ∀ id ∈ clients, Writes (a.writeEntry · id) _ := fun id hmem =>
      ((writeVarUint_writes (hid id hmem)).comp (writeVarUint_writes (h.entry id).1)).comp
        (writeVarString_writes (b := if (a.entry id).present then (a.entry id).state else nullState)
          (by
            split
            · exact (h.entry id).2
            · decide))
    exact ⟨_, ((writeVarUint_writes hlen).comp (foldl_writes hentry)).result⟩

theorem Sized.remove (h : a.Sized) {clients : List ℕ} (hlen : clients.length ≤ maxSafeInteger)
    (hknown : ∀ id ∈ clients, a.entries.find? id ≠ none) (x : Err) :
    (a.remove clients now).2 ≠ .error x := by
  have hdrop : (clients.foldl (dropState now) a).Sized := Sized.closed.foldl_drop h hknown
  obtain ⟨b, hb⟩ := (hdrop.encode_iff clients).2 ⟨hlen, fun id hid => h.id_le (hknown id hid)⟩
  simp [Awareness.remove, hb]

theorem Sized.removeClients (h : a.Sized) {clients : List ℕ}
    (hlen : clients.length ≤ maxSafeInteger) (x : Err) :
    (a.removeClients clients now).2 ≠ some (.error x) := by
  unfold Awareness.removeClients
  split
  · simp
  · intro heq
    refine h.remove ((List.length_filter_le ..).trans hlen) (fun id hid => ?_) x
      (Option.some.inj heq)
    exact known_of_state (List.mem_filter.1 hid).2

theorem Sized.sweep (h : a.Sized) (hlen : a.len ≤ maxSafeInteger) (x : Err) :
    (a.sweep now ttl).2 ≠ some (.error x) := by
  unfold Awareness.sweep
  simp only
  split
  · simp
  · intro heq
    refine (h.filter _).remove ?_ (fun id hid => known_of_stale hid) x (Option.some.inj heq)
    rw [List.length_reverse, List.length_map, ← List.countP_eq_length_filter]
    refine le_trans (List.countP_mono_left fun q _ hq => ?_) (len_eq_countP ▸ hlen)
    simp only [decide_eq_true_eq] at hq
    exact hq.1

/-! ### Runs -/

theorem Closed.calls {I : Awareness → Prop} {n : ℕ} (hI : Closed I n) (h : I a) (cs : List Call)
    (hcs : ∀ payload now, .applyUpdate payload now ∈ cs → payload.length ≤ n) :
    I (a.calls cs) := by
  induction cs generalizing a with
  | nil => exact h
  | cons c cs ih =>
    refine ih (hI.call h c ?_) fun payload now hc => hcs payload now (by simp [hc])
    rintro payload now rfl
    exact hcs payload now (by simp)

theorem calls_kept (hl : 0 < l.clientLimit) (cs : List Call) :
    ((newAwarenessWithLimits l).calls cs).Kept l := by
  -- no state in the run is longer than the longest payload of the run
  obtain ⟨n, hn⟩ : ∃ n, ∀ payload now, .applyUpdate payload now ∈ cs → payload.length ≤ n := by
    induction cs with
    | nil => exact ⟨0, by simp⟩
    | cons c cs ih =>
      obtain ⟨n, hn⟩ := ih
      cases c with
      | applyUpdate payload now =>
        refine ⟨max n payload.length, fun payload' now' hmem => ?_⟩
        rcases List.mem_cons.1 hmem with heq | hmem
        · cases heq
          exact le_max_right ..
        · exact (hn payload' now' hmem).trans (le_max_left ..)
      | removeClients => exact ⟨n, by simpa using hn⟩
      | sweep => exact ⟨n, by simpa using hn⟩
  refine (Kept.closed hl n).calls ⟨rfl, rfl, hl.le, ?_, ?_⟩ cs hn
  · show ((0 : ℕ) : ℤ) ≤ _
    omega
  · simp [newAwarenessWithLimits, SortedMap.empty]

theorem calls_sized {cs : List Call}
    (hcs : ∀ payload now, .applyUpdate payload now ∈ cs → payload.length ≤ maxSafeInteger) :
    ((newAwarenessWithLimits l).calls cs).Sized :=
  Sized.closed.calls (by simp [Sized, newAwarenessWithLimits, SortedMap.empty]) cs hcs

theorem length_clients (a : Awareness) : a.clients.length = a.len := by simp [clients, len]

/-- **The tracker is bounded, and what it holds can be written.** In every run the counter is the
number of states held and at most the limit, at most twice the limit are remembered, and every state
is within its limit. As long as the limit and the payloads are no longer than the encoder can write
a length, everything that is held can be encoded, what `RemoveClients` and `Sweep` announce can be
encoded, and `Encode` fails only for ids beyond the greatest integer that can be written. -/
theorem calls_bounded (hl : 0 < l.clientLimit) (cs : List Call) :
    let a := (newAwarenessWithLimits l).calls cs
    a.present = a.len ∧ a.present ≤ l.clientLimit ∧
    (a.entries.entries.length : ℤ) ≤ 2 * l.clientLimit ∧
    (∀ id s, a.state id = some s → 0 < l.stateLimit → (s.length : ℤ) ≤ l.stateLimit) ∧
    (l.clientLimit ≤ maxSafeInteger →
      (∀ payload now, .applyUpdate payload now ∈ cs → payload.length ≤ maxSafeInteger) →
      (∃ b, a.encodeAll = .ok b) ∧
      (∀ clients, (∃ b, a.encode clients = .ok b) ↔
        clients.length ≤ maxSafeInteger ∧ ∀ id ∈ clients, id ≤ maxSafeInteger) ∧
      (∀ clients now x, clients.length ≤ maxSafeInteger →
        (a.removeClients clients now).2 ≠ some (.error x)) ∧
      ∀ now ttl x, (a.sweep now ttl).2 ≠ some (.error x)) := by
  intro a
  have hkept : a.Kept l := calls_kept hl cs
  refine ⟨hkept.count, hkept.present_le, hkept.entries_le, fun id s hs hlimit => ?_,
    fun hmax hcs => ?_⟩
  · unfold state at hs
    split at hs
    next e hfind =>
      split at hs
      next hpres =>
        cases hs
        exact hkept.state_le (id, e) (SortedMap.find?_eq_some.1 hfind) hpres hlimit
      next => cases hs
    next => cases hs
  · have hsized : a.Sized := calls_sized hcs
    have hlen : a.len ≤ maxSafeInteger := by
      have hcount := hkept.count
      have hle := hkept.present_le
      omega
    refine ⟨(hsized.encode_iff _).2 ⟨?_, fun id hid => ?_⟩, hsized.encode_iff,
      fun clients now x hclients => hsized.removeClients hclients x,
      fun now ttl x => hsized.sweep hlen x⟩
    · rwa [length_clients]
    · simp only [clients, List.mem_reverse, List.mem_map, List.mem_filter] at hid
      obtain ⟨q, ⟨hq, -⟩, rfl⟩ := hid
      exact (hsized q hq).1

/-- One client publishes a state, is joined by a second one, and leaves. -/
theorem calls_bounded_witness :
    0 < (⟨16, 1⟩ : Limits).clientLimit ∧
    ((newAwarenessWithLimits ⟨16, 1⟩).calls
      [.applyUpdate [1, 7, 1, 2, 0x7b, 0x7d] 0, .applyUpdate [1, 8, 1, 2, 0x7b, 0x7d] 1,
        .removeClients [7] 2]).present ≤ 1 :=
  ⟨by decide, (calls_bounded (l := ⟨16, 1⟩) (by decide) _).2.1⟩

/-- `Encode` writes any list of ids it is given, and refuses one beyond the range. -/
theorem encode_out_of_range :
    0 < ({} : Limits).clientLimit ∧
    ((newAwarenessWithLimits {}).calls []).encode [2 ^ 53] = .error .integerOutOfRange := by
  decide

end Awareness

end YCollab.Protocol
