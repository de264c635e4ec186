import YCollab.Protocol.Bounds
import Mathlib.Order.Bounds.Basic

/-!
# Merging awareness updates

Awareness updates reach a replica late, twice and in any order. `Latest E client` says what a set
`E` of published entries amounts to for one client: the greatest clock, and at that clock the state
published with it unless it was retracted there. The tracker without limits holds exactly that for
the set of the entries it was given (`Tracks.merge`), so it does not matter in which order and how
often the updates were applied.
-/

namespace YCollab.Protocol

open Lib0

/-! ### What a set of entries amounts to -/

/-- What the entries `E` say about a client: nothing, or its greatest clock with the state
published there, or no state if it was retracted there. -/
def Latest (E : Set (ℕ × ℕ × Bytes)) (client : ℕ) : Option (ℕ × Option Bytes) → Prop
  | none => ∀ clock state, (client, clock, state) ∉ E
  | some (clock, state?) =>
    IsGreatest {c | ∃ state, (client, c, state) ∈ E} clock ∧
      match state? with
      | none => (client, clock, nullState) ∈ E
      | some state => (client, clock, nullState) ∉ E ∧ state ≠ nullState ∧
        (client, clock, state) ∈ E

/-- A client does not publish two states with one clock. -/
def OneState (E : Set (ℕ × ℕ × Bytes)) : Prop :=
  ∀ client clock state state', (client, clock, state) ∈ E → (client, clock, state') ∈ E →
    state ≠ nullState → state' ≠ nullState → state = state'

section Latest

variable {E : Set (ℕ × ℕ × Bytes)} {client clock : ℕ} {state : Bytes}

/-- What the entries say about a client is one thing. -/
theorem Latest.unique (hE : OneState E) {x y : Option (ℕ × Option Bytes)} (hx : Latest E client x)
    (hy : Latest E client y) : x = y := by
  cases x with
  | none =>
    cases y with
    | none => rfl
    | some y =>
      obtain ⟨state, hmem⟩ := hy.1.1
      exact absurd hmem (hx _ _)
  | some x =>
    obtain ⟨c, s?⟩ := x
    cases y with
    | none =>
      obtain ⟨state, hmem⟩ := hx.1.1
      exact absurd hmem (hy _ _)
    | some y =>
      obtain ⟨c', s'?⟩ := y
      obtain rfl : c = c' := hx.1.unique hy.1
      -- a retraction at the greatest clock is seen by both, or by neither
      cases s? with
      | none =>
        cases s'? with
        | none => rfl
        | some s' => exact absurd hx.2 hy.2.1
      | some s =>
        cases s'? with
        | none => exact absurd hy.2 hx.2.1
        | some s' => rw [hE client c s s' hx.2.2.2 hy.2.2.2 hx.2.2.1 hy.2.2.1]

theorem Latest.insert_of_ne {client' : ℕ} {x : Option (ℕ × Option Bytes)} (h : Latest E client x)
    (hne : client ≠ client') : Latest (insert (client', clock, state) E) client x := by
  have hmem : ∀ c s, (client, c, s) ∈ insert (client', clock, state) E ↔ (client, c, s) ∈ E :=
    fun c s => by simp [hne]
  cases x with
  | none => exact fun c s => mt (hmem c s).1 (h c s)
  | some x =>
    obtain ⟨c, s?⟩ := x
    simpa only [Latest, hmem] using h

/-- A newer entry replaces what was known. -/
theorem Latest.insert_newer (h : ∀ c s, (client, c, s) ∈ E → c < clock) :
    Latest (insert (client, clock, state) E) client
      (some (clock, if state = nullState then none else some state)) := by
  refine ⟨⟨⟨state, .inl rfl⟩, ?_⟩, ?_⟩
  · rintro c ⟨s, heq | hmem⟩
    · cases heq
      exact le_rfl
    · exact (h c s hmem).le
  · split
    next hnull =>
      split at hnull
      next heq => exact .inl (by rw [heq])
      next => cases hnull
    next s hs =>
      split at hs
      next => cases hs
      next hne =>
        cases hs
        refine ⟨?_, hne, .inl rfl⟩
        rintro (heq | hmem)
        · exact hne (by cases heq; rfl)
        · exact lt_irrefl _ (h clock nullState hmem)

theorem Latest.insert_null {s? : Option Bytes} (h : Latest E client (some (clock, s?))) :
    Latest (insert (client, clock, nullState) E) client (some (clock, none)) := by
  refine ⟨⟨⟨nullState, .inl rfl⟩, ?_⟩, .inl rfl⟩
  rintro c ⟨s, heq | hmem⟩
  · cases heq
    exact le_rfl
  · exact h.1.2 ⟨s, hmem⟩

theorem Latest.insert_older {c : ℕ} {s? : Option Bytes} (h : Latest E client (some (c, s?)))
    (hle : clock ≤ c) (hnull : clock = c → state = nullState → s? = none) :
    Latest (insert (client, clock, state) E) client (some (c, s?)) := by
  refine ⟨⟨h.1.1.imp fun _ hmem => .inr hmem, ?_⟩, ?_⟩
  · rintro c' ⟨s, heq | hmem⟩
    · cases heq
      exact hle
    · exact h.1.2 ⟨s, hmem⟩
  · cases s? with
    | none => exact .inr h.2
    | some s =>
      refine ⟨?_, h.2.2.1, .inr h.2.2.2⟩
      rintro (heq | hmem)
      · cases heq
        cases hnull rfl rfl
      · exact h.2.1 hmem

end Latest

/-! ### The tracker -/

namespace Awareness

variable {a : Awareness} {id client clock : ℕ} {now : ℤ} {payload state : Bytes}

/-- The clock of a client and the state it has. -/
def status (a : Awareness) (id : ℕ) : Option (ℕ × Option Bytes) :=
  (a.entries.find? id).map fun e => (e.clock, if e.present then some e.state else none)

/-- What the tracker holds is what the entries `E` amount to. -/
def Tracks (E : Set (ℕ × ℕ × Bytes)) (a : Awareness) : Prop := ∀ id, Latest E id (a.status id)

theorem status_put (e : Entry) (id client : ℕ) :
    (a.put client e).status id =
      if id = client then some (e.clock, if e.present then some e.state else none)
      else a.status id := by
  simp only [status, put, SortedMap.find?_insert]
  split <;> rfl

/-- One entry of an update, with nothing to refuse it. -/
def merge (now : ℤ) (a : Awareness) (x : ℕ × ℕ × Bytes) : Awareness :=
  if (a.entry x.1).clock < x.2.1 ∨
      ((a.entry x.1).clock = x.2.1 ∧ x.2.2 = nullState ∧ (a.entry x.1).present)
  then a.put x.1 (published now x.2.1 x.2.2) else a

theorem status_published (id : ℕ) : (a.put client (published now clock state)).status id =
    if id = client then some (clock, if state = nullState then none else some state)
    else a.status id := by
  rw [status_put]
  by_cases hnull : state = nullState
  · simp [published, hnull]
  · simp [published, hnull]

/-- **An entry is merged**: the tracker then holds what the entries with this one amount to. -/
theorem Tracks.merge {E : Set (ℕ × ℕ × Bytes)} (h : a.Tracks E) (hclock : 1 ≤ clock) :
    (a.merge now (client, clock, state)).Tracks (insert (client, clock, state) E) := by
  intro id
  by_cases hid : id = client
  · subst hid
    have hlatest : Latest E id (a.status id) := h id
    unfold Awareness.merge
    simp only
    cases hfind : a.entries.find? id with
    | none =>
      -- the zero entry of an unknown client is older than any entry
      have hentry : a.entry id = {} := by simp [entry, hfind]
      have hnone : Latest E id none := by simpa [status, hfind] using hlatest
      rw [hentry, if_pos (.inl hclock), status_published, if_pos rfl]
      exact Latest.insert_newer fun c s hmem => absurd hmem (hnone c s)
    | some e =>
      have hentry : a.entry id = e := by simp [entry, hfind]
      rw [hentry]
      simp only [status, hfind, Option.map_some] at hlatest
      split
      next hnew =>
        rw [status_published, if_pos rfl]
        rcases hnew with hlt | ⟨rfl, rfl, -⟩
        · exact Latest.insert_newer fun c s hmem => (hlatest.1.2 ⟨s, hmem⟩).trans_lt hlt
        · rw [if_pos rfl]
          exact hlatest.insert_null
      next hold =>
        simp only [status, hfind, Option.map_some]
        refine hlatest.insert_older (by omega) fun hc hnull => if_neg fun hpres => ?_
        exact hold (.inr ⟨hc.symm, hnull, hpres⟩)
  · have hstatus : (a.merge now (client, clock, state)).status id = a.status id := by
      unfold Awareness.merge
      split
      · rw [status_published, if_neg hid]
      · rfl
    rw [hstatus]
    exact (h id).insert_of_ne hid

theorem Tracks.foldl_merge {E : Set (ℕ × ℕ × Bytes)} {l : List (ℕ × ℕ × Bytes)} (h : a.Tracks E)
    (hl : ∀ x ∈ l, 1 ≤ x.2.1) : (l.foldl (Awareness.merge now) a).Tracks ({x | x ∈ l} ∪ E) := by
  induction l generalizing a E with
  | nil => simpa using h
  | cons x l ih =>
    have hx : (a.merge now x).Tracks (insert x E) := h.merge (hl x (by simp))
    have hE : {y | y ∈ x :: l} ∪ E = {y | y ∈ l} ∪ insert x E := by
      ext y
      simp only [List.mem_cons, Set.mem_union, Set.mem_ofPred_eq, Set.mem_insert_iff]
      tauto
    rw [hE]
    exact ih hx fun y hy => hl y (by simp [hy])

/-! ### Well-formed updates -/

/-- The entries of a well-formed update: as many as it announces, none of them out of range, and
nothing after them. -/
def entriesOf (payload : Bytes) : Option (List (ℕ × ℕ × Bytes)) :=
  match (do let n ← readVarUint; Read.checkRemaining n; readEntry.times n : Read _) payload with
  | .ok (l, []) =>
    if ∀ x ∈ l, x.1 ≤ maxSafeInteger ∧ x.2.1 ≤ maxSafeInteger then some l else none
  | _ => none

/-- Nothing is refused for its size or number. -/
def Unlimited (a : Awareness) : Prop := a.limits.stateLimit ≤ 0 ∧ a.limits.clientLimit ≤ 0

theorem applyEntry_unlimited (h : a.Unlimited) (now : ℤ) (state : Bytes)
    (hclient : client ≤ maxSafeInteger) (hclock : clock ≤ maxSafeInteger) :
    ∃ c, a.applyEntry now client clock state = .ok (a.merge now (client, clock, state), c) := by
  have hnone : a.refusal (client, clock, state) = none := by
    rw [refusal, if_neg (by simp only; omega), if_neg fun hstate => h.1.not_gt hstate.2.1,
      if_neg fun hclients => h.2.not_gt hclients.2.1]
  have hroom : a.makeRoom client = a := if_neg fun hroom => h.2.not_gt hroom.2
  have happ := applyEntry_eq_accept a now (client, clock, state)
  simp only [hnone, accept, Stale, ite_not, hroom] at happ
  exact ⟨_, happ⟩

theorem merge_limits (x : ℕ × ℕ × Bytes) : (a.merge now x).limits = a.limits := by
  unfold merge
  split <;> rfl

theorem foldl_merge_limits (l : List (ℕ × ℕ × Bytes)) (a : Awareness) :
    (l.foldl (merge now) a).limits = a.limits := by
  induction l generalizing a with
  | nil => rfl
  | cons x l ih => exact (ih _).trans (merge_limits x)

theorem applyLoop_unlimited (h : a.Unlimited) (now : ℤ) (changed : List ℕ) {n : ℕ}
    {b rest : Bytes} {l : List (ℕ × ℕ × Bytes)} (hread : readEntry.times n b = .ok (l, rest))
    (hl : ∀ x ∈ l, x.1 ≤ maxSafeInteger ∧ x.2.1 ≤ maxSafeInteger) :
    ∃ changed', applyLoop now n b a changed = (l.foldl (merge now) a, changed', .ok rest) := by
  induction n generalizing b a changed l with
  | zero =>
    cases hread
    exact ⟨changed, rfl⟩
  | succ n ih =>
    unfold Read.times at hread
    rw [Read.bind_run] at hread
    split at hread
    next x mid hx =>
      rw [Read.bind_run] at hread
      split at hread
      next l' rest' hl' =>
        cases hread
        obtain ⟨client, clock, state⟩ := x
        obtain ⟨hclient, hclock⟩ := hl _ (List.mem_cons_self ..)
        obtain ⟨c, happ⟩ := applyEntry_unlimited h now state hclient hclock
        unfold applyLoop
        rw [hx]
        simp only [happ]
        exact ih (by rwa [Unlimited, merge_limits]) _ hl' fun x hx => hl x (by simp [hx])
      next => cases hread
    next => cases hread

/-- A tracker without limits accepts a well-formed update and merges its entries in turn. -/
theorem applyUpdate_unlimited (h : a.Unlimited) (now : ℤ) {l : List (ℕ × ℕ × Bytes)}
    (hl : entriesOf payload = some l) :
    ∃ changed, a.applyUpdate payload now = (l.foldl (merge now) a, changed, none) := by
  unfold entriesOf at hl
  split at hl
  next l' hread =>
    split at hl
    next hrange =>
      cases hl
      rw [Read.bind_run] at hread
      split at hread
      next n b hn =>
        rw [Read.bind_run] at hread
        split at hread
        next rest hcheck =>
          have hcount : (do let n ← readVarUint; Read.checkRemaining n; pure n : Read ℕ) payload =
              .ok (n, rest) := by simp only [Read.bind_run, hn, hcheck, Read.pure_run]
          obtain ⟨changed, hloop⟩ := applyLoop_unlimited h now [] hread hrange
          refine ⟨changed, ?_⟩
          unfold applyUpdate
          rw [hcount]
          simp only [hloop]
        next => cases hread
      next => cases hread
    next => cases hl
  next => cases hl

/-! ### Runs of updates -/

/-- The tracker after updates, each at its time. -/
def applyUpdates (a : Awareness) (us : List (Bytes × ℤ)) : Awareness :=
  us.foldl (fun a u => (a.applyUpdate u.1 u.2).1) a

/-- The entries that some update of the list carries. -/
def carried (us : List (Bytes × ℤ)) : Set (ℕ × ℕ × Bytes) :=
  {x | ∃ u ∈ us, ∃ l, entriesOf u.1 = some l ∧ x ∈ l}

/-- Every update of the list is well formed, and no clock is zero. -/
def WellFormed (us : List (Bytes × ℤ)) : Prop :=
  (∀ u ∈ us, (entriesOf u.1).isSome) ∧ ∀ x ∈ carried us, 1 ≤ x.2.1

theorem mem_carried {us : List (Bytes × ℤ)} {x : ℕ × ℕ × Bytes} :
    x ∈ carried us ↔ ∃ b ∈ us.map Prod.fst, ∃ l, entriesOf b = some l ∧ x ∈ l := by
  simp only [carried, Set.mem_ofPred_eq, List.mem_map, exists_exists_and_eq_and]

theorem carried_cons {u : Bytes × ℤ} {us : List (Bytes × ℤ)} {l : List (ℕ × ℕ × Bytes)}
    (hl : entriesOf u.1 = some l) : carried (u :: us) = {x | x ∈ l} ∪ carried us := by
  ext x
  simp [carried, hl]

/-- The updates are merged one after the other. -/
theorem Tracks.applyUpdates {E : Set (ℕ × ℕ × Bytes)} {us : List (Bytes × ℤ)} (h : a.Tracks E)
    (hoff : a.Unlimited) (hus : WellFormed us) : (a.applyUpdates us).Tracks (carried us ∪ E) := by
  induction us generalizing a E with
  | nil =>
    have hnil : carried [] ∪ E = E := by
      ext x
      simp [carried]
    rw [hnil]
    exact h
  | cons u us ih =>
    obtain ⟨l, hl⟩ := Option.isSome_iff_exists.1 (hus.1 u (by simp))
    obtain ⟨changed, happ⟩ := applyUpdate_unlimited hoff u.2 hl
    have hclocks : ∀ x ∈ l, 1 ≤ x.2.1 := fun x hx => hus.2 x ⟨u, by simp, l, hl, hx⟩
    have hmerged : (l.foldl (Awareness.merge u.2) a).Tracks ({x | x ∈ l} ∪ E) :=
      h.foldl_merge hclocks
    have hlimits : (l.foldl (Awareness.merge u.2) a).Unlimited := by
      rwa [Unlimited, foldl_merge_limits]
    have hus' : WellFormed us := by
      refine ⟨fun v hv => hus.1 v (by simp [hv]), fun x hx => hus.2 x ?_⟩
      rw [carried_cons hl]
      exact .inr hx
    rw [carried_cons hl, Set.union_comm {x | x ∈ l}, Set.union_assoc]
    show Tracks _ ((a.applyUpdate u.1 u.2).1.applyUpdates us)
    rw [happ]
    exact ih hmerged hlimits hus'

theorem tracks_empty (limits : Limits) : (newAwarenessWithLimits limits).Tracks ∅ :=
  fun _ _ _ => id

/-- **Merging does not depend on the order.** Without limits, after well-formed updates in which no
clock is zero and no client publishes two states with one clock, every client has its greatest clock
and the state published there, or none if it was retracted there; so the same updates in another
order, or repeated, give every client the same clock and state. -/
theorem applyUpdates_order_independent {limits : Limits}
    (hoff : (newAwarenessWithLimits limits).Unlimited) {us vs : List (Bytes × ℤ)}
    (hsame : ∀ b, b ∈ us.map Prod.fst ↔ b ∈ vs.map Prod.fst) (hus : WellFormed us)
    (hone : OneState (carried us)) (id : ℕ) :
    ((newAwarenessWithLimits limits).applyUpdates us).status id =
      ((newAwarenessWithLimits limits).applyUpdates vs).status id ∧
    Latest (carried us) id (((newAwarenessWithLimits limits).applyUpdates us).status id) := by
  have hcarried : carried vs = carried us := by
    ext x
    rw [mem_carried, mem_carried]
    exact exists_congr fun b => and_congr_left' (hsame b).symm
  have hvs : WellFormed vs := by
    refine ⟨fun v hv => ?_, hcarried ▸ hus.2⟩
    obtain ⟨u, hu, heq⟩ := List.mem_map.1 ((hsame v.1).2 (List.mem_map.2 ⟨v, hv, rfl⟩))
    exact heq ▸ hus.1 u hu
  have hlatest := (tracks_empty limits).applyUpdates hoff hus id
  have hlatest' := (tracks_empty limits).applyUpdates hoff hvs id
  rw [Set.union_empty] at hlatest hlatest'
  rw [hcarried] at hlatest'
  exact ⟨hlatest.unique hone hlatest', hlatest⟩

/-- A client publishes a state and retracts it with the same clock; the retraction arrives first, and
the publication comes twice. -/
theorem applyUpdates_order_independent_witness :
    ((newAwarenessWithLimits ⟨-1, -1⟩).applyUpdates
      [([1, 7, 1, 2, 0x7b, 0x7d], 0), ([1, 7, 1, 4, 0x6e, 0x75, 0x6c, 0x6c], 1)]).status 7 =
    ((newAwarenessWithLimits ⟨-1, -1⟩).applyUpdates
      [([1, 7, 1, 4, 0x6e, 0x75, 0x6c, 0x6c], 0), ([1, 7, 1, 2, 0x7b, 0x7d], 1),
        ([1, 7, 1, 2, 0x7b, 0x7d], 2)]).status 7 := by
  have hcarried : ∀ x ∈ carried
      [([1, 7, 1, 2, 0x7b, 0x7d], 0), ([1, 7, 1, 4, 0x6e, 0x75, 0x6c, 0x6c], 1)],
      x = (7, 1, [0x7b, 0x7d]) ∨ x = (7, 1, nullState) := by
    rintro x ⟨u, hu, l, hl, hx⟩
    simp only [List.mem_cons, List.not_mem_nil, or_false] at hu
    rcases hu with rfl | rfl
    · have : entriesOf [1, 7, 1, 2, 0x7b, 0x7d] = some [(7, 1, [0x7b, 0x7d])] := by decide
      rw [this] at hl
      cases hl
      exact .inl (by simpa using hx)
    · have : entriesOf [1, 7, 1, 4, 0x6e, 0x75, 0x6c, 0x6c] = some [(7, 1, nullState)] := by decide
      rw [this] at hl
      cases hl
      exact .inr (by simpa using hx)
  refine (applyUpdates_order_independent ⟨by decide, by decide⟩ (fun b => by simp; tauto)
    ⟨by decide, fun x hx => ?_⟩ ?_ 7).1
  · rcases hcarried x hx with rfl | rfl <;> decide
  · intro client clock state state' hs hs' hne hne'
    rcases hcarried _ hs with heq | heq
    · rcases hcarried _ hs' with heq' | heq'
      · exact (congrArg (·.2.2) heq).trans (congrArg (·.2.2) heq').symm
      · exact absurd (congrArg (·.2.2) heq') hne'
    · exact absurd (congrArg (·.2.2) heq) hne

end Awareness

end YCollab.Protocol
