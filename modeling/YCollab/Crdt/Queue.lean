import YCollab.Crdt.Turn

/-!
# Queues

`integrate` takes turns over one queue of structs for each client, and `retryPending` runs what
was held back again. Whatever the structs are, all this integrates one head of a queue after the
other (`Moves`), keeps what is left in order (`Taken`), and ends when every head has to wait
(`integrate_spec`, `retryLoop_spec`). What single turns preserve is therefore preserved
(`Moves.invariant`).
-/

namespace YCollab.Crdt

variable {d d' d'' : Doc} {st : Struct} {l l' : List Struct}

namespace Doc

/-- `d'` is `d` after the structs `l` had their turns. -/
inductive Moves (d : Doc) : List Struct → Doc → Prop
  | nil : Moves d [] d
  | step {l : List Struct} {st : Struct} {d₁ d₂ : Doc} : Moves d l d₁ →
      d₁.integrateHead st = some d₂ → Moves d (l ++ [st]) d₂

namespace Moves

theorem trans (h : Moves d l d') (h' : Moves d' l' d'') : Moves d (l ++ l') d'' := by
  induction h' with
  | nil => simpa using h
  | step _ hst ih =>
    rw [← List.append_assoc]
    exact ih.step hst

theorem cons {d₁ : Doc} (hst : d.integrateHead st = some d₁) (h : Moves d₁ l d') :
    Moves d (st :: l) d' := by
  have h₁ : Moves d ([] ++ [st]) d₁ := nil.step hst
  simpa using h₁.trans h

theorem invariant {P : Doc → Prop} (h : Moves d l d') (hg : d.store.Gapless)
    (hstep : ∀ d st d', st ∈ l → d.store.Gapless → P d → d.integrateHead st = some d' → P d')
    (hd : P d) : d'.store.Gapless ∧ P d' := by
  induction h with
  | nil => exact ⟨hg, hd⟩
  | step _ hst ih =>
    obtain ⟨hg₁, hd₁⟩ := ih fun d st d' hm => hstep d st d' (List.mem_append_left _ hm)
    exact ⟨(turn_of_integrateHead hg₁ hst).gapless hg₁, hstep _ _ _ (by simp) hg₁ hd₁ hst⟩

theorem gapless (h : Moves d l d') (hg : d.store.Gapless) : d'.store.Gapless :=
  (h.invariant (P := fun _ => True) hg (fun _ _ _ _ _ _ _ => trivial) trivial).1

theorem pending (h : Moves d l d') (hg : d.store.Gapless) : d'.pending = d.pending :=
  (h.invariant (P := fun e => e.pending = d.pending) hg
    (fun _ _ _ _ hg he hst => (turn_of_integrateHead hg hst).pending.trans he) rfl).2

theorem state_mono (h : Moves d l d') (hg : d.store.Gapless) (c : ℕ) : d.state c ≤ d'.state c :=
  (h.invariant (P := fun e => d.state c ≤ e.state c) hg
    (fun _ _ _ _ hg he hst => he.trans ((turn_of_integrateHead hg hst).state_mono hg c)) le_rfl).2

end Moves

/-- `d'` is `d` after the structs `l` had their turns, with other updates held back now and
then. -/
inductive Turns (d : Doc) : List Struct → Doc → Prop
  | nil : Turns d [] d
  | step {l : List Struct} {st : Struct} {d₁ d₂ : Doc} : Turns d l d₁ →
      d₁.integrateHead st = some d₂ → Turns d (l ++ [st]) d₂
  | hold {l : List Struct} {d₁ : Doc} (p : List Update) : Turns d l d₁ →
      Turns d l { d₁ with pending := p }

namespace Turns

theorem trans (h : Turns d l d') (h' : Turns d' l' d'') : Turns d (l ++ l') d'' := by
  induction h' with
  | nil => simpa using h
  | step _ hst ih =>
    rw [← List.append_assoc]
    exact ih.step hst
  | hold p _ ih => exact ih.hold p

theorem of_moves (h : Moves d l d') : Turns d l d' := by
  induction h with
  | nil => exact .nil
  | step _ hst ih => exact ih.step hst

theorem invariant {P : Doc → Prop} (h : Turns d l d') (hg : d.store.Gapless)
    (hhold : ∀ d p, P d → P { d with pending := p })
    (hstep : ∀ d st d', st ∈ l → d.store.Gapless → P d → d.integrateHead st = some d' → P d')
    (hd : P d) : d'.store.Gapless ∧ P d' := by
  induction h with
  | nil => exact ⟨hg, hd⟩
  | step _ hst ih =>
    obtain ⟨hg₁, hd₁⟩ := ih fun d st d' hm => hstep d st d' (List.mem_append_left _ hm)
    exact ⟨(turn_of_integrateHead hg₁ hst).gapless hg₁, hstep _ _ _ (by simp) hg₁ hd₁ hst⟩
  | hold p _ ih =>
    obtain ⟨hg₁, hd₁⟩ := ih hstep
    exact ⟨hg₁, hhold _ p hd₁⟩

theorem gapless (h : Turns d l d') (hg : d.store.Gapless) : d'.store.Gapless :=
  (h.invariant (P := fun _ => True) hg (fun _ _ _ => trivial) (fun _ _ _ _ _ _ _ => trivial)
    trivial).1

theorem pendingDeletes (h : Turns d l d') (hg : d.store.Gapless) :
    d'.pendingDeletes = d.pendingDeletes :=
  (h.invariant (P := fun e => e.pendingDeletes = d.pendingDeletes) hg (fun _ _ he => he)
    (fun _ _ _ _ hg he hst => (turn_of_integrateHead hg hst).pendingDeletes.trans he) rfl).2

theorem state_mono (h : Turns d l d') (hg : d.store.Gapless) (c : ℕ) : d.state c ≤ d'.state c :=
  (h.invariant (P := fun e => d.state c ≤ e.state c) hg (fun _ _ he => he)
    (fun _ _ _ _ hg he hst => he.trans ((turn_of_integrateHead hg hst).state_mono hg c)) le_rfl).2

end Turns

/-! ### The turns of one queue, and of all -/

/-- The queues `qs'` are what is left of `qs` after the structs `l` were taken from their fronts. -/
structure Taken (qs : List (ℕ × List Struct)) (l : List Struct) (qs' : List (ℕ × List Struct)) :
    Prop where
  clients : qs'.map (·.1) = qs.map (·.1)
  suffix : ∀ q' ∈ qs', ∃ q ∈ qs, q'.1 = q.1 ∧ q'.2 <:+ q.2
  mem : ∀ st, (∃ q ∈ qs, st ∈ q.2) ↔ st ∈ l ∨ ∃ q ∈ qs', st ∈ q.2
  count : queued qs = l.length + queued qs'

/-- Every head has to wait. -/
def Waiting (d : Doc) (qs : List (ℕ × List Struct)) : Prop :=
  ∀ q ∈ qs, ∀ st ∈ q.2.head?, d.Blocked st

variable {qs qs' qs'' : List (ℕ × List Struct)} {c : ℕ} {q : List Struct}

@[simp] theorem queued_cons : queued ((c, q) :: qs) = q.length + queued qs := by
  simp [queued]

namespace Taken

theorem refl (qs : List (ℕ × List Struct)) : Taken qs [] qs where
  clients := rfl
  suffix q hq := ⟨q, hq, rfl, List.suffix_rfl⟩
  mem st := by simp
  count := by simp

theorem trans (h : Taken qs l qs') (h' : Taken qs' l' qs'') : Taken qs (l ++ l') qs'' where
  clients := h'.clients.trans h.clients
  suffix q'' hq'' := by
    obtain ⟨q', hq', hc', hs'⟩ := h'.suffix q'' hq''
    obtain ⟨q, hq, hc, hs⟩ := h.suffix q' hq'
    exact ⟨q, hq, hc'.trans hc, hs'.trans hs⟩
  mem st := by rw [h.mem, h'.mem, List.mem_append, or_assoc]
  count := by
    rw [h.count, h'.count, List.length_append]
    omega

theorem cons {rest : List Struct} (h : Taken qs l' qs') :
    Taken ((c, l ++ rest) :: qs) (l ++ l') ((c, rest) :: qs') where
  clients := by simp [h.clients]
  suffix q' hq' := by
    rcases List.mem_cons.1 hq' with rfl | hq'
    · exact ⟨_, List.mem_cons_self, rfl, List.suffix_append l rest⟩
    · obtain ⟨q, hq, h⟩ := h.suffix q' hq'
      exact ⟨q, List.mem_cons_of_mem _ hq, h⟩
  mem st := by
    simp only [List.mem_cons, exists_eq_or_imp, h.mem, List.mem_append]
    tauto
  count := by
    simp only [queued_cons, List.length_append, h.count]
    omega

end Taken

theorem drain_spec (d : Doc) (q : List Struct) {d' : Doc} {rest : List Struct} {moved : Bool}
    (h : d.drain q = (d', rest, moved)) :
    ∃ l, q = l ++ rest ∧ Moves d l d' ∧ (moved = true → l ≠ []) ∧
      (moved = false → l = [] ∧ d' = d) ∧ ∀ st ∈ rest.head?, d'.Blocked st := by
  induction q generalizing d d' rest moved with
  | nil =>
    cases h
    exact ⟨[], rfl, .nil, nofun, fun _ => ⟨rfl, rfl⟩, by simp⟩
  | cons head q ih =>
    rw [drain] at h
    cases hst : d.integrateHead head with
    | none =>
      rw [hst] at h
      cases h
      exact ⟨[], rfl, .nil, nofun, fun _ => ⟨rfl, rfl⟩, by simpa using integrateHead_eq_none.1 hst⟩
    | some d₁ =>
      rw [hst] at h
      cases h
      obtain ⟨l, hq, hm, -, -, hwait⟩ := ih d₁ rfl
      exact ⟨head :: l, congrArg (List.cons head) hq, .cons hst hm, by simp, nofun, hwait⟩

theorem pass_spec (d : Doc) (qs : List (ℕ × List Struct)) {d' : Doc} {rest : List (ℕ × List Struct)}
    {moved : Bool} (h : d.pass qs = (d', rest, moved)) :
    ∃ l, Moves d l d' ∧ Taken qs l rest ∧ (moved = true → l ≠ []) ∧
      (moved = false → l = [] ∧ d' = d ∧ d.Waiting rest) := by
  induction qs generalizing d d' rest moved with
  | nil =>
    cases h
    exact ⟨[], .nil, .refl [], nofun, fun _ => ⟨rfl, rfl, by simp [Waiting]⟩⟩
  | cons p qs ih =>
    obtain ⟨c, q⟩ := p
    rw [pass] at h
    generalize hdr : d.drain q = r at h
    obtain ⟨d₁, q', m⟩ := r
    generalize hps : d₁.pass qs = r at h
    obtain ⟨d₂, qs', m'⟩ := r
    simp only [hps] at h
    cases h
    obtain ⟨l, rfl, hm, hmove, hstill, hwait⟩ := drain_spec d q hdr
    obtain ⟨l', hm', htaken, hmove', hstill'⟩ := ih d₁ hps
    refine ⟨l ++ l', hm.trans hm', htaken.cons, fun hmoved => ?_, fun hmoved => ?_⟩
    · rcases (Bool.or_eq_true ..).mp hmoved with h | h
      · simp [hmove h]
      · simp [hmove' h]
    · obtain ⟨h, h'⟩ := Bool.or_eq_false_iff.1 hmoved
      obtain ⟨rfl, rfl⟩ := hstill h
      obtain ⟨rfl, rfl, hw⟩ := hstill' h'
      refine ⟨rfl, rfl, fun p hp => ?_⟩
      rcases List.mem_cons.1 hp with rfl | hp
      · exact hwait
      · exact hw p hp

theorem integrateLoop_spec (fuel : ℕ) (d : Doc) (qs : List (ℕ × List Struct))
    (hfuel : queued qs < fuel) {d' : Doc} {rest : List (ℕ × List Struct)}
    (h : integrateLoop fuel d qs = (d', rest)) :
    ∃ l, Moves d l d' ∧ Taken qs l rest ∧ d'.Waiting rest ∧ (l = [] → d' = d) := by
  induction fuel generalizing d qs d' rest with
  | zero => omega
  | succ fuel ih =>
    rw [integrateLoop] at h
    generalize hps : d.pass qs = r at h
    obtain ⟨d₁, qs₁, moved⟩ := r
    obtain ⟨l, hm, htaken, hmove, hstill⟩ := pass_spec d qs hps
    cases moved with
    | true =>
      have hlen : 0 < l.length := List.length_pos_iff.2 (hmove rfl)
      obtain ⟨l', hm', htaken', hwait, -⟩ := ih d₁ qs₁ (by have := htaken.count; omega) h
      exact ⟨l ++ l', hm.trans hm', htaken.trans htaken', hwait, by simp [hmove rfl]⟩
    | false =>
      obtain ⟨rfl, rfl, hwait⟩ := hstill rfl
      cases h
      exact ⟨[], hm, htaken, hwait, fun _ => rfl⟩

end Doc

/-! ### Updates and what is held back -/

/-- The structs of an update. -/
def Update.structs (u : Update) : List Struct := u.clients.flatMap (·.structs)

/-- The structs of some updates. -/
def heldStructs (us : List Update) : List Struct := us.flatMap Update.structs

/-- No two blocks of the update are of one client. -/
def Update.Neat (u : Update) : Prop := (u.clients.map (·.client)).Nodup

/-- An update as it is held back: one block for each client, no empty block, no deletions. -/
structure Update.Kept (u : Update) : Prop where
  neat : u.Neat
  ne_nil : u.clients ≠ []
  structs : ∀ b ∈ u.clients, b.structs ≠ []
  startClock : ∀ b ∈ u.clients, ∀ st ∈ b.structs.head?, b.startClock = st.id.clock
  deletes : u.deletes = SortedMap.empty

theorem Update.mem_structs {u : Update} : st ∈ u.structs ↔ ∃ b ∈ u.clients, st ∈ b.structs := by
  simp [Update.structs]

theorem mem_heldStructs {us : List Update} : st ∈ heldStructs us ↔ ∃ u ∈ us, st ∈ u.structs := by
  simp [heldStructs]

@[simp] theorem heldStructs_append (us us' : List Update) :
    heldStructs (us ++ us') = heldStructs us ++ heldStructs us' := by
  simp [heldStructs]

namespace Doc

variable {qs qs' : List (ℕ × List Struct)} {bs : List ClientBlock} {u : Update} {us : List Update}

theorem mem_gather : (∃ q ∈ gather qs bs, st ∈ q.2) ↔
    (∃ q ∈ qs, st ∈ q.2) ∨ ∃ b ∈ bs, st ∈ b.structs := by
  induction bs generalizing qs with
  | nil => simp [gather]
  | cons b bs ih =>
    rw [gather, ih]
    simp only [List.mem_cons, exists_eq_or_imp, ← or_assoc]
    refine or_congr_left ?_
    split
    next hany =>
      obtain ⟨q₀, hq₀, hc₀⟩ := List.any_eq_true.1 hany
      simp only [decide_eq_true_eq] at hc₀
      constructor
      · rintro ⟨q, hq, hst⟩
        obtain ⟨q', hq', rfl⟩ := List.mem_map.1 hq
        split at hst
        · exact (List.mem_append.1 hst).imp (fun h => ⟨q', hq', h⟩) id
        · exact .inl ⟨q', hq', hst⟩
      · rintro (⟨q, hq, hst⟩ | hst)
        · refine ⟨_, List.mem_map_of_mem hq, ?_⟩
          split
          · exact List.mem_append_left _ hst
          · exact hst
        · refine ⟨_, List.mem_map_of_mem hq₀, ?_⟩
          rw [if_pos hc₀]
          exact List.mem_append_right _ hst
    next => simp [or_and_right, exists_or]

theorem gather_nodup (h : (qs.map (·.1)).Nodup) : ((gather qs bs).map (·.1)).Nodup := by
  induction bs generalizing qs with
  | nil => exact h
  | cons b bs ih =>
    rw [gather]
    refine ih ?_
    split
    next =>
      have : (qs.map fun q => if q.1 = b.client then (q.1, q.2 ++ b.structs) else q).map (·.1) =
          qs.map (·.1) := by
        rw [List.map_map]
        refine List.map_congr_left fun q _ => ?_
        simp only [Function.comp]
        split <;> rfl
      rwa [this]
    next hany =>
      rw [List.map_append, List.nodup_append]
      refine ⟨h, by simp, fun a ha c hc hac => hany ?_⟩
      obtain ⟨q, hq, rfl⟩ := List.mem_map.1 ha
      exact List.any_eq_true.2 ⟨q, hq, by simpa using hac.trans (List.mem_singleton.1 hc)⟩

theorem gather_neat (h : (qs.map (·.1) ++ bs.map (·.client)).Nodup) :
    gather qs bs = qs ++ bs.map fun b => (b.client, b.structs) := by
  induction bs generalizing qs with
  | nil => simp [gather]
  | cons b bs ih =>
    have hany : ¬(qs.any (·.1 = b.client)) = true := by
      intro hany
      obtain ⟨q, hq, hc⟩ := List.any_eq_true.1 hany
      have := (List.nodup_append.1 h).2.2 q.1 (List.mem_map_of_mem hq) b.client (by simp)
      exact this (by simpa using hc)
    rw [gather, if_neg hany, ih (by simpa using h)]
    simp

theorem gather_of_neat (h : u.Neat) :
    gather [] u.clients = u.clients.map fun b => (b.client, b.structs) :=
  gather_neat h

/-- What is held back of some queues. -/
def heldBack (queues : List (ℕ × List Struct)) : List Update :=
  match blocksOf queues with
  | [] => []
  | rest => [⟨rest, SortedMap.empty⟩]

theorem mem_blocksOf {b : ClientBlock} : b ∈ blocksOf qs ↔
    ∃ q ∈ qs, ∃ s ss, q.2 = s :: ss ∧ b = ⟨q.1, s.id.clock, s :: ss⟩ := by
  unfold blocksOf
  rw [List.mem_filterMap]
  refine exists_congr fun q => and_congr_right fun _ => ?_
  cases q.2 with
  | nil => simp
  | cons s ss => simp [eq_comm]

theorem mem_heldBack : u ∈ heldBack qs ↔ blocksOf qs ≠ [] ∧ u = ⟨blocksOf qs, SortedMap.empty⟩ := by
  unfold heldBack
  cases blocksOf qs <;> simp

theorem mem_heldStructs_heldBack : st ∈ heldStructs (heldBack qs) ↔ ∃ q ∈ qs, st ∈ q.2 := by
  simp only [mem_heldStructs, mem_heldBack, Update.mem_structs]
  constructor
  · rintro ⟨u, ⟨-, rfl⟩, b, hb, hst⟩
    obtain ⟨q, hq, s, ss, hqs, rfl⟩ := mem_blocksOf.1 hb
    exact ⟨q, hq, hqs ▸ hst⟩
  · rintro ⟨q, hq, hst⟩
    cases hqs : q.2 with
    | nil => simp [hqs] at hst
    | cons s ss =>
      have hb : ⟨q.1, s.id.clock, s :: ss⟩ ∈ blocksOf qs := mem_blocksOf.2 ⟨q, hq, s, ss, hqs, rfl⟩
      exact ⟨_, ⟨List.ne_nil_of_mem hb, rfl⟩, _, hb, hqs ▸ hst⟩

theorem structCount_heldBack (qs : List (ℕ × List Struct)) :
    structCount (heldBack qs) = queued qs := by
  have hsum : ((blocksOf qs).map fun b => b.structs.length).sum = queued qs := by
    induction qs with
    | nil => rfl
    | cons q qs ih =>
      obtain ⟨c, q⟩ := q
      rw [queued_cons, ← ih]
      cases q <;> simp [blocksOf]
  rw [← hsum, heldBack]
  cases blocksOf qs <;> simp [structCount]

theorem heldBack_kept (h : (qs.map (·.1)).Nodup) (hu : u ∈ heldBack qs) : u.Kept := by
  obtain ⟨hne, rfl⟩ := mem_heldBack.1 hu
  refine ⟨List.Nodup.sublist ?_ h, hne, fun b hb => ?_, fun b hb => ?_, rfl⟩
  rotate_left
  · obtain ⟨q, -, s, ss, -, rfl⟩ := mem_blocksOf.1 hb
    simp
  · obtain ⟨q, -, s, ss, -, rfl⟩ := mem_blocksOf.1 hb
    simp
  clear hu h hne
  induction qs with
  | nil => exact List.Sublist.slnil
  | cons q qs ih =>
    obtain ⟨c, q⟩ := q
    cases q with
    | nil => exact ih.cons c
    | cons s ss => exact ih.cons_cons c

theorem integrate_eq (hg : d.store.Gapless) (u : Update) {d₁ : Doc} {rest : List (ℕ × List Struct)}
    (h : integrateLoop (queued (gather [] u.clients) + 1) d (gather [] u.clients) = (d₁, rest)) :
    d.integrate u = { d₁ with pending := d.pending ++ heldBack rest } := by
  obtain ⟨l, hm, -⟩ := integrateLoop_spec _ d _ (Nat.lt_succ_self _) h
  have hp := hm.pending hg
  simp only [integrate, heldBack, h]
  cases blocksOf rest with
  | nil => simp [← hp]
  | cons b bs => simp [hp]

/-- What an update leaves behind: the structs `l` had their turns, and the queues `rest` are held
back with all their heads waiting. -/
theorem integrate_spec (hg : d.store.Gapless) (u : Update) :
    ∃ l rest d₁, Moves d l d₁ ∧ Taken (gather [] u.clients) l rest ∧ d₁.Waiting rest ∧
      (l = [] → d₁ = d) ∧
      d.integrate u = { d₁ with pending := d.pending ++ heldBack rest } := by
  generalize hl : integrateLoop (queued (gather [] u.clients) + 1) d (gather [] u.clients) = r
  obtain ⟨d₁, rest⟩ := r
  obtain ⟨l, hm, htaken, hwait, hstill⟩ := integrateLoop_spec _ d _ (Nat.lt_succ_self _) hl
  exact ⟨l, rest, d₁, hm, htaken, hwait, hstill, integrate_eq hg u hl⟩

/-- Every head of what is held back has to wait. -/
def Settled (d : Doc) : Prop :=
  ∀ u ∈ d.pending, ∀ b ∈ u.clients, ∀ st ∈ b.structs.head?, d.Blocked st

/-- All blocks of some updates satisfy `K`. -/
def AllBlocks (K : ℕ → List Struct → Prop) (us : List Update) : Prop :=
  ∀ u ∈ us, ∀ b ∈ u.clients, K b.client b.structs

/-- What running some updates does: the structs `l` have their turns, the others are held back. -/
structure Ran (d : Doc) (us : List Update) (l : List Struct) (d' : Doc) : Prop where
  turns : Turns d l d'
  mem : ∀ st, st ∈ heldStructs d.pending ∨ st ∈ heldStructs us ↔
    st ∈ l ∨ st ∈ heldStructs d'.pending
  taken : ∀ st ∈ l, st ∈ heldStructs us
  kept : (∀ u ∈ d.pending, u.Kept) → ∀ u ∈ d'.pending, u.Kept
  count : (∀ u ∈ us, u.Neat) →
    structCount d.pending + structCount us = l.length + structCount d'.pending
  /-- What holds of the ends of the blocks holds of what is held back. -/
  blocks : ∀ K : ℕ → List Struct → Prop, (∀ {c l l'}, l' <:+ l → K c l → K c l') →
    (∀ u ∈ us, u.Neat) → AllBlocks K us → AllBlocks K d.pending → AllBlocks K d'.pending
  still : l = [] → (∃ p, d' = { d with pending := p }) ∧ (d.Settled → d'.Settled)

theorem Ran.nil (d : Doc) : Ran d [] [] d where
  turns := .nil
  mem st := by simp [heldStructs]
  taken := by simp
  kept h := h
  count _ := by simp [structCount]
  blocks _ _ _ _ h := h
  still _ := ⟨⟨d.pending, rfl⟩, id⟩

theorem Ran.trans {us' : List Update} (h : Ran d us l d') (h' : Ran d' us' l' d'') :
    Ran d (us ++ us') (l ++ l') d'' where
  turns := h.turns.trans h'.turns
  mem st := by
    rw [heldStructs_append, List.mem_append, ← or_assoc, h.mem, or_assoc, h'.mem, List.mem_append,
      or_assoc]
  taken st hst := by
    rw [heldStructs_append]
    exact List.mem_append.2 ((List.mem_append.1 hst).imp (h.taken st) (h'.taken st))
  kept hk := h'.kept (h.kept hk)
  count hn := by
    have h₁ := h.count fun u hu => hn u (List.mem_append_left _ hu)
    have h₂ := h'.count fun u hu => hn u (List.mem_append_right _ hu)
    have h₃ : structCount (us ++ us') = structCount us + structCount us' := by simp [structCount]
    rw [h₃, List.length_append]
    omega
  blocks K hK hn hb hd :=
    h'.blocks K hK (fun u hu => hn u (List.mem_append_right _ hu))
      (fun u hu => hb u (List.mem_append_right _ hu))
      (h.blocks K hK (fun u hu => hn u (List.mem_append_left _ hu))
        (fun u hu => hb u (List.mem_append_left _ hu)) hd)
  still hl := by
    obtain ⟨hl, hl'⟩ := List.append_eq_nil_iff.1 hl
    obtain ⟨⟨p, rfl⟩, hs⟩ := h.still hl
    obtain ⟨⟨p', rfl⟩, hs'⟩ := h'.still hl'
    exact ⟨⟨p', rfl⟩, hs' ∘ hs⟩

theorem ran_integrate (hg : d.store.Gapless) (u : Update) : ∃ l, Ran d [u] l (d.integrate u) := by
  obtain ⟨l, rest, d₁, hm, htaken, hwait, hstill, heq⟩ := integrate_spec hg u
  have hmem : ∀ st, st ∈ u.structs ↔ st ∈ l ∨ ∃ q ∈ rest, st ∈ q.2 := fun st => by
    rw [← htaken.mem, mem_gather, Update.mem_structs]
    simp
  have hnodup : (rest.map (·.1)).Nodup := htaken.clients ▸ gather_nodup (by simp)
  refine ⟨l, ?_, fun st => ?_, fun st hst => ?_, fun hn u' hu' => ?_, fun hn => ?_,
    fun K hK hn hb hd u' hu' b hb' => ?_, fun hl => ?_⟩
  · rw [heq]
    exact (Turns.of_moves hm).hold _
  · rw [heq, heldStructs_append, List.mem_append, mem_heldStructs_heldBack, or_left_comm, ← hmem]
    simp [heldStructs]
  · simpa [heldStructs] using (hmem st).2 (.inl hst)
  · rw [heq] at hu'
    exact (List.mem_append.1 hu').elim (hn u') (heldBack_kept hnodup)
  · have hu := hn u (by simp)
    have hq : queued (gather [] u.clients) = structCount [u] := by
      rw [gather_of_neat hu]
      simp [queued, structCount, Function.comp_def]
    have h₁ := htaken.count
    have h₂ : structCount (d.pending ++ heldBack rest) = structCount d.pending + queued rest := by
      rw [← structCount_heldBack]
      simp [structCount]
    rw [heq, h₂]
    omega
  · rw [heq] at hu'
    rcases List.mem_append.1 hu' with hu' | hu'
    · exact hd u' hu' b hb'
    · obtain ⟨-, rfl⟩ := mem_heldBack.1 hu'
      obtain ⟨q, hq, s, ss, hqs, rfl⟩ := mem_blocksOf.1 hb'
      obtain ⟨q₀, hq₀, hc, hs⟩ := htaken.suffix q hq
      rw [gather_of_neat (hn u (by simp))] at hq₀
      obtain ⟨b₀, hb₀, rfl⟩ := List.mem_map.1 hq₀
      exact hK (hqs ▸ hs) (hc ▸ hb u (by simp) b₀ hb₀)
  · obtain rfl := hstill hl
    rw [heq]
    refine ⟨⟨_, rfl⟩, fun hs u' hu' b hb st hst => ?_⟩
    rcases List.mem_append.1 hu' with hu' | hu'
    · exact hs u' hu' b hb st hst
    · obtain ⟨-, rfl⟩ := mem_heldBack.1 hu'
      obtain ⟨q, hq, s, ss, hqs, rfl⟩ := mem_blocksOf.1 hb
      exact hwait q hq st (hqs ▸ hst)

theorem ran_foldl (hg : d.store.Gapless) (us : List Update) :
    ∃ l, Ran d us l (us.foldl integrate d) := by
  induction us generalizing d with
  | nil => exact ⟨[], .nil d⟩
  | cons u us ih =>
    obtain ⟨l, h⟩ := ran_integrate hg u
    obtain ⟨l', h'⟩ := ih (h.turns.gapless hg)
    exact ⟨l ++ l', h.trans h'⟩

/-- Running what is held back again and again moves what can move, and settles. -/
theorem retryLoop_spec (fuel : ℕ) (hg : d.store.Gapless) (hn : ∀ u ∈ d.pending, u.Kept)
    (hfuel : structCount d.pending < fuel) :
    ∃ l, Turns d l (retryLoop fuel d) ∧ (retryLoop fuel d).Settled ∧
      (∀ st, st ∈ heldStructs d.pending ↔ st ∈ l ∨ st ∈ heldStructs (retryLoop fuel d).pending) ∧
      (∀ u ∈ (retryLoop fuel d).pending, u.Kept) ∧
      ∀ K : ℕ → List Struct → Prop, (∀ {c l l'}, l' <:+ l → K c l → K c l') →
        AllBlocks K d.pending → AllBlocks K (retryLoop fuel d).pending := by
  induction fuel generalizing d with
  | zero => omega
  | succ fuel ih =>
    rw [retryLoop]
    split
    next hemp =>
      have hnil : d.pending = [] := List.isEmpty_iff.1 hemp
      exact ⟨[], .nil, by simp [Settled, hnil], by simp, hn, fun _ _ h => h⟩
    next hne =>
      set d₀ : Doc := { d with pending := [] } with hd₀
      obtain ⟨l, hran⟩ := ran_foldl (d := d₀) hg d.pending
      set d₁ := d.pending.foldl integrate d₀ with hd₁
      have ht : Turns d l d₁ := by simpa using (Turns.nil.hold []).trans hran.turns
      have hmem : ∀ st, st ∈ heldStructs d.pending ↔ st ∈ l ∨ st ∈ heldStructs d₁.pending :=
        fun st => by simpa [hd₀, heldStructs] using hran.mem st
      have hn₁ : ∀ u ∈ d₁.pending, u.Kept := hran.kept (by simp [hd₀])
      have hcount : structCount d.pending = l.length + structCount d₁.pending := by
        simpa [hd₀, structCount] using hran.count fun u hu => (hn u hu).neat
      have hK : ∀ K : ℕ → List Struct → Prop, (∀ {c l l'}, l' <:+ l → K c l → K c l') →
          AllBlocks K d.pending → AllBlocks K d₁.pending := fun K hK h =>
        hran.blocks K hK (fun u hu => (hn u hu).neat) h (by simp [hd₀, AllBlocks])
      simp only [← hd₁]
      split
      next hge =>
        -- nothing moved, so every head was found waiting
        have hl : l = [] := List.length_eq_zero_iff.1 (by omega)
        exact ⟨l, ht, (hran.still hl).2 (by simp [hd₀, Settled]), hmem, hn₁, hK⟩
      next hlt =>
        obtain ⟨l', ht', hs', hmem', hn', hK'⟩ := ih (ht.gapless hg) hn₁ (by omega)
        refine ⟨l ++ l', ht.trans ht', hs', fun st => ?_, hn', fun K hsuf h => hK' K hsuf (hK K hsuf h)⟩
        rw [hmem, hmem', List.mem_append, or_assoc]

end Doc

end YCollab.Crdt
