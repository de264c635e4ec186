import YCollab.Crdt.Reached

/-!
# Structs that disappear

`integrate` takes a struct off its queue once `integrateItem` had it, whether or not the item was
put into the store. An item whose first units the document has already is cut, and the cut can fail:
when the struct in front of it is a GC, which is no item to attach to, and when the cut would fall
inside a surrogate pair. The rest of the item is lost then (`Doc.Drops`).

The structs that are taken off the queues while an update is applied are listed with the documents
before and after their turns (`Doc.applyTakes`). A struct that is taken is stored exactly if it is
not dropped (`Take.stored_iff`), and as long as none is dropped every clock of the update is stored
or held back (`Doc.covered_apply`).
-/

namespace YCollab.Crdt

variable {d d' : Doc} {it it' : Item} {st : Struct} {u : Update} {us : List Update}
  {q : List Struct} {qs : List (ℕ × List Struct)}

/-- A struct that is taken off its queue, with the document before and after its turn. -/
structure Take where
  before : Doc
  struct : Struct
  after : Doc

namespace Doc

/-! ### What is taken off the queues -/

/-- What `drain` takes. -/
def drainTakes (d : Doc) : List Struct → List Take
  | [] => []
  | head :: queue =>
    match d.integrateHead head with
    | none => []
    | some d' => ⟨d, head, d'⟩ :: drainTakes d' queue

/-- What `pass` takes. -/
def passTakes (d : Doc) : List (ℕ × List Struct) → List Take
  | [] => []
  | (_, queue) :: queues => d.drainTakes queue ++ passTakes (d.drain queue).1 queues

/-- What `integrateLoop` takes. -/
def loopTakes : ℕ → Doc → List (ℕ × List Struct) → List Take
  | 0, _, _ => []
  | fuel + 1, d, queues =>
    d.passTakes queues ++
      if (d.pass queues).2.2 then loopTakes fuel (d.pass queues).1 (d.pass queues).2.1 else []

/-- What `integrate` takes. -/
def integrateTakes (d : Doc) (u : Update) : List Take :=
  loopTakes (queued (gather [] u.clients) + 1) d (gather [] u.clients)

/-- What is taken when some updates are integrated. -/
def runTakes (d : Doc) : List Update → List Take
  | [] => []
  | u :: us => d.integrateTakes u ++ runTakes (d.integrate u) us

/-- What `retryLoop` takes. -/
def retryTakes : ℕ → Doc → List Take
  | 0, _ => []
  | fuel + 1, d =>
    if d.pending.isEmpty then []
    else
      let before := d.pending
      let d₀ := { d with pending := [] }
      let d := before.foldl integrate d₀
      d₀.runTakes before ++
        if structCount d.pending ≥ structCount before then [] else retryTakes fuel d

/-- What `applyDecodedUpdate` takes. -/
def applyTakes (d : Doc) (u : Update) : List Take :=
  d.integrateTakes u ++ retryTakes (structCount (d.marked u).pending + 1) (d.marked u)

end Doc

namespace Take

/-- The struct of the take had its turn. -/
structure Valid (t : Take) : Prop where
  gapless : t.before.store.Gapless
  turn : t.before.integrateHead t.struct = some t.after

/-- The clocks of the struct are in the store after its turn. -/
def Stored (t : Take) : Prop := t.after.Done t.struct

/-- **A struct that is taken off its queue is stored exactly if it is not dropped.** -/
theorem stored_iff {t : Take} (h : t.Valid) : t.Stored ↔ ¬t.before.Drops t.struct := by
  rcases Doc.outcome h.gapless h.turn with ⟨hdone, heq⟩ | ⟨-, hdrop, hdone⟩ | ⟨hdrop, hc, -⟩
  · exact iff_of_true (show t.after.Done _ from heq ▸ hdone) fun hd => hd.not_done hdone
  · exact iff_of_true hdone hdrop
  · exact iff_of_false (fun hdone => hdrop.not_done ((Doc.done_congr hc.state).1 hdone))
      (not_not.2 hdrop)

end Take

namespace Doc

/-! ### The takes of a run are turns -/

theorem drainTakes_valid (hg : d.store.Gapless) : ∀ t ∈ d.drainTakes q, t.Valid := by
  induction q generalizing d with
  | nil => simp [drainTakes]
  | cons head q ih =>
    unfold drainTakes
    cases hst : d.integrateHead head with
    | none => simp
    | some d' =>
      intro t ht
      rcases List.mem_cons.1 ht with rfl | ht
      · exact ⟨hg, hst⟩
      · exact ih ((turn_of_integrateHead hg hst).gapless hg) t ht

theorem gapless_drain (hg : d.store.Gapless) (q : List Struct) : (d.drain q).1.store.Gapless := by
  obtain ⟨l, -, hm, -⟩ := drain_spec d q rfl
  exact hm.gapless hg

theorem gapless_pass (hg : d.store.Gapless) (qs : List (ℕ × List Struct)) :
    (d.pass qs).1.store.Gapless := by
  obtain ⟨l, hm, -⟩ := pass_spec d qs rfl
  exact hm.gapless hg

theorem gapless_integrate (hg : d.store.Gapless) (u : Update) : (d.integrate u).store.Gapless := by
  obtain ⟨l, hran⟩ := ran_integrate hg u
  exact hran.turns.gapless hg

theorem passTakes_valid (hg : d.store.Gapless) : ∀ t ∈ d.passTakes qs, t.Valid := by
  induction qs generalizing d with
  | nil => simp [passTakes]
  | cons p qs ih =>
    intro t ht
    rcases List.mem_append.1 ht with ht | ht
    · exact drainTakes_valid hg t ht
    · exact ih (gapless_drain hg p.2) t ht

theorem loopTakes_valid (fuel : ℕ) (hg : d.store.Gapless) : ∀ t ∈ loopTakes fuel d qs, t.Valid := by
  induction fuel generalizing d qs with
  | zero => simp [loopTakes]
  | succ fuel ih =>
    intro t ht
    rcases List.mem_append.1 ht with ht | ht
    · exact passTakes_valid hg t ht
    · split at ht
      · exact ih (gapless_pass hg qs) t ht
      · cases ht

theorem runTakes_valid (hg : d.store.Gapless) : ∀ t ∈ d.runTakes us, t.Valid := by
  induction us generalizing d with
  | nil => simp [runTakes]
  | cons u us ih =>
    intro t ht
    rcases List.mem_append.1 ht with ht | ht
    · exact loopTakes_valid _ hg t ht
    · exact ih (gapless_integrate hg u) t ht

theorem retryTakes_valid (fuel : ℕ) (hg : d.store.Gapless) :
    ∀ t ∈ retryTakes fuel d, t.Valid := by
  induction fuel generalizing d with
  | zero => simp [retryTakes]
  | succ fuel ih =>
    intro t ht
    rw [retryTakes] at ht
    split at ht
    · cases ht
    · obtain ⟨l, hran⟩ := ran_foldl (d := { d with pending := [] }) hg d.pending
      rcases List.mem_append.1 ht with ht | ht
      · exact runTakes_valid (d := { d with pending := [] }) hg t ht
      · split at ht
        · cases ht
        · exact ih (hran.turns.gapless hg) t ht

theorem gapless_marked (hg : d.store.Gapless) (u : Update) : (d.marked u).store.Gapless :=
  ((edits_applyDeleteSet (gapless_integrate hg u) u.deletes).marks (gapless_integrate hg u)).gapless

theorem applyTakes_valid (hg : d.store.Gapless) (u : Update) : ∀ t ∈ d.applyTakes u, t.Valid := by
  intro t ht
  rcases List.mem_append.1 ht with ht | ht
  · exact loopTakes_valid _ hg t ht
  · exact retryTakes_valid _ (gapless_marked hg u) t ht

/-! ### Nothing is lost as long as what is taken is stored -/

theorem drain_covers (hg : d.store.Gapless) (h : ∀ t ∈ d.drainTakes q, t.struct = st → t.Stored)
    (hst : st ∈ q) : (d.drain q).1.Done st ∨ st ∈ (d.drain q).2.1 := by
  induction q generalizing d with
  | nil => cases hst
  | cons head q ih =>
    unfold drainTakes at h
    rw [drain]
    cases hd : d.integrateHead head with
    | none => exact .inr hst
    | some d' =>
      simp only [hd, List.mem_cons, forall_eq_or_imp] at h
      have hg' := (turn_of_integrateHead hg hd).gapless hg
      rcases List.mem_cons.1 hst with rfl | hst
      · obtain ⟨l, -, hm, -⟩ := drain_spec d' q rfl
        exact .inl ((h.1 rfl).mono (hm.state_mono hg'))
      · exact ih hg' h.2 hst

theorem pass_covers (hg : d.store.Gapless) (h : ∀ t ∈ d.passTakes qs, t.struct = st → t.Stored)
    (hst : ∃ q ∈ qs, st ∈ q.2) : (d.pass qs).1.Done st ∨ ∃ q ∈ (d.pass qs).2.1, st ∈ q.2 := by
  induction qs generalizing d with
  | nil => simp at hst
  | cons p qs ih =>
    obtain ⟨c, q⟩ := p
    simp only [passTakes, List.mem_append, or_imp, forall_and] at h
    have hg' := gapless_drain hg q
    obtain ⟨l, hm, -⟩ := pass_spec (d.drain q).1 qs rfl
    simp only [pass, List.mem_cons, exists_eq_or_imp] at hst ⊢
    rcases hst with hst | hst
    · exact (drain_covers hg h.1 hst).imp (fun hd => hd.mono (hm.state_mono hg')) .inl
    · exact (ih hg' h.2 hst).imp_right .inr

theorem loop_covers (fuel : ℕ) (hg : d.store.Gapless)
    (h : ∀ t ∈ loopTakes fuel d qs, t.struct = st → t.Stored)
    (hst : d.Done st ∨ ∃ q ∈ qs, st ∈ q.2) :
    (integrateLoop fuel d qs).1.Done st ∨ ∃ q ∈ (integrateLoop fuel d qs).2, st ∈ q.2 := by
  induction fuel generalizing d qs with
  | zero => exact hst
  | succ fuel ih =>
    simp only [loopTakes, List.mem_append, or_imp, forall_and] at h
    obtain ⟨l, hm, -⟩ := pass_spec d qs rfl
    have hpass : (d.pass qs).1.Done st ∨ ∃ q ∈ (d.pass qs).2.1, st ∈ q.2 :=
      hst.elim (fun hd => .inl (hd.mono (hm.state_mono hg))) (pass_covers hg h.1)
    simp only [integrateLoop]
    split
    next hmoved => exact ih (gapless_pass hg qs) (by simpa [hmoved] using h.2) hpass
    next => exact hpass

/-- What was new of a struct is stored, or the struct is held back. -/
def Covered (d : Doc) (st : Struct) : Prop := d.Done st ∨ st ∈ heldStructs d.pending

theorem integrate_covers (hg : d.store.Gapless)
    (h : ∀ t ∈ d.integrateTakes u, t.struct = st → t.Stored)
    (hst : d.Covered st ∨ st ∈ u.structs) : (d.integrate u).Covered st := by
  generalize hl : integrateLoop (queued (gather [] u.clients) + 1) d (gather [] u.clients) = r
  obtain ⟨d₁, rest⟩ := r
  have hqueued : (∃ q ∈ gather [] u.clients, st ∈ q.2) ↔ st ∈ u.structs := by
    rw [mem_gather, Update.mem_structs]
    simp
  have hcov : d.Done st ∨ st ∈ u.structs → d₁.Done st ∨ ∃ q ∈ rest, st ∈ q.2 := by
    rw [← hqueued]
    simpa only [hl] using loop_covers _ hg h
  rw [integrate_eq hg u hl, Covered, heldStructs_append, List.mem_append, mem_heldStructs_heldBack]
  rcases hst with (hst | hst) | hst
  · exact (hcov (.inl hst)).imp id .inr
  · exact .inr (.inl hst)
  · exact (hcov (.inr hst)).imp id .inr

theorem run_covers (hg : d.store.Gapless) (h : ∀ t ∈ d.runTakes us, t.struct = st → t.Stored)
    (hst : d.Covered st ∨ st ∈ heldStructs us) : (us.foldl integrate d).Covered st := by
  induction us generalizing d with
  | nil => simpa [heldStructs] using hst
  | cons u us ih =>
    simp only [runTakes, List.mem_append, or_imp, forall_and] at h
    refine ih (gapless_integrate hg u) h.2 ?_
    rw [heldStructs, List.flatMap_cons, List.mem_append, ← heldStructs] at hst
    rcases hst with hst | hst | hst
    · exact .inl (integrate_covers hg h.1 (.inl hst))
    · exact .inl (integrate_covers hg h.1 (.inr hst))
    · exact .inr hst

theorem retry_covers (fuel : ℕ) (hg : d.store.Gapless)
    (h : ∀ t ∈ retryTakes fuel d, t.struct = st → t.Stored) (hst : d.Covered st) : (retryLoop fuel d).Covered st := by
  induction fuel generalizing d with
  | zero => exact hst
  | succ fuel ih =>
    rw [retryTakes] at h
    rw [retryLoop]
    split
    next => exact hst
    next hne =>
      rw [if_neg hne] at h
      simp only [List.mem_append, or_imp, forall_and] at h
      obtain ⟨l, hran⟩ := ran_foldl (d := { d with pending := [] }) hg d.pending
      have hrun : (d.pending.foldl integrate { d with pending := [] }).Covered st :=
        run_covers (d := { d with pending := [] }) hg h.1 (hst.imp .inl id)
      simp only
      split
      next => exact hrun
      next hlt => exact ih (hran.turns.gapless hg) (by simpa [hlt] using h.2) hrun

/-- A struct of the update, or one that was held back, is stored or held back, as long as it is
stored whenever it is taken. -/
theorem covered_apply (hd : d.Regular) (h : ∀ t ∈ d.applyTakes u, t.struct = st → t.Stored)
    (hst : d.Covered st ∨ st ∈ u.structs) : (d.applyDecodedUpdate u).Covered st := by
  simp only [applyTakes, List.mem_append, or_imp, forall_and] at h
  obtain ⟨l, l', hp⟩ := hd.phases u
  have hmarks := hp.marked.edits.marks (gapless_integrate hd.gapless u)
  have hmarked : (d.marked u).Covered st :=
    (integrate_covers hd.gapless h.1 hst).imp (fun hd => hd.mono fun c => (hmarks.state c).ge)
      fun hm => by rwa [hmarks.pending]
  have hretried : (d.retried u).Covered st :=
    retry_covers _ (gapless_marked hd.gapless u) h.2 hmarked
  exact hretried.imp (fun hd => hd.mono fun c => (hp.marks.state c).ge)
    fun hm => by rwa [hp.marks.pending]

/-- The clock is in the store, or covered by a struct that is held back. -/
def Accounted (d : Doc) (x : ID) : Prop :=
  d.Has x ∨ ∃ st ∈ heldStructs d.pending, st.id.client = x.client ∧ st.id.clock ≤ x.clock ∧
    x.clock < st.endClock

theorem Covered.accounted (h : d.Covered st) (hskip : st.isSkip = false) {k : ℕ}
    (h1 : st.id.clock ≤ k) (h2 : k < st.endClock) : d.Accounted ⟨st.id.client, k⟩ := by
  rcases h with (hs | hle) | hheld
  · rw [hskip] at hs
    cases hs
  · exact .inl (Nat.lt_of_lt_of_le h2 hle)
  · exact .inr ⟨st, hheld, rfl, h1, h2⟩

/-- **When no struct disappears.**  Applying an update to a document that received any updates
stores each struct it takes off a queue, and stores or holds back every clock of every GC and item
of the update, exactly if no struct that has its turn is dropped. -/
theorem apply_loses_nothing_iff (bs : List Bytes) (u : Update) :
    ((∀ t ∈ (replay bs).applyTakes u, t.Stored) ∧
      ∀ st ∈ u.structs, st.isSkip = false → ∀ k, st.id.clock ≤ k → k < st.endClock →
        ((replay bs).applyDecodedUpdate u).Accounted ⟨st.id.client, k⟩) ↔
      ∀ t ∈ (replay bs).applyTakes u, ¬t.before.Drops t.struct := by
  have hd := replay_regular bs
  have hiff : ∀ t ∈ (replay bs).applyTakes u, (t.Stored ↔ ¬t.before.Drops t.struct) := fun t ht =>
    Take.stored_iff (applyTakes_valid hd.gapless u t ht)
  constructor
  · rintro ⟨h, -⟩ t ht
    exact (hiff t ht).1 (h t ht)
  · intro h
    have hs : ∀ t ∈ (replay bs).applyTakes u, t.Stored := fun t ht => (hiff t ht).2 (h t ht)
    exact ⟨hs, fun st hst hskip k h1 h2 => (covered_apply hd (fun t ht _ => hs t ht) (.inr hst)).accounted hskip h1 h2⟩

end Doc

namespace Sample

/-- Two garbage-collected units of client 1. -/
def twoGone : Bytes := [1, 1, 1, 0, 0, 2, 0]

/-- Client 1 again, from clock 1 on: two letters of the type `t`. -/
def overlap : Bytes := [1, 1, 1, 1, 4, 1, 1, 116, 2, 97, 98, 0]

end Sample

/-- A document has the clocks 0 and 1 of a client as garbage. An update that it accepts brings the
clocks 1 and 2; afterwards clock 2 is neither in the store nor held back. -/
theorem overlap_lost : ∃ u, decodeUpdate Sample.overlap = .ok u ∧
    (∃ st ∈ u.structs, st.isSkip = false ∧ st.id.client = 1 ∧ st.id.clock ≤ 2 ∧ 2 < st.endClock) ∧
    ¬((Doc.replay [Sample.twoGone]).applyDecodedUpdate u).Accounted ⟨1, 2⟩ := by
  refine ⟨_, rfl, ⟨_, List.mem_singleton.2 rfl, by decide⟩, ?_⟩
  rintro (h | ⟨st, hst, -⟩)
  · exact Nat.lt_irrefl 2 h
  · cases hst

end YCollab.Crdt
