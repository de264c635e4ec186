import YCollab.Crdt.Deletes
import YCollab.Crdt.History
import YCollab.Crdt.Woven

/-!
# Documents that received arbitrary updates

Whatever updates a document received, in whatever order, its store has no gaps, its items are woven,
and it is at rest: every head of what it holds back has to wait, and what it remembers to delete has
not arrived (`Doc.Regular`, `Doc.replay_regular`). The phases of `applyDecodedUpdate` are turns of
structs and edits (`Doc.Regular.phases`). So nothing that is held back could be integrated
(`integration_maximal`).
-/

namespace YCollab.Crdt

/-- The item refers to the unit: as its origin, its right origin or the owner of its parent. -/
def Item.Mentions (it : Item) (o : ID) : Prop :=
  it.origin = some o ∨ it.rightOrigin = some o ∨ it.wireParent = some (.item o)

namespace Doc

variable {d d' : Doc} {l : List Struct} {u : Update}

/-- Nothing that is held back could move, and nothing that has been received is to be deleted
later. -/
structure Rest (d : Doc) : Prop where
  settled : d.Settled
  ahead : ∀ {x}, d.pendingDeletes.Names x → ¬d.Has x

theorem Rest.empty : Doc.empty.Rest :=
  ⟨nofun, fun hx => absurd hx DeleteSet.names_empty⟩

/-! ### Waiting does not depend on edits -/

theorem missing_congr (h : ∀ c, d'.state c = d.state c) (x : ID) : d'.missing x = d.missing x := by
  funext o
  cases o <;> simp [missing, h]

theorem blocked_congr (h : ∀ c, d'.state c = d.state c) {st : Struct} :
    d'.Blocked st ↔ d.Blocked st := by
  cases st with
  | skip id n => exact Iff.rfl
  | gc id n => simp only [Blocked, h]
  | item it => simp only [Blocked, Known, missing_congr h, h]

theorem Marks.settled (h : Marks d d') (hs : d.Settled) : d'.Settled := by
  intro u hu b hb st hst
  rw [h.pending] at hu
  exact (blocked_congr h.state).2 (hs u hu b hb st hst)

/-! ### What every document is like -/

/-- What holds of every document that received updates, whatever they were. -/
structure Regular (d : Doc) : Prop where
  woven : ∃ ord, d.Woven ord
  kept : ∀ u ∈ d.pending, u.Kept
  built : d.pendingDeletes.Built
  rest : d.Rest

theorem Regular.gapless (h : d.Regular) : d.store.Gapless := by
  obtain ⟨ord, hw⟩ := h.woven
  exact hw.gapless

theorem Regular.empty : Doc.empty.Regular where
  woven := ⟨[], .empty⟩
  kept := by simp [Doc.empty]
  built := .empty
  rest := .empty

/-- The document once the delete set of an update has been applied. -/
def marked (d : Doc) (u : Update) : Doc := (d.integrate u).applyDeleteSet u.deletes

/-- The document once what was held back has been run again. -/
def retried (d : Doc) (u : Update) : Doc :=
  retryLoop (structCount (d.marked u).pending + 1) (d.marked u)

/-- The phases of applying an update: its structs `l` have their turns, its deletions are made, the
structs `l'` of what is held back have their turns, and what was remembered is deleted. -/
structure Phases (d : Doc) (u : Update) (l l' : List Struct) : Prop where
  ran : Ran d [u] l (d.integrate u)
  marked : Held (d.integrate u) (d.marked u) u.deletes.Names
  turns : Turns (d.marked u) l' (d.retried u)
  mem : ∀ st, st ∈ heldStructs (d.marked u).pending ↔
    st ∈ l' ∨ st ∈ heldStructs (d.retried u).pending
  kept : ∀ u' ∈ (d.retried u).pending, u'.Kept
  settled : (d.retried u).Settled
  gapless : (d.retried u).store.Gapless
  remembered : (d.retried u).pendingDeletes = (d.marked u).pendingDeletes
  flush : d.applyDecodedUpdate u =
    { d.retried u with pendingDeletes := SortedMap.empty }.applyDeleteSet
      (d.retried u).pendingDeletes
  flushed : Held { d.retried u with pendingDeletes := SortedMap.empty } (d.applyDecodedUpdate u)
    (d.retried u).pendingDeletes.Names

theorem Regular.phases (h : d.Regular) (u : Update) : ∃ l l', Phases d u l l' := by
  obtain ⟨l, hran⟩ := ran_integrate h.gapless u
  have hg₁ := hran.turns.gapless h.gapless
  have hp₁ := hran.turns.pendingDeletes h.gapless
  have hmarked := applyDeleteSet_held hg₁ (hp₁ ▸ h.built) u.deletes
  have hm := hmarked.edits.marks hg₁
  have hkept : ∀ u' ∈ (d.marked u).pending, u'.Kept := by
    rw [marked, hm.pending]
    exact hran.kept h.kept
  obtain ⟨l', ht, hs, hmem, hk, -⟩ :=
    retryLoop_spec (structCount (d.marked u).pending + 1) hm.gapless hkept (Nat.lt_succ_self _)
  have hp₃ := ht.pendingDeletes hm.gapless
  have hb : (retried d u).pendingDeletes.Built := hp₃ ▸ hmarked.built
  have hflush : d.applyDecodedUpdate u =
      { d.retried u with pendingDeletes := SortedMap.empty }.applyDeleteSet
        (d.retried u).pendingDeletes := by
    have heq : d.applyDecodedUpdate u = if DeleteSet.isEmpty (d.retried u).pendingDeletes
        then d.retried u
        else { d.retried u with pendingDeletes := SortedMap.empty }.applyDeleteSet
          (d.retried u).pendingDeletes := rfl
    rw [heq]
    split
    next hemp =>
      -- without anything remembered there is nothing to apply
      have hnil := hb.isEmpty hemp
      have hself : { d.retried u with pendingDeletes := SortedMap.empty } = d.retried u := by
        rw [← hnil]
      rw [hself, hnil]
      rfl
    next => rfl
  refine ⟨l, l', hran, hmarked, ht, hmem, hk, hs, ht.gapless hm.gapless, hp₃, hflush, ?_⟩
  rw [hflush]
  exact applyDeleteSet_held (d := { d.retried u with pendingDeletes := SortedMap.empty })
    (ht.gapless hm.gapless) .empty (d.retried u).pendingDeletes

theorem Phases.marks {l' : List Struct} (h : Phases d u l l') :
    Marks { d.retried u with pendingDeletes := SortedMap.empty } (d.applyDecodedUpdate u) :=
  h.flushed.edits.marks h.gapless

theorem Phases.names {l' : List Struct} (h : Phases d u l l') (x : ID) :
    (d.applyDecodedUpdate u).pendingDeletes.Names x ↔
      (d.marked u).pendingDeletes.Names x ∧ ¬(d.applyDecodedUpdate u).Has x := by
  rw [h.flushed.names, or_iff_right DeleteSet.names_empty, h.remembered]
  unfold Has
  rw [h.marks.state]

theorem Regular.state_mono (h : d.Regular) (u : Update) (c : ℕ) :
    (d.integrate u).state c ≤ (d.applyDecodedUpdate u).state c ∧
      d.state c ≤ (d.applyDecodedUpdate u).state c := by
  obtain ⟨l, l', hp⟩ := h.phases u
  have hg₁ := hp.ran.turns.gapless h.gapless
  have hm := hp.marked.edits.marks hg₁
  have h₁ := hp.ran.turns.state_mono h.gapless c
  have h₂ := hp.turns.state_mono hm.gapless c
  have h₃ := hp.marks.state c
  have h₄ := hm.state c
  simp only [state] at h₁ h₂ h₃ h₄ ⊢
  omega

/-- **What is remembered** was remembered before or is named by the update, and has not been
received. -/
theorem Regular.names_iff (h : d.Regular) {x : ID} :
    (d.applyDecodedUpdate u).pendingDeletes.Names x ↔
      (d.pendingDeletes.Names x ∨ u.deletes.Names x) ∧ ¬(d.applyDecodedUpdate u).Has x := by
  obtain ⟨l, l', hp⟩ := h.phases u
  have hmono : (d.integrate u).Has x → (d.applyDecodedUpdate u).Has x := fun hhas =>
    Nat.lt_of_lt_of_le hhas (h.state_mono u x.client).1
  rw [hp.names, hp.marked.names, hp.ran.turns.pendingDeletes h.gapless]
  tauto

theorem Regular.apply (h : d.Regular) (u : Update) : (d.applyDecodedUpdate u).Regular := by
  obtain ⟨l, l', hp⟩ := h.phases u
  obtain ⟨ord, hw⟩ := h.woven
  obtain ⟨ord₁, hw₁⟩ := hw.turns hp.ran.turns
  obtain ⟨ord₂, hw₂, -⟩ := hw₁.edits hp.marked.edits
  obtain ⟨ord₃, hw₃⟩ := hw₂.turns hp.turns
  have hw₃' : Woven { d.retried u with pendingDeletes := SortedMap.empty } ord₃ :=
    ⟨hw₃.gapless, hw₃.weave, hw₃.mem, hw₃.start, hw₃.mapItems⟩
  obtain ⟨ord₄, hw₄, -⟩ := hw₃'.edits hp.flushed.edits
  refine ⟨⟨ord₄, hw₄⟩, ?_, hp.flushed.built, hp.marks.settled hp.settled,
    fun {x} hx => ((hp.names x).1 hx).2⟩
  rw [hp.marks.pending]
  exact hp.kept

theorem Regular.receive (h : d.Regular) (b : Bytes) : (d.receive b).Regular := by
  unfold Doc.receive applyUpdate
  cases decodeUpdate b with
  | ok u => exact h.apply u
  | error x => exact h

/-- **Every document that received updates is regular.** -/
theorem replay_regular (bs : List Bytes) : (replay bs).Regular := by
  induction bs using List.reverseRecOn with
  | nil => exact .empty
  | append_singleton bs b ih =>
    rw [replay_snoc]
    exact ih.receive b

theorem Regular.foldl (us : List Update) : (us.foldl applyDecodedUpdate Doc.empty).Regular := by
  induction us using List.reverseRecOn with
  | nil => exact .empty
  | append_singleton us u ih =>
    rw [List.foldl_append]
    exact ih.apply u

/-- The document as it is while an update is applied to it: some structs of the update had their
turns; or the deletions of the update have been made, and some structs that had been held back had
their turns. -/
inductive Moment (bs : List Bytes) (d : Doc) : Prop
  | integrating {l : List Struct} : Turns (replay bs) l d → Moment bs d
  | retrying (u : Update) {l : List Struct} : Turns ((replay bs).marked u) l d → Moment bs d

theorem Moment.gapless {bs : List Bytes} (h : Moment bs d) : d.store.Gapless := by
  have hr := replay_regular bs
  cases h with
  | integrating ht => exact ht.gapless hr.gapless
  | retrying u ht =>
    obtain ⟨l, l', hp⟩ := hr.phases u
    have hg := hp.ran.turns.gapless hr.gapless
    exact ht.gapless (hp.marked.edits.marks hg).gapless

theorem Moment.built {bs : List Bytes} (h : Moment bs d) : d.pendingDeletes.Built := by
  have hr := replay_regular bs
  cases h with
  | integrating ht => exact ht.pendingDeletes hr.gapless ▸ hr.built
  | retrying u ht =>
    obtain ⟨l, l', hp⟩ := hr.phases u
    have hg := hp.ran.turns.gapless hr.gapless
    exact ht.pendingDeletes (hp.marked.edits.marks hg).gapless ▸ hp.marked.built

/-! ### Integration is maximal -/

theorem missing_eq_true {x : ID} {o : Option ID} :
    d.missing x o = true ↔ ∃ y, o = some y ∧ y.client ≠ x.client ∧ d.state y.client ≤ y.clock := by
  cases o <;> simp [missing]

theorem ownerID_eq_some {it : Item} {o : ID} :
    ownerID it = some o ↔ it.wireParent = some (.item o) := by
  unfold ownerID
  split
  next owner h => simp [h]
  next h => simpa using h o

theorem not_known {it : Item} (h : ¬d.Known it) :
    ∃ o, it.Mentions o ∧ o.client ≠ it.id.client ∧ d.state o.client ≤ o.clock := by
  simp only [Known, not_and_or, Bool.not_eq_false, missing_eq_true, ownerID_eq_some] at h
  rcases h with ⟨o, ho, h⟩ | ⟨o, ho, h⟩ | ⟨o, ho, h⟩
  · exact ⟨o, .inl ho, h⟩
  · exact ⟨o, .inr (.inl ho), h⟩
  · exact ⟨o, .inr (.inr ho), h⟩

theorem Blocked.waits {st : Struct} (h : d.Blocked st) : d.state st.id.client < st.id.clock ∨
    ∃ it o, st = .item it ∧ it.Mentions o ∧ o.client ≠ it.id.client ∧ d.state o.client ≤ o.clock := by
  cases st with
  | skip id n => exact h.elim
  | gc id n => exact .inl h
  | item it =>
    refine h.imp id fun ⟨_, hk⟩ => ?_
    obtain ⟨o, ho⟩ := not_known hk
    exact ⟨it, o, rfl, ho⟩

theorem Regular.pendingDeletes_ge (h : d.Regular) {p : ℕ × List DeleteRange}
    (hp : p ∈ d.pendingDeletes.entries) {r : DeleteRange} (hr : r ∈ p.2) :
    d.state p.1 ≤ r.clock := by
  have hpos := (h.built p.1 p.2 (SortedMap.find?_eq_some.2 hp)).2.pos r hr
  have hnames : d.pendingDeletes.Names ⟨p.1, r.clock⟩ :=
    DeleteSet.names_iff.2 ⟨p, hp, rfl, r, hr, le_rfl, Nat.lt_add_of_pos_right hpos⟩
  exact Nat.le_of_not_lt (h.rest.ahead hnames)

end Doc

/-- **Integration is maximal.** Whatever updates were applied, a queue that is held back starts with
a struct beyond its client's state, or with an item that refers to a unit of another client that has
not arrived; and what is remembered to be deleted has not arrived. -/
theorem integration_maximal (us : List Update) :
    (∀ u ∈ (us.foldl Doc.applyDecodedUpdate Doc.empty).pending, ∀ b ∈ u.clients,
      ∃ st, b.structs.head? = some st ∧
        ((us.foldl Doc.applyDecodedUpdate Doc.empty).state st.id.client < st.id.clock ∨
          ∃ it o, st = .item it ∧ it.Mentions o ∧ o.client ≠ it.id.client ∧
            (us.foldl Doc.applyDecodedUpdate Doc.empty).state o.client ≤ o.clock)) ∧
    ∀ p ∈ (us.foldl Doc.applyDecodedUpdate Doc.empty).pendingDeletes.entries, ∀ r ∈ p.2,
      (us.foldl Doc.applyDecodedUpdate Doc.empty).state p.1 ≤ r.clock := by
  have h := Doc.Regular.foldl us
  refine ⟨fun u hu b hb => ?_, fun p hp r hr => h.pendingDeletes_ge hp hr⟩
  obtain ⟨st, ss, hss⟩ := List.exists_cons_of_ne_nil ((h.kept u hu).structs b hb)
  have hhead : b.structs.head? = some st := by rw [hss]; rfl
  exact ⟨st, hhead, (h.rest.settled u hu b hb st hhead).waits⟩

end YCollab.Crdt
