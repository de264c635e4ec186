import YCollab.Crdt.Reached
import YCollab.Crdt.Wire

/-!
# What is stored can be written

The structs of a decoded update are within the limits of the format (`Struct.Decoded`). A document
that received decoded updates stays within them: every stored item is a piece of a decoded one, its
content is within the limits, and the IDs it names are within them or belong to units the document
has (`Doc.Legible`, `Doc.replay_legible`). Only clocks can grow beyond what can be written.
-/

namespace YCollab.Crdt

open Lib0

/-- Both halves of a content are within the limits. -/
theorem Content.Safe.splice {c h t : Content} {k : ℕ} (hsafe : c.Safe)
    (hs : c.splice k = .ok (h, t)) (hk : k ≤ c.len) : h.Safe ∧ t.Safe := by
  cases c with
  | deleted n =>
    cases hs
    exact ⟨hk.trans hsafe, (Nat.sub_le ..).trans hsafe⟩
  | json values =>
    cases hs
    refine ⟨⟨?_, fun s hm => hsafe.2 s (List.mem_of_mem_take hm)⟩,
      ⟨?_, fun s hm => hsafe.2 s (List.mem_of_mem_drop hm)⟩⟩
    · exact (List.length_take_le' ..).trans hsafe.1
    · rw [List.length_drop]
      exact (Nat.sub_le ..).trans hsafe.1
  | any values =>
    cases hs
    refine ⟨⟨?_, fun v hm => hsafe.2 v (List.mem_of_mem_take hm)⟩,
      ⟨?_, fun v hm => hsafe.2 v (List.mem_of_mem_drop hm)⟩⟩
    · exact (List.length_take_le' ..).trans hsafe.1
    · rw [List.length_drop]
      exact (Nat.sub_le ..).trans hsafe.1
  | string s =>
    simp only [Content.splice] at hs
    split at hs
    next head tail hsplit =>
      cases hs
      have hbytes := congrArg (List.flatMap Rune.bytes) (splitUTF16_some hsplit).1
      rw [List.flatMap_append, flatMap_runes, flatMap_runes, flatMap_runes] at hbytes
      have hlen := congrArg List.length hbytes
      rw [List.length_append] at hlen
      have hs : s.length ≤ maxSafeInteger := hsafe
      exact ⟨show head.length ≤ _ by omega, show tail.length ≤ _ by omega⟩
    next => cases hs
  | _ => cases hs

namespace Item

variable {it p : Item}

theorem Piece.content_safe (hp : it.Piece p) (h : it.content.Safe) : p.content.Safe := by
  induction hp with
  | refl => exact h
  | head _ hs _ hk ih => exact (ih.splice hs hk.le).1
  | tail _ hs _ hk ih => exact (ih.splice hs hk.le).2

theorem Piece.named_eq (hp : it.Piece p) :
    p.id.client = it.id.client ∧ p.rightOrigin = it.rightOrigin ∧ p.wireParent = it.wireParent := by
  induction hp with
  | refl => exact ⟨rfl, rfl, rfl⟩
  | head _ _ _ _ ih => exact ih
  | tail _ _ _ _ ih => exact ih

theorem Piece.clock_le (hp : it.Piece p) : it.id.clock ≤ p.id.clock := by
  induction hp with
  | refl => exact le_rfl
  | head _ _ _ _ ih => exact ih
  | tail _ _ _ _ ih => exact ih.trans (Nat.le_add_right ..)

theorem Piece.origin_eq (hp : it.Piece p) : p.origin = it.origin ∨
    it.id.clock < p.id.clock ∧ p.origin = some ⟨p.id.client, p.id.clock - 1⟩ := by
  induction hp with
  | refl => exact .inl rfl
  | head _ _ _ _ ih => exact ih
  | tail hp _ h0 _ _ => exact .inr ⟨Nat.lt_add_right_iff_pos.2 h0 |>.trans_le' hp.clock_le, rfl⟩

end Item

namespace Doc

variable {d d' : Doc} {it it' : Item} {st : Struct} {u : Update} {x : ID} {l : List Struct}

/-- The ID is within the limits, except perhaps for a clock that the document has. -/
def Refers (d : Doc) (x : ID) : Prop :=
  x.client ≤ maxSafeInteger ∧ (x.clock ≤ maxSafeInteger ∨ d.Has x)

/-- The item is within the limits, except perhaps for clocks that the document has. -/
structure Storable (d : Doc) (it : Item) : Prop where
  content : it.content.Safe
  origin : ∀ x, it.origin = some x → d.Refers x
  right : ∀ x, it.rightOrigin = some x → d.Refers x
  wire : ∀ p, it.wireParent = some p → p.Safe
  root : ∀ name, it.parent = some (.root name) → name.length ≤ maxSafeInteger
  nested : ∀ o, it.parent = some (.nested o) → d.Refers o
  key : it.parentSub.length ≤ maxSafeInteger

/-- What the document stores can be written if its clocks can. -/
structure Legible (d : Doc) : Prop where
  client : ∀ c, 0 < d.state c → c ≤ maxSafeInteger
  items : ∀ it, d.Stored it → d.Storable it

theorem Legible.empty : Doc.empty.Legible where
  client c h := absurd h (Nat.lt_irrefl 0)
  items it h := by cases h

theorem Refers.of_safe (h : x.Safe) : d.Refers x := ⟨h.1, .inl h.2⟩

theorem Refers.mono (h : d.Refers x) (hle : ∀ c, d.state c ≤ d'.state c) : d'.Refers x :=
  ⟨h.1, h.2.imp_right fun hx => lt_of_lt_of_le hx (hle _)⟩

theorem Storable.mono (h : d.Storable it) (hle : ∀ c, d.state c ≤ d'.state c) :
    d'.Storable it where
  content := h.content
  origin x hx := (h.origin x hx).mono hle
  right x hx := (h.right x hx).mono hle
  wire := h.wire
  root := h.root
  nested o ho := (h.nested o ho).mono hle
  key := h.key

theorem Storable.piece (h : d.Storable it) (hp : it.Piece it')
    (hc : it'.id.client ≤ maxSafeInteger) (hk : it'.id.clock ≤ d.state it'.id.client) :
    d.Storable it' := by
  obtain ⟨hpar, -, hsub⟩ := hp.parent_eq
  obtain ⟨-, hright, hwire⟩ := hp.named_eq
  refine ⟨hp.content_safe h.content, fun x hx => ?_, hright ▸ h.right, hwire ▸ h.wire,
    hpar ▸ h.root, hpar ▸ h.nested, hsub ▸ h.key⟩
  rcases hp.origin_eq with heq | ⟨hpos, heq⟩
  · exact h.origin x (heq ▸ hx)
  · obtain rfl := Option.some.inj (heq.symm.trans hx)
    exact ⟨hc, .inr (show it'.id.clock - 1 < d.state it'.id.client by omega)⟩

theorem storable_of_decoded (h : it.Decoded) : d.Storable it where
  content := h.content
  origin x hx := Refers.of_safe (h.origin x hx)
  right x hx := Refers.of_safe (h.right x hx)
  wire p hp := by
    have habs : it.absent = true := by
      have := h.alone.1 (by simp [hp])
      simp [Item.absent, this]
    have := h.toSafe.parent habs
    simpa [Item.parentInfo, h.fresh, hp] using this
  root name hn := by simp [h.fresh] at hn
  nested o ho := by simp [h.fresh] at ho
  key := by
    cases hk : it.absent && it.hasParentSub with
    | false => simp [h.sub hk]
    | true =>
      rw [Bool.and_eq_true] at hk
      exact h.key hk.1 hk.2

theorem Legible.filled (h : d.Legible) (hit : it.Decoded) (hf : Filled d it it') :
    d.Storable it' := by
  have hs : d.Storable it := storable_of_decoded hit
  cases hf with
  | same => exact hs
  | none =>
    refine ⟨hs.content, hs.origin, hs.right, hs.wire, fun _ he => ?_, fun _ he => ?_, hs.key⟩
    · cases he
    · cases he
  | neighbour hn =>
    have hn := h.items _ hn
    exact ⟨hs.content, hs.origin, hs.right, hs.wire, hn.root, hn.nested, hn.key⟩
  | root hw =>
    refine { hs with root := ?_, nested := (fun _ he => by cases he) }
    rintro _ ⟨⟩
    exact hs.wire _ hw
  | @nested owner ho =>
    refine { hs with root := (fun _ he => by cases he), nested := ?_ }
    rintro _ ⟨⟩
    exact ⟨h.client _ (Nat.zero_lt_of_lt ho), .inr ho⟩

theorem Legible.pieces (h : d.Legible) (hg : d'.store.Gapless) (hstate : ∀ c, d'.state c = d.state c)
    (hpieces : ∀ it', d'.Stored it' → ∃ it, d.Stored it ∧ it.Piece it') : d'.Legible where
  client c hc := h.client c (hstate c ▸ hc)
  items it' hst := by
    obtain ⟨it, hit, hp⟩ := hpieces it' hst
    have hlt : it'.id.clock < d'.state it'.id.client := hst.has hg (hst.id_mem_units hg)
    refine ((h.items it hit).mono fun c => (hstate c).ge).piece hp ?_ hlt.le
    rw [hstate] at hlt
    exact h.client _ (Nat.zero_lt_of_lt hlt)

theorem Legible.edits (h : d.Legible) (hg : d.store.Gapless) (he : Edits d d') : d'.Legible :=
  have hm := he.marks hg
  h.pieces hm.gapless hm.state hm.pieces

theorem Legible.cuts (h : d.Legible) (hc : Cuts d d') : d'.Legible :=
  h.pieces hc.gapless hc.state hc.pieces

/-- One struct more. -/
theorem Legible.append (h : d.Legible) (st : Struct) (hg : d.store.Gapless) (hpos : 0 < st.len)
    (hskip : st.isSkip = false) (hs : d.state st.id.client = st.id.clock)
    (hc : st.id.client ≤ maxSafeInteger) (hstore : d'.store = d.store.append st)
    (hitem : ∀ it, st = .item it → d.Storable it) : d'.Legible := by
  have hstate : ∀ c, d'.state c = if c = st.id.client then st.endClock else d.state c := fun c => by
    rw [state, hstore, hg.state_append hpos hskip hs]
    rfl
  have hle : ∀ c, d.state c ≤ d'.state c := fun c => by
    rw [state, state, hstore]
    exact (Cuts.refl hg).state_append_le hpos hskip hs c
  refine ⟨fun c hpos => ?_, fun it hst => ?_⟩
  · rw [hstate] at hpos
    split at hpos
    next heq => exact heq ▸ hc
    next => exact h.client c hpos
  · unfold Stored at hst
    rw [hstore, StructStore.structs_append hs] at hst
    split at hst
    next heq =>
      rcases List.mem_append.1 hst with hm | hm
      · exact (h.items it (Stored.of_mem hg hm)).mono hle
      · exact (hitem it (List.mem_singleton.1 hm).symm).mono hle
    next => exact (h.items it hst).mono hle

/-- The turn of a decoded struct. -/
theorem Legible.turn (h : d.Legible) (hg : d.store.Gapless) (hst : st.Decoded)
    (hc : st.id.client ≤ maxSafeInteger) (ht : Turn d st d') : d'.Legible := by
  have hnew : ∀ {it it₁ : Item} {d₁ : Doc}, st = .item it → New d d₁ it it₁ →
      d₁.Storable it₁ := by
    rintro it it₁ d₁ rfl hn
    obtain ⟨it', hfill, hp⟩ := hn.piece
    refine ((h.filled (hst.2 it rfl) hfill).mono fun c => (hn.cuts.state c).ge).piece hp ?_
      hn.state_eq.ge
    rw [hn.id]
    exact hc
  cases ht with
  | skip => exact h
  | known => exact h
  | @gc id n h1 h2 =>
    refine h.append (.gc ⟨id.client, d.state id.client⟩ _) hg ?_ rfl rfl hc rfl
      fun _ he => by cases he
    rw [Struct.len_gc]
    omega
  | dropped _ hcuts _ => exact h.cuts hcuts
  | @tombstone it it₁ d₁ hn =>
    refine (h.cuts hn.cuts).append (.gc it₁.id it₁.len) hn.cuts.gapless hn.pos rfl
      hn.state_eq ?_ rfl fun _ he => by cases he
    rw [Struct.id_gc, hn.id]
    exact hc
  | @link it it₁ d₁ p left hn hp =>
    refine (h.cuts hn.cuts).append (.item it₁) hn.cuts.gapless hn.pos rfl hn.state_eq ?_
      (link_store ..) ?_
    · rw [Struct.id_item, hn.id]
      exact hc
    · rintro _ ⟨⟩
      exact hnew rfl hn

/-- The structs are decoded, and their clients can be written. -/
def AllDecoded (l : List Struct) : Prop := ∀ st ∈ l, st.Decoded ∧ st.id.client ≤ maxSafeInteger

theorem Legible.of_store (h : d.Legible) (hs : d'.store = d.store) : d'.Legible where
  client c hc := h.client c (by rwa [state, hs] at hc)
  items it hit := by
    have hle : ∀ c, d.state c ≤ d'.state c := fun c => by rw [state, state, hs]
    exact (h.items it (by rwa [Stored, hs] at hit)).mono hle

theorem Legible.turns (h : d.Legible) (hg : d.store.Gapless) (ht : Turns d l d')
    (hl : AllDecoded l) : d'.Legible := by
  refine (ht.invariant hg (fun _ _ he => he.of_store rfl) (fun e st e' hm hg he hst => ?_) h).2
  exact he.turn hg (hl st hm).1 (hl st hm).2 (turn_of_integrateHead hg hst)

/-- A property of the store that edits keep, and turns of what a decoder returned. -/
structure Stable (P : Doc → Prop) : Prop where
  store : ∀ {d d'}, P d → d'.store = d.store → P d'
  turns : ∀ {d d' l}, P d → d.store.Gapless → Turns d l d' → AllDecoded l → P d'
  edits : ∀ {d d'}, P d → d.store.Gapless → Edits d d' → P d'

theorem Stable.apply {P : Doc → Prop} (hP : Stable P) (h : P d) (hr : d.Regular)
    (hp : AllDecoded (heldStructs d.pending)) (hu : AllDecoded u.structs) :
    P (d.applyDecodedUpdate u) ∧ AllDecoded (heldStructs (d.applyDecodedUpdate u).pending) := by
  obtain ⟨l, l', hph⟩ := hr.phases u
  have hus : heldStructs [u] = u.structs := by simp [heldStructs]
  have hg₁ := hph.ran.turns.gapless hr.gapless
  have hm := hph.marked.edits.marks hg₁
  have h₁ := hP.turns h hr.gapless hph.ran.turns fun st hst => hu st (hus ▸ hph.ran.taken st hst)
  have hp₁ : AllDecoded (heldStructs (d.marked u).pending) := by
    intro st hst
    rw [hm.pending] at hst
    rcases (hph.ran.mem st).2 (.inr hst) with hst | hst
    · exact hp st hst
    · exact hu st (hus ▸ hst)
  have h₂ := hP.edits h₁ hg₁ hph.marked.edits
  have h₃ := hP.turns h₂ hm.gapless hph.turns fun st hst => hp₁ st ((hph.mem st).2 (.inl hst))
  have h₄ : P { d.retried u with pendingDeletes := SortedMap.empty } := hP.store h₃ rfl
  refine ⟨hP.edits h₄ hph.gapless hph.flushed.edits, fun st hst => ?_⟩
  rw [hph.marks.pending] at hst
  exact hp₁ st ((hph.mem st).2 (.inr hst))

theorem allDecoded_of_decode {b : Bytes} (hb : b.length ≤ maxSafeInteger)
    (hu : decodeUpdate b = .ok u) : AllDecoded u.structs := by
  intro st hst
  obtain ⟨blk, hblk, hst⟩ := Update.mem_structs.1 hst
  have hdec := (decodeUpdate_decoded hb hu).2 blk hblk
  refine ⟨hdec.decoded st hst, ?_⟩
  rw [hdec.contig.client_eq hst]
  exact hdec.client

theorem Stable.replay {P : Doc → Prop} (hP : Stable P) (h : P {}) {bs : List Bytes}
    (hbs : ∀ b ∈ bs, b.length ≤ maxSafeInteger) :
    P (replay bs) ∧ AllDecoded (heldStructs (replay bs).pending) := by
  induction bs using List.reverseRecOn with
  | nil => exact ⟨h, fun st hst => by cases hst⟩
  | append_singleton bs b ih =>
    obtain ⟨h, hp⟩ := ih fun b hb => hbs b (by simp [hb])
    rw [replay_snoc]
    cases hu : decodeUpdate b with
    | error x =>
      rw [receive_error hu]
      exact ⟨h, hp⟩
    | ok u =>
      rw [receive_ok hu]
      exact hP.apply h (replay_regular bs) hp (allDecoded_of_decode (hbs b (by simp)) hu)

theorem legible_stable : Stable Legible := ⟨.of_store, .turns, .edits⟩

/-- **Every document that received updates is legible**; no slice of bytes is longer than the
greatest integer that can be written. -/
theorem replay_legible {bs : List Bytes} (hbs : ∀ b ∈ bs, b.length ≤ maxSafeInteger) :
    (replay bs).Legible ∧ AllDecoded (heldStructs (replay bs).pending) :=
  legible_stable.replay .empty hbs

/-- What is remembered are the units that the updates name and that have not been received. -/
theorem replay_names_iff {bs : List Bytes} {x : ID} : (replay bs).pendingDeletes.Names x ↔
    (∃ b ∈ bs, ∃ u, decodeUpdate b = .ok u ∧ u.deletes.Names x) ∧ ¬(replay bs).Has x := by
  induction bs using List.reverseRecOn with
  | nil => exact iff_of_false DeleteSet.names_empty fun ⟨⟨_, hb, _⟩, _⟩ => by cases hb
  | append_singleton bs b ih =>
    rw [replay_snoc]
    simp only [List.mem_append, List.mem_singleton, or_and_right, exists_or, exists_eq_left]
    cases hu : decodeUpdate b with
    | error e =>
      rw [receive_error hu, ih]
      simp
    | ok u =>
      have hmono : (replay bs).Has x → ((replay bs).applyDecodedUpdate u).Has x := fun hhas =>
        Nat.lt_of_lt_of_le hhas ((replay_regular bs).state_mono u x.client).2
      rw [receive_ok hu, (replay_regular bs).names_iff, ih]
      simp only [Except.ok.injEq, exists_eq_left']
      constructor
      · rintro ⟨⟨hold, -⟩ | hnew, hnot⟩
        · exact .inl ⟨hold, hnot⟩
        · exact .inr ⟨hnew, hnot⟩
      · rintro (⟨hold, hnot⟩ | ⟨hnew, hnot⟩)
        · exact ⟨.inl ⟨hold, fun hhas => hnot (hmono hhas)⟩, hnot⟩
        · exact ⟨.inr hnew, hnot⟩

/-- What is remembered belongs to clients that can be written, and no run of it starts beyond the
clocks that can be written. -/
theorem replay_names_spec {bs : List Bytes} (hbs : ∀ b ∈ bs, b.length ≤ maxSafeInteger) {c k : ℕ}
    (hx : (replay bs).pendingDeletes.Names ⟨c, k⟩) : c ≤ maxSafeInteger ∧
      ∀ i, k = i + 1 → maxSafeInteger < k → (replay bs).state c ≤ i →
        (replay bs).pendingDeletes.Names ⟨c, i⟩ := by
  obtain ⟨⟨b, hb, u, hu, hnames⟩, -⟩ := replay_names_iff.1 hx
  obtain ⟨⟨_, rs⟩, hp, rfl, r, hr, hlo, hhi⟩ := DeleteSet.names_iff.1 hnames
  have hsafe := (decodeUpdate_decoded (hbs b hb) hu).1.deletes.2 _ hp
  refine ⟨hsafe.1, fun i hi hlarge hstate => ?_⟩
  have hstart := (hsafe.2.2 r hr).1
  refine replay_names_iff.2 ⟨⟨b, hb, u, hu, DeleteSet.names_iff.2 ⟨_, hp, rfl, r, hr, ?_, ?_⟩⟩,
    Nat.not_lt.2 hstate⟩
  all_goals
    simp only at hlo hhi ⊢
    omega

end Doc

end YCollab.Crdt
