import YCollab.Crdt.Convergence
import YCollab.Crdt.Passed

/-!
# Replicas of a history

A replica is a document that was told units of a well-formed history, by whatever updates carried
them: those of the history itself, or what another replica passed on. `Replica` collects what holds
of such a document, `Replica.apply` says that applying an update whose items fit keeps it,
`Replica.pass` that what a replica passes on is such an update.

`Modest` are the limits that the updates of a history have to keep for all this: clocks below
`2 ^ 31`, and sizes that can be written.
-/

namespace YCollab.Crdt

open Lib0

/-- The updates of the history can be written, and so can what documents make of them. -/
structure Modest (hist : List Bytes) : Prop where
  length : ∀ b ∈ hist, b.length ≤ maxSafeInteger
  unit : ∀ x, HasUnit hist x → x.clock < maxLen
  named : ∀ x, NamedBy hist x → x.clock < maxLen
  clients : ∃ cs : List ℕ, cs.length ≤ maxSafeInteger ∧
    ∀ x, HasUnit hist x ∨ NamedBy hist x → x.client ∈ cs

theorem Modest.small {hist : List Bytes} (h : Modest hist) :
    Small fun x => HasUnit hist x ∨ NamedBy hist x where
  clock {x} hx := hx.elim (h.unit x) (h.named x)
  client {x} hx := by
    rcases hx with ⟨it, ⟨b, hb, u, hu, hit⟩, hx⟩ | ⟨b, hb, u, hu, hx⟩
    · rw [(Item.mem_units.1 hx).1]
      exact (Doc.allDecoded_of_decode (h.length b hb) hu _ hit).2
    · obtain ⟨p, hp, hc, -⟩ := DeleteSet.names_iff.1 hx
      have hsafe := (decodeUpdate_decoded (h.length b hb) hu).1.deletes.2 p hp
      rw [← hc]
      exact hsafe.1
  clients := h.clients

variable {H : Shape} {B T : ID → Prop} {d : Doc} {u : Update} {x : ID}

/-- The document was told the units `T` of a history; what it remembers to delete is in `B`. -/
structure Replica (H : Shape) (B T : ID → Prop) (d : Doc) : Prop where
  told : ∃ w, Told H T d w
  regular : d.Regular
  legible : d.Legible
  held : Doc.AllDecoded (heldStructs d.pending)
  small : ∀ x, d.pendingDeletes.Names x → B x

/-- The update carries units of a history, in items that fit, and names only what is in `B`. -/
structure Update.Good (u : Update) (H : Shape) (B : ID → Prop) : Prop where
  fits : u.FitsIn H
  decoded : Doc.AllDecoded u.structs
  small : ∀ x, u.deletes.Names x → B x

namespace Replica

theorem empty (H : Shape) (B : ID → Prop) : Replica H B (fun _ => False) Doc.empty where
  told := ⟨[], .empty H⟩
  regular := .empty
  legible := .empty
  held st hst := by cases hst
  small x hx := absurd hx DeleteSet.names_empty

/-- **Applying an update whose items fit** makes a replica that was told more. -/
theorem apply (h : Replica H B T d) (hH : H.Grounded) (hu : u.Good H B) :
    Replica H B (fun x => T x ∨ u.Units x) (d.applyDecodedUpdate u) := by
  obtain ⟨w, ht⟩ := h.told
  obtain ⟨w', ht', -⟩ := ht.apply hH hu.fits
  obtain ⟨hleg, hheld⟩ := Doc.legible_stable.apply h.legible h.regular h.held hu.decoded
  refine ⟨⟨w', ht'⟩, h.regular.apply u, hleg, hheld, fun x hx => ?_⟩
  rcases (h.regular.names_iff.1 hx).1 with hx | hx
  · exact h.small x hx
  · exact hu.small x hx

theorem receive (h : Replica H B T d) (hH : H.Grounded) {b : Bytes} (hb : decodeUpdate b = .ok u)
    (hu : u.Good H B) : Replica H B (fun x => T x ∨ u.Units x) (d.receive b) := by
  rw [Doc.receive_ok hb]
  exact h.apply hH hu

theorem has_iff (h : Replica H B T d) (hH : H.Grounded) :
    d.Has x ↔ H.mem x ∧ T x ∧ ∀ y, H.Past x y → T y := by
  obtain ⟨w, ht⟩ := h.told
  exact ht.has_iff hH h.regular.rest.settled

theorem has_of_told (h : Replica H B T d) (hp : d.pending = []) (hx : T x) : d.Has x := by
  obtain ⟨w, ht⟩ := h.told
  refine (ht.told hx).resolve_right ?_
  rintro ⟨it, hit, -⟩
  rw [hp] at hit
  cases hit

theorem not_low_state (h : Replica H B T d) (hH : H.Lawful) (c : ℕ) : ¬H.low ⟨c, d.state c⟩ := by
  obtain ⟨w, ht⟩ := h.told
  obtain ⟨ch, hr⟩ := ht.sound.rep
  intro hlow
  exact hr.not_low_state (hH.low_pos hlow) hlow

/-- **What a replica passes on** is good, and carries what it has and `sv` lacks. -/
theorem pass (h : Replica H B T d) (hH : H.Lawful) (hB : Small B) (hmem : ∀ x, H.mem x → B x)
    {sv : StateVector} (hsv : ∀ c, ¬H.low ⟨c, sv.get c⟩) :
    ∃ b u, d.encodeStateAsUpdate sv = .ok b ∧ decodeUpdate b = .ok u ∧ u.Good H B ∧
      u.deletes = d.deleteSetForUpdate ∧
      ∀ x, u.Units x ↔ d.Has x ∧ sv.get x.client ≤ x.clock := by
  obtain ⟨w, ht⟩ := h.told
  obtain ⟨ch, hr⟩ := ht.sound.rep
  have hhas : ∀ x, d.Has x → B x := fun x hx => hmem x (hr.causal.mem_of ((hr.mem x).2 hx))
  obtain ⟨b, u, hb, hu, hpass⟩ := ht.pass hH h.legible hB hhas h.small hsv
  refine ⟨b, u, hb, hu, ⟨hpass.fits, hpass.decoded, fun x hx => ?_⟩, hpass.deletes, hpass.units⟩
  rw [hpass.deletes, (Doc.deleteSetForUpdate_spec d).2] at hx
  exact hx.elim (fun hg => hhas x (hg.has h.regular.gapless)) (h.small x)

theorem stateVector (h : Replica H B T d) (hB : Small B) (hmem : ∀ x, H.mem x → B x) :
    ∃ b, d.encodeStateVector = .ok b ∧ decodeStateVector b = .ok d.stateVector := by
  obtain ⟨w, ht⟩ := h.told
  obtain ⟨ch, hr⟩ := ht.sound.rep
  have hg := h.regular.gapless
  have hB' : ∀ c, 0 < d.state c → B ⟨c, d.state c - 1⟩ := fun c hpos =>
    hmem _ (hr.causal.mem_of ((hr.mem ⟨c, d.state c - 1⟩).2
      (show d.state c - 1 < d.state c by omega)))
  have hsafe : StateVector.Safe d.stateVector := by
    obtain ⟨cs, hlen, hcs⟩ := hB.clients
    refine (Doc.stateVector_safe_iff hg fun c hpos => hB.client (hB' c hpos)).2
      ⟨fun c => ?_, cs, hlen, fun c hpos => hcs _ (hB' c hpos)⟩
    rcases Nat.eq_zero_or_pos (d.state c) with h0 | hpos
    · rw [h0]
      exact Nat.zero_le _
    · have hlt := hB.clock (hB' c hpos)
      have hmax := maxLen_le
      simp only at hlt
      omega
  exact ⟨_, encodeStateVector_eq hsafe, decodeStateVector_enc hsafe⟩

end Replica

/-! ### Updates of the history -/

section History

variable {hist : List Bytes}

theorem ShapeOf.good (hS : ShapeOf hist H) (h : WellFormed hist) (hm : Modest hist) {b : Bytes}
    (hb : b ∈ hist) :
    ∃ u, decodeUpdate b = .ok u ∧ u.Good H fun x => HasUnit hist x ∨ NamedBy hist x := by
  obtain ⟨u, hu, hfits⟩ := hS.fitsIn h hb
  exact ⟨u, hu, hfits, Doc.allDecoded_of_decode (hm.length b hb) hu,
    fun x hx => .inr ⟨b, hb, u, hu, hx⟩⟩

theorem Replica.replay (hS : ShapeOf hist H) (h : WellFormed hist) (hm : Modest hist)
    {bs : List Bytes} (hbs : ∀ b ∈ bs, b ∈ hist) :
    Replica H (fun x => HasUnit hist x ∨ NamedBy hist x) (CarriedBy bs) (Doc.replay bs) := by
  induction bs using List.reverseRecOn with
  | nil =>
    have hT : CarriedBy [] = fun _ => False := by
      funext x
      simp [CarriedBy]
    rw [hT]
    exact .empty ..
  | append_singleton bs b ih =>
    obtain ⟨u, hu, hgood⟩ := hS.good h hm (hbs b (by simp))
    rw [Doc.replay_snoc, carriedBy_snoc hu]
    exact (ih fun b' hb' => hbs b' (by simp [hb'])).receive hS.grounded hu hgood

end History

namespace Sample

theorem not_named (x : ID) : ¬NamedBy [ab, c] x := by
  rintro ⟨b, hb, u, hu, hx⟩
  rcases List.mem_pair.1 hb with rfl | rfl
  · obtain rfl := Except.ok.inj (decode_ab.symm.trans hu)
    exact DeleteSet.names_empty hx
  · obtain rfl := Except.ok.inj (decode_c.symm.trans hu)
    exact DeleteSet.names_empty hx

theorem modest : Modest [ab, c] where
  length := by decide
  unit x hx := by rcases hasUnit_iff.1 hx with rfl | rfl | rfl <;> decide
  named x hx := absurd hx (not_named x)
  clients := by
    refine ⟨[1, 2], by decide, fun x hx => ?_⟩
    rcases hasUnit_iff.1 (hx.resolve_right (not_named x)) with rfl | rfl | rfl <;> decide

end Sample

end YCollab.Crdt
