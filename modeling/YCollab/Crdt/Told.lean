import YCollab.Crdt.Decoded
import YCollab.Crdt.Reached
import YCollab.Crdt.Sound

/-!
# What a document has been told

A document that was told some units of a history, in any order, has integrated some of them and
holds the others back (`Told`). Applying an update tells it the units of the update (`Told.apply`),
and once it has come to rest it has integrated every unit whose whole past it has been told
(`Told.has_of_past`).

If no boundary of a delete set lies inside a surrogate pair, what is deleted can be said as well:
what was named and has been received, what was written as deleted, what is overwritten in a map,
and nothing else but what hangs under something deleted (`Named`).
-/

namespace YCollab.Crdt

open Yata Yata.Ops

variable {H : Shape} {d d' : Doc} {w : List ID} {it : Item} {x : ID} {u : Update}
  {T N : ID → Prop} {l : List Struct}

/-- The update carries units of the history, in items that fit, one block for each client. -/
structure Update.FitsIn (u : Update) (H : Shape) : Prop where
  neat : u.Neat
  items : ∀ st ∈ u.structs, ∃ it, st = .item it ∧ H.FitsWire it
  contig : ∀ b ∈ u.clients, IsContig b.client b.structs

/-- The units the update carries. -/
def Update.Units (u : Update) (x : ID) : Prop := ∃ it, .item it ∈ u.structs ∧ x ∈ it.units

/-- The document represents `w`, and has been told `T`: what it has not integrated is held back. -/
structure Told (H : Shape) (T : ID → Prop) (d : Doc) (w : List ID) : Prop where
  sound : Sound H d w
  has : ∀ {x}, d.Has x → T x
  items : ∀ st ∈ heldStructs d.pending, ∃ it, st = .item it ∧ H.FitsWire it ∧ ∀ x ∈ it.units, T x
  told : ∀ {x}, T x → d.Has x ∨ ∃ it, .item it ∈ heldStructs d.pending ∧ x ∈ it.units
  kept : ∀ u ∈ d.pending, u.Kept
  contig : Doc.AllBlocks IsContig d.pending
  built : d.pendingDeletes.Built

/-! ### Turns -/

/-- The turns of structs of the history keep a document sound, and add their units. -/
theorem Sound.turns (h : Sound H d w) (hH : H.Grounded) (ht : Doc.Turns d l d')
    (hl : ∀ st ∈ l, ∃ it, st = .item it ∧ H.FitsWire it) :
    ∃ w', Sound H d' w' ∧ (∀ x, d'.Has x ↔ d.Has x ∨ ∃ it, .item it ∈ l ∧ x ∈ it.units) ∧
      (∀ N, Explained H N d w → Explained H N d' w') ∧
      (∀ x, d.Gone x → d'.Gone x) ∧ d'.pendingDeletes = d.pendingDeletes := by
  induction ht with
  | nil => exact ⟨w, h, by simp, fun _ he => he, fun _ hx => hx, rfl⟩
  | @step l st d₁ d₂ _ hst ih =>
    obtain ⟨w₁, h₁, hhas₁, he₁, hg₁, hp₁⟩ := ih fun st hm => hl st (List.mem_append_left _ hm)
    obtain ⟨it, rfl, hf⟩ := hl st (by simp)
    obtain ⟨w₂, h₂, hhas₂, hg₂, he₂⟩ := h₁.turn hH hf hst
    have hturn := Doc.turn_of_integrateHead h₁.gapless hst
    refine ⟨w₂, h₂, fun x => ?_, fun N he => he₂ N (he₁ N he), fun x hx => hg₂ x (hg₁ x hx),
      hturn.pendingDeletes.trans hp₁⟩
    rw [hhas₂, hhas₁, or_assoc]
    refine or_congr_right ?_
    simp only [List.mem_append, List.mem_singleton, Struct.item.injEq, or_and_right, exists_or,
      exists_eq_left]
  | hold p _ ih =>
    obtain ⟨w₁, h₁, hhas₁, he₁, hg₁, hp₁⟩ := ih hl
    obtain ⟨⟨ch, hr⟩, hc, he⟩ := h₁
    exact ⟨w₁, ⟨⟨ch, hr.congr rfl rfl rfl rfl rfl⟩, hc, he⟩, hhas₁, he₁, hg₁, hp₁⟩

namespace Told

theorem sound_edits (h : Told H T d w) (hH : H.Lawful) (he : Doc.Edits d d')
    (hb : d'.pendingDeletes.Built) : Told H T d' w := by
  have hm := he.marks h.sound.gapless
  have hhas : ∀ {x}, d'.Has x ↔ d.Has x := fun {x} => by
    unfold Doc.Has
    rw [hm.state]
  refine ⟨h.sound.edits hH he, fun hx => h.has (hhas.1 hx), ?_, fun hx => ?_, ?_, ?_, hb⟩
  · rw [hm.pending]
    exact h.items
  · rw [hm.pending, hhas]
    exact h.told hx
  · rw [hm.pending]
    exact h.kept
  · rw [hm.pending]
    exact h.contig

/-- Turns tell the document the structs that were not held back before. -/
theorem turns (h : Told H T d w) (hH : H.Grounded) (ht : Doc.Turns d l d') (new : List Struct)
    (hnew : ∀ st ∈ new, ∃ it, st = .item it ∧ H.FitsWire it)
    (hmem : ∀ st, st ∈ heldStructs d.pending ∨ st ∈ new ↔
      st ∈ l ∨ st ∈ heldStructs d'.pending)
    (hkept : ∀ u ∈ d'.pending, u.Kept) (hcontig : Doc.AllBlocks IsContig d'.pending) :
    ∃ w', Told H (fun x => T x ∨ ∃ it, .item it ∈ new ∧ x ∈ it.units) d' w' ∧
      (∀ N, Explained H N d w → Explained H N d' w') ∧ (∀ x, d.Gone x → d'.Gone x) ∧
      d'.pendingDeletes = d.pendingDeletes := by
  have hitem : ∀ st, st ∈ l ∨ st ∈ heldStructs d'.pending → ∃ it, st = .item it ∧ H.FitsWire it ∧
      ∀ x ∈ it.units, T x ∨ ∃ it, .item it ∈ new ∧ x ∈ it.units := fun st hst => by
    rcases (hmem st).2 hst with hst | hst
    · obtain ⟨it, rfl, hf, hT⟩ := h.items st hst
      exact ⟨it, rfl, hf, fun x hx => .inl (hT x hx)⟩
    · obtain ⟨it, rfl, hf⟩ := hnew st hst
      exact ⟨it, rfl, hf, fun x hx => .inr ⟨it, hst, hx⟩⟩
  obtain ⟨w', hs, hhas, he, hg, hp⟩ := h.sound.turns hH ht fun st hst => by
    obtain ⟨it, heq, hf, -⟩ := hitem st (.inl hst)
    exact ⟨it, heq, hf⟩
  refine ⟨w', ⟨hs, fun {x} hx => ?_, fun st hst => hitem st (.inr hst), fun {x} hx => ?_, hkept,
    hcontig, hp ▸ h.built⟩, he, hg, hp⟩
  · rcases (hhas x).1 hx with hx | ⟨it, hit, hx⟩
    · exact .inl (h.has hx)
    · obtain ⟨it', heq, -, hT⟩ := hitem _ (.inl hit)
      obtain rfl := Struct.item.inj heq
      exact hT x hx
  · have hcases : d.Has x ∨ ∃ it, (.item it ∈ heldStructs d.pending ∨ .item it ∈ new) ∧
        x ∈ it.units := by
      rcases hx with hx | ⟨it, hit, hx⟩
      · exact (h.told hx).imp_right (Exists.imp fun _ h => ⟨.inl h.1, h.2⟩)
      · exact .inr ⟨it, .inr hit, hx⟩
    rcases hcases with hx | ⟨it, hit, hx⟩
    · exact .inl ((hhas x).2 (.inl hx))
    · rcases (hmem _).1 hit with hit | hit
      · exact .inl ((hhas x).2 (.inr ⟨it, hit, hx⟩))
      · exact .inr ⟨it, hit, hx⟩

theorem integrate (h : Told H T d w) (hH : H.Grounded) (hu : u.FitsIn H) :
    ∃ w', Told H (fun x => T x ∨ u.Units x) (d.integrate u) w' ∧
      (∀ N, Explained H N d w → Explained H N (d.integrate u) w') ∧
      (∀ x, d.Gone x → (d.integrate u).Gone x) ∧
      (d.integrate u).pendingDeletes = d.pendingDeletes := by
  obtain ⟨l, hran⟩ := Doc.ran_integrate h.sound.gapless u
  have hus : heldStructs [u] = u.structs := by simp [heldStructs]
  refine h.turns hH hran.turns u.structs hu.items (fun st => hus ▸ hran.mem st)
    (hran.kept h.kept) ?_
  refine hran.blocks IsContig IsContig.suffix (by simpa using hu.neat) ?_ h.contig
  simpa [Doc.AllBlocks] using hu.contig

theorem retry (h : Told H T d w) (hH : H.Grounded) {fuel : ℕ}
    (hfuel : Doc.structCount d.pending < fuel) :
    ∃ w', Told H T (Doc.retryLoop fuel d) w' ∧ (Doc.retryLoop fuel d).Settled ∧
      (∀ N, Explained H N d w → Explained H N (Doc.retryLoop fuel d) w') ∧
      (∀ x, d.Gone x → (Doc.retryLoop fuel d).Gone x) ∧
      (Doc.retryLoop fuel d).pendingDeletes = d.pendingDeletes := by
  obtain ⟨l, ht, hset, hmem, hkept, hK⟩ :=
    Doc.retryLoop_spec fuel h.sound.gapless h.kept hfuel
  obtain ⟨w', h', he⟩ := h.turns hH ht [] (by simp) (by simpa using hmem) hkept
    (hK IsContig IsContig.suffix h.contig)
  exact ⟨w', by simpa using h', hset, he⟩

end Told

/-! ### Deletions -/

/-- The set does not cut a surrogate pair of the history. -/
def Paired (H : Shape) (P : ID → Prop) : Prop := ∀ x, H.low x.next → (P x ↔ P x.next)

/-- No boundary of a range lies inside a pair of the history. -/
def DeleteSet.CleanIn (ds : DeleteSet) (H : Shape) : Prop :=
  ∀ p ∈ ds.entries, ∀ r ∈ p.2, ¬H.low ⟨p.1, r.clock⟩ ∧ ¬H.low ⟨p.1, r.endClock⟩

variable {ds : DeleteSet}

theorem DeleteSet.CleanIn.paired (h : ds.CleanIn H) : Paired H ds.Names := by
  intro x hlow
  rw [DeleteSet.names_iff, DeleteSet.names_iff]
  constructor
  · rintro ⟨p, hp, hc, r, hr, h1, h2⟩
    refine ⟨p, hp, hc, r, hr, by simp only [ID.next]; omega, ?_⟩
    refine lt_of_le_of_ne h2 fun heq => (h p hp r hr).2 ?_
    rw [hc, ← heq]
    exact hlow
  · rintro ⟨p, hp, hc, r, hr, h1, h2⟩
    simp only [ID.next] at h1 h2
    refine ⟨p, hp, hc, r, hr, ?_, by omega⟩
    rcases Nat.lt_or_eq_of_le h1 with hlt | heq
    · omega
    · refine absurd ?_ (h p hp r hr).1
      rw [hc, heq]
      exact hlow

theorem Paired.cleanIn (h : Paired H ds.Names) (hH : H.Lawful) (hb : ds.Built) : ds.CleanIn H := by
  rintro ⟨c, rs⟩ hp r hr
  have hf : ds.find? c = some rs := SortedMap.find?_eq_some.2 hp
  have hcan := (hb c rs hf).2
  have hranges : ds.ranges c = rs := by simp [DeleteSet.ranges, hf]
  have hnames : ∀ k, ds.Names ⟨c, k⟩ ↔ Covers rs k := fun k => by
    simp only [DeleteSet.Names, hranges]
  obtain ⟨hend, hstart⟩ := hcan.not_covers hr
  have hpos := hcan.pos r hr
  have hpair : ∀ {n}, H.low ⟨c, n⟩ → ∃ k, n = k + 1 ∧ (Covers rs k ↔ Covers rs n) := fun hlow => by
    obtain ⟨k, rfl⟩ := Nat.exists_eq_succ_of_ne_zero (Nat.ne_of_gt (hH.low_pos hlow))
    have := h ⟨c, k⟩ hlow
    rw [hnames, ID.next, hnames] at this
    exact ⟨k, rfl, this⟩
  constructor
  · intro hlow
    obtain ⟨k, hk, hcov⟩ := hpair hlow
    refine hstart k hk (hcov.2 ⟨r, hr, le_rfl, ?_⟩)
    simp only [DeleteRange.endClock]
    omega
  · intro hlow
    obtain ⟨k, hk, hcov⟩ := hpair hlow
    refine hend (hcov.1 ⟨r, hr, ?_, by omega⟩)
    unfold DeleteRange.endClock at hk
    omega

namespace Sound

theorem low_of_lowAt (h : Sound H d w) (hx : d.LowAt x) : H.low x := by
  obtain ⟨ch, hr⟩ := h.rep
  obtain ⟨it, hst, hm, hlow⟩ := hx
  obtain ⟨hc, hlo, hhi⟩ := Item.mem_units.1 hm
  have hunit : it.unit (x.clock - it.id.clock) = x :=
    ID.ext hc.symm (by simp only [Item.unit]; omega)
  have := ((hr.fits hst).low (x.clock - it.id.clock) (by omega)).2 hlow
  rwa [hunit] at this

theorem has_paired (h : Sound H d w) : Paired H d.Has := by
  intro x hlow
  obtain ⟨ch, hr⟩ := h.rep
  unfold Doc.Has ID.next
  simp only
  refine ⟨fun hx => ?_, fun hx => by omega⟩
  refine lt_of_le_of_ne hx fun heq => ?_
  refine hr.not_low_state (c := x.client) (by omega) ?_
  rw [← heq]
  exact hlow

theorem cleanRange (h : Sound H d w) (hc : ds.CleanIn H) :
    ∀ p ∈ ds.entries, ∀ r ∈ p.2, d.CleanRange p.1 r := fun p hp r hr =>
  ⟨fun hl => (hc p hp r hr).1 (h.low_of_lowAt hl), fun hl => (hc p hp r hr).2 (h.low_of_lowAt hl)⟩

end Sound

/-- The units `N` were named for deletion: they are deleted or remembered, and everything that is
deleted is so for a reason. -/
structure Named (H : Shape) (N : ID → Prop) (d : Doc) (w : List ID) : Prop where
  explained : Explained H N d w
  named : ∀ {x}, N x → d.Gone x ∨ d.pendingDeletes.Names x
  held : ∀ {x}, d.pendingDeletes.Names x → N x
  paired : Paired H d.pendingDeletes.Names

theorem Told.delete (h : Told H T d w) (hH : H.Lawful) (ds : DeleteSet) :
    Told H T (d.applyDeleteSet ds) w ∧
      ∀ N, ds.CleanIn H → Named H N d w →
        Named H (fun x => N x ∨ ds.Names x) (d.applyDeleteSet ds) w := by
  have hg := h.sound.gapless
  have hheld := Doc.applyDeleteSet_held hg h.built ds
  have hm := hheld.edits.marks hg
  refine ⟨h.sound_edits hH hheld.edits hheld.built, fun N hclean hN => ?_⟩
  have hgone := Doc.applyDeleteSet_gone hg (h.sound.cleanRange hclean)
  refine ⟨fun x hx => ?_, fun {x} hx => ?_, fun {x} hx => ?_, fun x hlow => ?_⟩
  · rcases (hgone x).1 hx with hx | ⟨hx, -⟩
    · rcases hN.explained x hx with hx | hx | hx | ⟨o, ho, hx⟩
      · exact .inl (.inl hx)
      · exact .inr (.inl hx)
      · exact .inr (.inr (.inl hx))
      · exact .inr (.inr (.inr ⟨o, ho, hm.gone o hx⟩))
    · exact .inl (.inr hx)
  · rw [hgone, hheld.names]
    rcases hx with hx | hx
    · exact (hN.named hx).imp .inl .inl
    · by_cases hhas : d.Has x
      · exact .inl (.inr ⟨hx, hhas⟩)
      · exact .inr (.inr ⟨hx, hhas⟩)
  · exact ((hheld.names x).1 hx).imp hN.held And.left
  · rw [hheld.names, hheld.names, hN.paired x hlow, hclean.paired x hlow,
      h.sound.has_paired x hlow]

/-- What was remembered is applied to what has been received meanwhile. -/
theorem Told.flush (h : Told H T d w) (hH : H.Lawful) (hs : d.Settled) :
    Told H T ({ d with pendingDeletes := SortedMap.empty }.applyDeleteSet d.pendingDeletes) w ∧
      ({ d with pendingDeletes := SortedMap.empty }.applyDeleteSet d.pendingDeletes).Rest ∧
      (∀ x, d.Gone x →
        ({ d with pendingDeletes := SortedMap.empty }.applyDeleteSet d.pendingDeletes).Gone x) ∧
      ∀ N, Named H N d w → Named H N
        ({ d with pendingDeletes := SortedMap.empty }.applyDeleteSet d.pendingDeletes) w := by
  set d₀ : Doc := { d with pendingDeletes := SortedMap.empty }
  have h₀ : Told H T d₀ w := h.sound_edits hH (Doc.Edits.refl.held _) .empty
  have hg := h₀.sound.gapless
  have hheld := Doc.applyDeleteSet_held hg h₀.built d.pendingDeletes
  have hm := hheld.edits.marks hg
  obtain ⟨htold, hnamed⟩ := h₀.delete hH d.pendingDeletes
  refine ⟨htold, ⟨hm.settled hs, fun {x} hx => ?_⟩, hm.gone, fun N hN => ?_⟩
  · unfold Doc.Has
    rw [hm.state]
    exact (((hheld.names x).1 hx).resolve_left DeleteSet.names_empty).2
  · -- without what it remembers, the document was told to delete what is deleted
    have hN₀ : Named H (fun x => N x ∧ d.Gone x) d₀ w :=
      ⟨fun x hx => (hN.explained x hx).imp_left (⟨·, hx⟩), fun hx => .inl hx.2,
        fun hx => absurd hx DeleteSet.names_empty, fun x _ => by simp [d₀]⟩
    have hiff : ∀ x, N x ∧ d.Gone x ∨ d.pendingDeletes.Names x ↔ N x := fun x =>
      ⟨fun h => h.elim And.left hN.held, fun hx => (hN.named hx).imp_left (⟨hx, ·⟩)⟩
    simpa only [hiff] using hnamed _ (hN.paired.cleanIn hH h.built) hN₀

theorem Named.turns {d' : Doc} {w' : List ID} (h : Named H N d w) (he : Explained H N d' w')
    (hg : ∀ x, d.Gone x → d'.Gone x) (hp : d'.pendingDeletes = d.pendingDeletes) :
    Named H N d' w' where
  explained := he
  named hx := by
    rw [hp]
    exact (h.named hx).imp_left (hg _)
  held := by
    rw [hp]
    exact h.held
  paired := by
    rw [hp]
    exact h.paired

/-- **Applying an update tells the document its units and names what its delete set does**, and
leaves it at rest. -/
theorem Told.apply (h : Told H T d w) (hH : H.Grounded) (hu : u.FitsIn H) :
    ∃ w', Told H (fun x => T x ∨ u.Units x) (d.applyDecodedUpdate u) w' ∧
      (d.applyDecodedUpdate u).Rest ∧ (∀ x, d.Gone x → (d.applyDecodedUpdate u).Gone x) ∧
      ∀ N, u.deletes.CleanIn H → Named H N d w →
        Named H (fun x => N x ∨ u.deletes.Names x) (d.applyDecodedUpdate u) w' := by
  have hL := hH.toLawful
  obtain ⟨w₁, h₁, he₁, hg₁, hp₁⟩ := h.integrate hH hu
  set d₁ := d.integrate u
  obtain ⟨h₂, hn₂⟩ := h₁.delete hL u.deletes
  have hg₂ := ((Doc.applyDeleteSet_held h₁.sound.gapless h₁.built u.deletes).edits.marks
    h₁.sound.gapless).gone
  set d₂ := d₁.applyDeleteSet u.deletes with hd₂
  obtain ⟨w₃, h₃, hs₃, he₃, hg₃, hp₃⟩ := h₂.retry hH (Nat.lt_succ_self _)
  set d₃ := Doc.retryLoop (Doc.structCount d₂.pending + 1) d₂ with hd₃
  have hgone₃ : ∀ x, d.Gone x → d₃.Gone x := fun x hx => hg₃ x (hg₂ x (hg₁ x hx))
  have hnamed₃ : ∀ N, u.deletes.CleanIn H → Named H N d w →
      Named H (fun x => N x ∨ u.deletes.Names x) d₃ w₃ := fun N hc hN => by
    have hN₂ := hn₂ N hc (hN.turns (he₁ N hN.explained) hg₁ hp₁)
    exact hN₂.turns (he₃ _ hN₂.explained) hg₃ hp₃
  have heq : d.applyDecodedUpdate u =
      if DeleteSet.isEmpty d₃.pendingDeletes then d₃
      else { d₃ with pendingDeletes := SortedMap.empty }.applyDeleteSet d₃.pendingDeletes := rfl
  refine ⟨w₃, ?_⟩
  rw [heq]
  split
  next hemp =>
    refine ⟨h₃, ⟨hs₃, fun {x} hx => ?_⟩, hgone₃, hnamed₃⟩
    rw [h₃.built.isEmpty hemp] at hx
    exact absurd hx DeleteSet.names_empty
  next =>
    obtain ⟨h₄, hr, hg₄, hn₄⟩ := h₃.flush hL hs₃
    exact ⟨h₄, hr, fun x hx => hg₄ x (hgone₃ x hx), fun N hc hN => hn₄ _ (hnamed₃ N hc hN)⟩

/-! ### Nothing is held back longer than it has to be -/

namespace Told

/-- A unit that could be integrated is not held back. -/
theorem has_of_deps (h : Told H T d w) (hs : d.Settled) (hTx : T x)
    (hpast : ∀ y, H.Past x y → d.Has y) : d.Has x := by
  by_contra hnot
  have hstate : d.state x.client = x.clock := by
    refine le_antisymm (Nat.le_of_not_lt hnot) ?_
    by_contra hlt
    exact lt_irrefl _ (hpast ⟨x.client, d.state x.client⟩ (Shape.past_of_lt (Nat.lt_of_not_le hlt)))
  obtain ⟨it, hit, hx⟩ := (h.told hTx).resolve_left hnot
  obtain ⟨u, hu, hit⟩ := mem_heldStructs.1 hit
  obtain ⟨b, hb, hit⟩ := Update.mem_structs.1 hit
  obtain ⟨k, hcontig⟩ := h.contig u hu b hb
  have hwait := hs u hu b hb
  have hitem := fun st (hst : st ∈ b.structs) =>
    h.items st (mem_heldStructs.2 ⟨u, hu, Update.mem_structs.2 ⟨b, hb, hst⟩⟩)
  cases hbs : b.structs with
  | nil =>
    rw [hbs] at hit
    cases hit
  | cons st l =>
    rw [hbs] at hit hcontig hwait hitem
    obtain ⟨hc, hlo, hhi⟩ := Item.mem_units.1 hx
    obtain ⟨it₀, rfl, hf, -⟩ := hitem st (by simp)
    obtain ⟨hcl, -, hcase⟩ := hcontig.mem hit
    have hcl' : it.id.client = it₀.id.client := hcl.trans (congrArg ID.client hcontig.1).symm
    have hk : it₀.id.clock = k := congrArg ID.clock hcontig.1
    have hle := (hcontig.mem hit).2.1
    have hblocked := hwait (.item it₀) (by simp)
    simp only [Doc.Blocked, ← hcl', ← hc, hstate] at hblocked
    simp only [Struct.id_item, Struct.len_item] at hle hcase
    rcases hblocked with hlt | ⟨hlt, hknown⟩
    · omega
    · -- the head of the block is the item that carries `x`, and all it refers to is there
      obtain rfl : it = it₀ := Struct.item.inj (hcase.resolve_right (by omega))
      refine hknown ?_
      have hpos : 0 < it.len := by omega
      have hdep : ∀ y, H.Dep it.id y → d.Has y := fun y hy => by
        refine hpast y ?_
        rcases hlo.lt_or_eq with hlt | heq
        · have hp : H.Past ⟨it.id.client, x.clock⟩ ⟨it.id.client, it.id.clock⟩ :=
            Shape.past_of_lt hlt
          rw [← hc] at hp
          refine hp.tail ?_
          rw [hc]
          exact hy
        · obtain rfl : it.id = x := ID.ext hc.symm heq
          exact .single hy
      have hmissing : ∀ o : Option ID, (∀ y, o = some y → H.Dep it.id y) →
          d.missing it.id o = false := fun o ho => by
        cases o with
        | none => rfl
        | some y =>
          have := hdep y (ho y rfl)
          unfold Doc.Has at this
          simp [Doc.missing, this]
      refine ⟨hmissing _ fun y hy => .origin ((hf.origin hpos).trans hy),
        hmissing _ fun y hy => .right ((hf.right 0 hpos).trans hy), hmissing _ fun y hy => ?_⟩
      unfold Doc.ownerID at hy
      split at hy
      next o hw =>
        cases hy
        refine .owner ?_
        rw [hf.parent _ hw hpos]
        rfl
      next => cases hy

/-- **A document at rest has integrated every unit whose whole past it has been told.** -/
theorem has_of_past (h : Told H T d w) (hH : H.Lawful) (hs : d.Settled) (hx : H.mem x) (hTx : T x)
    (hpast : ∀ y, H.Past x y → T y) : d.Has x := by
  obtain ⟨time, htime⟩ := hH.wf
  induction hn : time x using Nat.strong_induction_on generalizing x with
  | _ n ih =>
    refine h.has_of_deps hs hTx fun y hy => ?_
    have hlt : time y < n := hn ▸ hH.time_lt htime hx hy
    exact ih (time y) hlt (hH.closed hx hy) (hpast y hy) (fun z hz => hpast z (hy.trans hz)) rfl

theorem pending_eq_nil (h : Told H T d w) (hs : d.Settled) (hall : ∀ x, H.mem x → d.Has x) :
    d.pending = [] := by
  refine List.eq_nil_iff_forall_not_mem.2 fun u hu => ?_
  have hk := h.kept u hu
  obtain ⟨b, hb⟩ := List.exists_mem_of_ne_nil _ hk.ne_nil
  obtain ⟨st, l, hbs⟩ := List.exists_cons_of_ne_nil (hk.structs b hb)
  have hst : st ∈ b.structs := by simp [hbs]
  obtain ⟨it, rfl, hf, -⟩ := h.items st (mem_heldStructs.2 ⟨u, hu, Update.mem_structs.2 ⟨b, hb, hst⟩⟩)
  rcases hs u hu b hb _ (by rw [hbs]; rfl) with hlt | ⟨hlt, -⟩
  · exact lt_irrefl _ (hall _ (hf.before _ hlt))
  · -- the last unit of the item is a unit of the history
    by_cases hle : it.id.clock ≤ d.state it.id.client
    · have := hall _ (hf.mem (d.state it.id.client - it.id.clock) (by omega))
      simp only [Doc.Has, Item.unit] at this
      omega
    · exact lt_irrefl _ (hall _ (hf.before _ (Nat.lt_of_not_le hle)))

end Told

end YCollab.Crdt
