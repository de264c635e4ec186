import YCollab.Crdt.Authors

/-!
# Convergence

Two documents that received the updates of one well-formed history, in whatever order and however
often, have the same state vector, hold nothing back and show the same lists
(`replay_convergent`). Until everything has arrived, a document has exactly the units whose past
has arrived (`Told.has_iff`).
-/

namespace YCollab.Crdt

open Lib0 Yata Yata.Ops

variable {hist bs bs₁ bs₂ : List Bytes} {H : Shape} {d₁ d₂ : Doc} {w₁ w₂ : List ID} {x : ID}

theorem Rep.listUnits_congr {ch₁ ch₂ : ListID → List Item} (hH : H.Grounded)
    (h₁ : Rep H d₁ w₁ ch₁) (h₂ : Rep H d₂ w₂ ch₂) (hhas : ∀ x, d₁.Has x ↔ d₂.Has x) (l : ListID) :
    d₁.listUnits l = d₂.listUnits l := by
  rw [h₁.listUnits_eq, h₂.listUnits_eq]
  congr 1
  refine insertAll_eq (hH.ops l) (h₂.causal_list l) (h₁.causal_list l) (fun x hx => ?_) fun x => ?_
  · obtain ⟨hm, rfl⟩ := (h₂.causal_list l).mem_of hx
    exact hH.anchored hm
  · rw [List.mem_filter, List.mem_filter, h₁.mem, h₂.mem, hhas]

theorem Doc.state_of_has (h : ∀ x, d₁.Has x ↔ d₂.Has x) (c : ℕ) : d₁.state c = d₂.state c := by
  rcases Nat.lt_trichotomy (d₁.state c) (d₂.state c) with hlt | heq | hlt
  · exact absurd ((h ⟨c, d₁.state c⟩).2 hlt) (lt_irrefl _)
  · exact heq
  · exact absurd ((h ⟨c, d₂.state c⟩).1 hlt) (lt_irrefl _)

theorem Rep.stateVector_congr {ch₁ ch₂ : ListID → List Item} (h₁ : Rep H d₁ w₁ ch₁)
    (h₂ : Rep H d₂ w₂ ch₂) (hhas : ∀ x, d₁.Has x ↔ d₂.Has x) : d₁.stateVector = d₂.stateVector :=
  h₁.gapless.stateVector_eq h₂.gapless (Doc.state_of_has hhas)

/-- **What a document has.**  It has the units that arrived together with everything they depend
on. -/
theorem Told.has_iff {T : ID → Prop} (h : Told H T d₁ w₁) (hH : H.Grounded) (hs : d₁.Settled) :
    d₁.Has x ↔ H.mem x ∧ T x ∧ ∀ y, H.Past x y → T y := by
  obtain ⟨ch, hr⟩ := h.sound.rep
  constructor
  · intro hx
    have hw := (hr.mem x).2 hx
    have hm := hr.causal.mem_of hw
    exact ⟨hm, h.has hx, fun y hy => h.has ((hr.mem y).1 (hr.causal.closed hw
      (hH.closed hm hy) hy))⟩
  · exact fun ⟨hm, hx, hpast⟩ => h.has_of_past hH.toLawful hs hm hx hpast

theorem ShapeOf.complete (hS : ShapeOf hist H) (h : WellFormed hist)
    (hbs : ∀ b, b ∈ bs ↔ b ∈ hist) :
    ∃ w, Told H (CarriedBy bs) (Doc.replay bs) w ∧ (Doc.replay bs).pending = [] ∧
      ∀ x, (Doc.replay bs).Has x ↔ HasUnit hist x := by
  obtain ⟨w, ht, hr, -⟩ := Told.replay hS.grounded fun b hb => hS.fitsIn h ((hbs b).1 hb)
  have hcarried : ∀ x, HasUnit hist x → CarriedBy bs x := by
    rintro x ⟨it, ⟨b, hb, u, hu, hit⟩, hx⟩
    exact ⟨b, (hbs b).2 hb, u, hu, it, hit, hx⟩
  have hhas : ∀ x, (Doc.replay bs).Has x ↔ HasUnit hist x := by
    intro x
    rw [ht.has_iff hS.grounded hr.settled, hS.mem]
    refine ⟨fun hx => hx.1, fun hx => ⟨hx, hcarried x hx, fun y hy => hcarried y ?_⟩⟩
    exact hS.mem.1 (hS.grounded.closed (hS.mem.2 hx) hy)
  exact ⟨w, ht, ht.pending_eq_nil hr.settled fun x hx => (hhas x).2 (hS.mem.1 hx), hhas⟩

/-- **Convergence.**  The updates of a well-formed history, applied in any two orders and with any
repetitions, leave nothing held back, equal state vectors, and the same order of units in every
list of every type. -/
theorem replay_convergent (h : WellFormed hist) (h₁ : ∀ b, b ∈ bs₁ ↔ b ∈ hist)
    (h₂ : ∀ b, b ∈ bs₂ ↔ b ∈ hist) :
    (Doc.replay bs₁).pending = [] ∧ (Doc.replay bs₂).pending = [] ∧
      (Doc.replay bs₁).stateVector = (Doc.replay bs₂).stateVector ∧
      ∀ l, ∃ units, (Doc.replay bs₁).listUnits l = some units ∧
        (Doc.replay bs₂).listUnits l = some units := by
  obtain ⟨H, hS⟩ := h.exists_shape
  obtain ⟨w₁, ht₁, hp₁, hhas₁⟩ := hS.complete h h₁
  obtain ⟨w₂, ht₂, hp₂, hhas₂⟩ := hS.complete h h₂
  obtain ⟨ch₁, hr₁⟩ := ht₁.sound.rep
  obtain ⟨ch₂, hr₂⟩ := ht₂.sound.rep
  have hhas : ∀ x, (Doc.replay bs₁).Has x ↔ (Doc.replay bs₂).Has x := fun x => by
    rw [hhas₁, hhas₂]
  refine ⟨hp₁, hp₂, hr₁.stateVector_congr hr₂ hhas, fun l => ⟨_, hr₁.listUnits_eq l, ?_⟩⟩
  rw [← hr₁.listUnits_congr hS.grounded hr₂ hhas]
  exact hr₁.listUnits_eq l

/-! ### Two clients that type at the same place -/

namespace Sample

/-- Client 1 types `ab` into the root type `t`. -/
def ab : Bytes := [1, 1, 1, 0, 4, 1, 1, 116, 2, 97, 98, 0]

/-- Client 2 types `c` into it without having seen that. -/
def c : Bytes := [1, 1, 2, 0, 4, 1, 1, 116, 1, 99, 0]

/-- What `ab` carries. -/
def itemAB : Item := ⟨⟨1, 0⟩, none, none, some (.root [116]), false, [], .string [97, 98], none⟩

/-- What `c` carries. -/
def itemC : Item := ⟨⟨2, 0⟩, none, none, some (.root [116]), false, [], .string [99], none⟩

theorem decode_ab : decodeUpdate ab = .ok ⟨[⟨1, 0, [.item itemAB]⟩], SortedMap.empty⟩ := rfl

theorem decode_c : decodeUpdate c = .ok ⟨[⟨2, 0, [.item itemC]⟩], SortedMap.empty⟩ := rfl

theorem carries_iff {it : Item} : Carries [ab, c] it ↔ it = itemAB ∨ it = itemC := by
  simp [Carries, decode_ab, decode_c, Update.structs]

theorem hasUnit_iff : HasUnit [ab, c] x ↔ x = ⟨1, 0⟩ ∨ x = ⟨1, 1⟩ ∨ x = ⟨2, 0⟩ := by
  have hAB : itemAB.units = [⟨1, 0⟩, ⟨1, 1⟩] := by decide
  have hC : itemC.units = [⟨2, 0⟩] := by decide
  simp [HasUnit, carries_iff, or_and_right, exists_or, hAB, hC, or_assoc]

theorem authored {it : Item} (hit : it = itemAB ∨ it = itemC) :
    Authored [ab, c] ID.clock it [] where
  earlier := by simp
  own := by rcases hit with rfl | rfl <;> rfl
  place := by
    refine ⟨⟨.root [116], none⟩, [], rfl, ⟨[], [], rfl, ?_, ?_⟩, ?_, by simp⟩
    all_goals rcases hit with rfl | rfl <;> simp [itemAB, itemC, Item.wireList, ParentInfo.typeID,
      Item.key]
  parent := by rcases hit with rfl | rfl <;> simp [itemAB, itemC]

theorem wellFormed : WellFormed [ab, c] where
  decodes b hb := by
    rcases List.mem_pair.1 hb with rfl | rfl
    · exact ⟨_, decode_ab, by simp [Update.Plain, Update.Neat, Update.structs]⟩
    · exact ⟨_, decode_c, by simp [Update.Plain, Update.Neat, Update.structs]⟩
  gapless it hit k hk := by
    rw [hasUnit_iff]
    rcases carries_iff.1 hit with rfl | rfl
    · have : k < 0 + 2 := hk
      obtain rfl | rfl : k = 0 ∨ k = 1 := by omega
      all_goals simp [itemAB]
    · have : k < 0 + 1 := hk
      obtain rfl : k = 0 := by omega
      simp [itemC]
  agree it it' hit hit' i hi j hj hij := by
    have hcl : it.id.client = it'.id.client := by
      have : (it.unit i).client = (it'.unit j).client := by rw [hij]
      exact this
    obtain rfl : it = it' := by
      rcases carries_iff.1 hit with rfl | rfl <;> rcases carries_iff.1 hit' with rfl | rfl
      all_goals first | rfl | simp [itemAB, itemC] at hcl
    obtain rfl : i = j := by simpa [Item.unit] using hij
    exact ⟨rfl, rfl, rfl, rfl⟩
  boundary it hit _ := by rcases carries_iff.1 hit with rfl | rfl <;> simp [itemAB, itemC]
  authored := ⟨ID.clock, fun x _ => by simp [ID.next], fun it hit _ => ⟨[], authored (carries_iff.1 hit)⟩⟩

end Sample

theorem replay_convergent_sample :
    WellFormed [Sample.ab, Sample.c] ∧
      ∀ l, ∃ units, (Doc.replay [Sample.ab, Sample.c]).listUnits l = some units ∧
        (Doc.replay [Sample.c, Sample.ab, Sample.c]).listUnits l = some units :=
  ⟨Sample.wellFormed, (replay_convergent Sample.wellFormed (fun _ => Iff.rfl) (by simp)).2.2.2⟩

end YCollab.Crdt
