import YCollab.Crdt.Replica
import YCollab.Crdt.Again

/-!
# Two replicas that exchange what they have

In one exchange each of two documents sends the other the difference to the other's state vector,
and both apply what they get. A difference carries integrated structs only: what one side holds
back it cannot pass on, and it may be waiting for what the other side has. Whatever has arrived on
one side with its past on either side is integrated there in the next exchange, so that each
exchange completes a struct of the history until both documents have all of it
(`Pair.Exchanged.missing_lt`). The deletions are the same one exchange later (`Pair.gone_exchange`).
-/

namespace YCollab.Crdt

open Lib0

namespace Doc

variable {d : Doc} {u : Update}

/-- Both documents send the other what it is missing, and apply what they are sent. -/
def exchange (a b : Doc) : Except Err (Doc × Doc) := do
  let svA ← a.encodeStateVector
  let svB ← b.encodeStateVector
  let forA ← b.encodeDiff svA
  let forB ← a.encodeDiff svB
  let a' ← a.applyUpdate forA
  let b' ← b.applyUpdate forB
  return (a', b')

/-- A number of exchanges. -/
def exchanges : ℕ → Doc × Doc → Except Err (Doc × Doc)
  | 0, ab => .ok ab
  | n + 1, ab => (exchanges n ab).bind fun ab => exchange ab.1 ab.2

/-- What an update deletes that brings no clock. -/
theorem Regular.gone_of_state_eq (h : d.Regular)
    (hs : ∀ c, (d.applyDecodedUpdate u).state c = d.state c)
    (hclean : ∀ p ∈ u.deletes.entries, ∀ r ∈ p.2, d.CleanRange p.1 r) (x : ID) :
    (d.applyDecodedUpdate u).Gone x ↔ d.Gone x ∨ u.deletes.Names x ∧ d.Has x := by
  obtain ⟨l, l', hp⟩ := h.phases u
  have hs₁ := hp.state_integrate h.gapless hs
  obtain ⟨e, l₁, rest, hcalm⟩ := h.calm hs₁
  have hg₁ := hp.ran.turns.gapless h.gapless
  have hhas₁ : ∀ x, (d.integrate u).Has x ↔ d.Has x := fun x => by
    unfold Has
    rw [hs₁]
  have hgone₁ : ∀ x, (d.integrate u).Gone x ↔ d.Gone x := by
    rw [hcalm.integrate]
    exact hcalm.cuts.gone
  have hclean₁ : ∀ p ∈ u.deletes.entries, ∀ r ∈ p.2, (d.integrate u).CleanRange p.1 r := by
    intro p hp r hr
    rw [hcalm.integrate]
    exact ⟨hcalm.cuts.marks.lowAt (hclean p hp r hr).1, hcalm.cuts.marks.lowAt (hclean p hp r hr).2⟩
  have hgone₂ := applyDeleteSet_gone hg₁ hclean₁
  have hm := hp.marked.edits.marks hg₁
  have hhas₂ : ∀ x, (d.marked u).Has x ↔ d.Has x := fun x => by
    rw [← hhas₁]
    unfold Has
    rw [hm.state]
  -- what is remembered has not been received, so deleting it again makes no difference
  have hahead : ∀ x, (d.marked u).pendingDeletes.Names x → ¬d.Has x := by
    intro x hx
    rw [hp.marked.names, hp.ran.turns.pendingDeletes h.gapless] at hx
    rcases hx with hx | ⟨-, hx⟩
    · exact h.rest.ahead hx
    · exact mt (hhas₁ x).2 hx
  have hclean₂ : ∀ p ∈ (d.marked u).pendingDeletes.entries, ∀ r ∈ p.2,
      ({ d.marked u with pendingDeletes := SortedMap.empty } : Doc).CleanRange p.1 r := by
    intro p hp' r hr
    have hpos := (hp.marked.built p.1 p.2 (SortedMap.find?_eq_some.2 hp')).2.pos r hr
    have hnot : ¬d.Has ⟨p.1, r.clock⟩ := hahead _
      (DeleteSet.names_iff.2 ⟨p, hp', rfl, r, hr, le_rfl, by
        simp only [DeleteRange.endClock]
        omega⟩)
    have hnone : ∀ k, r.clock ≤ k →
        ¬({ d.marked u with pendingDeletes := SortedMap.empty } : Doc).LowAt ⟨p.1, k⟩ := by
      intro k hk hlow
      have hhas : d.Has ⟨p.1, k⟩ := (hhas₂ _).1 (LowAt.has hm.gapless hlow)
      exact hnot (Nat.lt_of_le_of_lt hk hhas)
    exact ⟨hnone _ le_rfl, hnone _ (Nat.le_add_right ..)⟩
  have hgone₃ := applyDeleteSet_gone (d := { d.marked u with pendingDeletes := SortedMap.empty })
    hm.gapless hclean₂
  rw [hp.flush, hcalm.retried, hgone₃]
  have hgone : ({ d.marked u with pendingDeletes := SortedMap.empty } : Doc).Gone x ↔
      d.Gone x ∨ u.deletes.Names x ∧ d.Has x := by
    rw [← hgone₁, ← hhas₁]
    exact hgone₂ x
  rw [hgone]
  refine or_iff_left ?_
  rintro ⟨hx, hhas⟩
  exact hahead x hx ((hhas₂ x).1 hhas)

end Doc

variable {hist as bs : List Bytes} {H : Shape} {B Ta Tb T : ID → Prop} {a b a' b' d : Doc}
  {w : List ID} {it : Item} {x y : ID}

/-! ### Pairs are deleted as a whole -/

theorem Sound.next_mem_units (h : Sound H d w) (hst : d.Stored it) (hx : x ∈ it.units)
    (hlow : H.low x.next) : x.next ∈ it.units := by
  obtain ⟨ch, hr⟩ := h.rep
  obtain ⟨hc, hlo, hhi⟩ := Item.mem_units.1 hx
  refine Item.mem_units.2 ⟨hc, Nat.le_succ_of_le hlo, lt_of_le_of_ne hhi fun heq => ?_⟩
  refine (hr.fits hst).low_end (by omega) ?_
  have hend : it.unit it.len = x.next := ID.ext hc.symm heq.symm
  rwa [hend]

theorem Sound.gone_paired (h : Sound H d w) : Paired H d.Gone := by
  intro x hlow
  have hg := h.gapless
  obtain ⟨ch, hr⟩ := h.rep
  by_cases hx : d.Has x
  · obtain ⟨it, hst, hm⟩ := hr.exists_stored hx
    rw [hst.gone_iff hg hm, hst.gone_iff hg (h.next_mem_units hst hm hlow)]
  · have hnext : ¬d.Has x.next := mt (h.has_paired x hlow).2 hx
    exact iff_of_false (fun hgone => hx (hgone.has hg)) fun hgone => hnext (hgone.has hg)

namespace Replica

theorem deletes_cleanIn (h : Replica H B T d) (hH : H.Lawful) (hall : ∀ x, H.low x → d.Has x) :
    d.deleteSetForUpdate.CleanIn H := by
  obtain ⟨w, ht⟩ := h.told
  refine Paired.cleanIn (fun x hlow => ?_) hH d.deleteSetForUpdate_spec.1
  have hnext := hall _ hlow
  have hx := (ht.sound.has_paired x hlow).2 hnext
  have hnot : ∀ {y}, d.Has y → ¬d.pendingDeletes.Names y := fun hy hn => h.regular.rest.ahead hn hy
  rw [d.deleteSetForUpdate_spec.2, d.deleteSetForUpdate_spec.2, or_iff_left (hnot hx),
    or_iff_left (hnot hnext)]
  exact ht.sound.gone_paired x hlow

theorem has_past (h : Replica H B T d) (hH : H.Grounded) (hx : d.Has x) (hy : H.Past x y) :
    d.Has y := by
  obtain ⟨hm, -, hpast⟩ := (h.has_iff hH).1 hx
  exact (h.has_iff hH).2 ⟨hH.closed hm hy, hpast y hy, fun z hz => hpast z (hy.trans hz)⟩

theorem has_item (h : Replica H B T d) (hH : H.Grounded) (hf : H.Fits it)
    (hT : ∀ x ∈ it.units, T x) (hdep : ∀ y, H.Dep it.id y → d.Has y) {i : ℕ} (hi : i < it.len) :
    d.Has (it.unit i) := by
  obtain ⟨w, ht⟩ := h.told
  induction i using Nat.strong_induction_on with
  | _ i ih =>
    have hstep : ∀ y, H.Dep (it.unit i) y → d.Has y := by
      intro y hy
      rcases hf.dep_cases hH.toLawful hi hy with hy | ⟨j, hj, rfl⟩
      · exact hdep y hy
      · exact ih j hj (by omega)
    refine ht.has_of_deps h.regular.rest.settled (hT _ (List.mem_map_of_mem (by simpa))) ?_
    intro y hy
    rcases Relation.TransGen.head'_iff.1 hy with ⟨z, hz, hzy⟩
    rcases Relation.reflTransGen_iff_eq_or_transGen.1 hzy with rfl | hzy
    · exact hstep _ hz
    · exact h.has_past hH (hstep z hz) hzy

theorem pending_eq_nil (h : Replica H B T d) (hS : ShapeOf hist H)
    (hall : ∀ x, HasUnit hist x → d.Has x) : d.pending = [] := by
  obtain ⟨w, ht⟩ := h.told
  exact ht.pending_eq_nil h.regular.rest.settled fun x hx => hall x (hS.mem.1 hx)

theorem stateVector_eq (h : Replica H B T d) (hS : ShapeOf hist H) (hw : WellFormed hist)
    (hhas : ∀ x, d.Has x ↔ HasUnit hist x) : d.stateVector = (Doc.replay hist).stateVector := by
  have hself : ∀ u, u ∈ hist ↔ u ∈ hist := fun _ => Iff.rfl
  obtain ⟨w, ht, -, hhas'⟩ := hS.complete hw hself
  exact h.regular.gapless.stateVector_eq ht.sound.gapless
    (Doc.state_of_has fun x => (hhas x).trans (hhas' x).symm)

theorem send (ha : Replica H B Ta a) (hb : Replica H B Tb b) (hH : H.Grounded) (hB : Small B)
    (hmem : ∀ x, H.mem x → B x) :
    ∃ sv bytes u, a.encodeStateVector = .ok sv ∧ b.encodeDiff sv = .ok bytes ∧
      decodeUpdate bytes = .ok u ∧ u.deletes = b.deleteSetForUpdate ∧
      Replica H B (fun x => Ta x ∨ b.Has x) (a.applyDecodedUpdate u) := by
  obtain ⟨sv, hsv, hdec⟩ := ha.stateVector hB hmem
  have hlow : ∀ c, ¬H.low ⟨c, a.stateVector.get c⟩ := fun c => by
    rw [Doc.stateVector_get]
    exact ha.not_low_state hH.toLawful c
  obtain ⟨bytes, u, henc, hu, hgood, hdel, hunits⟩ := hb.pass hH.toLawful hB hmem hlow
  refine ⟨sv, bytes, u, hsv, by simp only [Doc.encodeDiff, hdec, henc], hu, hdel, ?_⟩
  have htold : (fun x => Ta x ∨ u.Units x) = fun x => Ta x ∨ b.Has x := by
    funext x
    refine propext (or_congr_right' fun hx => ?_)
    rw [hunits, Doc.stateVector_get]
    refine and_iff_left_of_imp fun _ => Nat.le_of_not_lt fun hlt => hx ?_
    obtain ⟨w, ht⟩ := ha.told
    exact ht.has hlt
  exact htold ▸ ha.apply hH hgood

end Replica

theorem ShapeOf.fitsWire (hS : ShapeOf hist H) (h : WellFormed hist) (hit : Carries hist it) :
    H.FitsWire it := by
  obtain ⟨b, hb, u, hu, hst⟩ := hit
  obtain ⟨u', hu', hfits⟩ := hS.fitsIn h hb
  obtain rfl : u = u' := Except.ok.inj (hu.symm.trans hu')
  obtain ⟨it', heq, hf⟩ := hfits.items _ hst
  obtain rfl := Struct.item.inj heq
  exact hf

/-! ### One exchange -/

/-- The structs that the updates carry. -/
def structsOf (hist : List Bytes) : List Struct :=
  hist.flatMap fun b => match decodeUpdate b with
    | .ok u => u.structs
    | .error _ => []

theorem mem_structsOf {st : Struct} :
    st ∈ structsOf hist ↔ ∃ b ∈ hist, ∃ u, decodeUpdate b = .ok u ∧ st ∈ u.structs := by
  simp only [structsOf, List.mem_flatMap]
  refine exists_congr fun b => and_congr_right fun _ => ?_
  cases decodeUpdate b <;> simp

/-- Two replicas of a history of which each item was told, as a whole, to one of them. -/
structure Pair (hist : List Bytes) (H : Shape) (Ta Tb : ID → Prop) (a b : Doc) : Prop where
  left : Replica H (fun x => HasUnit hist x ∨ NamedBy hist x) Ta a
  right : Replica H (fun x => HasUnit hist x ∨ NamedBy hist x) Tb b
  told : ∀ it, Carries hist it → (∀ x ∈ it.units, Ta x) ∨ ∀ x ∈ it.units, Tb x

/-- The structs of the history that neither document has all of. -/
def missing (hist : List Bytes) (a b : Doc) : List Struct :=
  (structsOf hist).filter fun st =>
    a.state st.id.client < st.endClock ∧ b.state st.id.client < st.endClock

namespace Pair

/-- What the exchange of a pair comes to. -/
structure Exchanged (hist : List Bytes) (H : Shape) (Ta Tb : ID → Prop) (a b a' b' : Doc) :
    Prop where
  pair : Pair hist H (fun x => Ta x ∨ b.Has x) (fun x => Tb x ∨ a.Has x) a' b'
  left : ∃ u : Update, u.deletes = b.deleteSetForUpdate ∧ a' = a.applyDecodedUpdate u
  right : ∃ u : Update, u.deletes = a.deleteSetForUpdate ∧ b' = b.applyDecodedUpdate u

/-- **An exchange succeeds**, and tells each side what the other one has. -/
theorem exchange (h : Pair hist H Ta Tb a b) (hS : ShapeOf hist H) (hm : Modest hist) :
    ∃ a' b', Doc.exchange a b = .ok (a', b') ∧ Exchanged hist H Ta Tb a b a' b' := by
  have hmem : ∀ x, H.mem x → HasUnit hist x ∨ NamedBy hist x := fun x hx => .inl (hS.mem.1 hx)
  obtain ⟨svA, forA, ua, hsvA, hforA, hua, hdelA, hA⟩ :=
    h.left.send h.right hS.grounded hm.small hmem
  obtain ⟨svB, forB, ub, hsvB, hforB, hub, hdelB, hB⟩ :=
    h.right.send h.left hS.grounded hm.small hmem
  refine ⟨_, _, ?_, ⟨hA, hB, fun it hit => ?_⟩, ⟨ua, hdelA, rfl⟩, ⟨ub, hdelB, rfl⟩⟩
  · simp only [Doc.exchange, bind, Except.bind, hsvA, hsvB, hforA, hforB, Doc.applyUpdate, hua, hub]
    rfl
  · exact (h.told it hit).imp (fun ht x hx => .inl (ht x hx)) fun ht x hx => .inl (ht x hx)

theorem Exchanged.has (he : Exchanged hist H Ta Tb a b a' b') (h : Pair hist H Ta Tb a b)
    (hS : ShapeOf hist H) (hx : a.Has x ∨ b.Has x) : a'.Has x ∧ b'.Has x := by
  have hH := hS.grounded
  have hm : H.mem x :=
    hx.elim (fun hx => ((h.left.has_iff hH).1 hx).1) fun hx => ((h.right.has_iff hH).1 hx).1
  rw [he.pair.left.has_iff hH, he.pair.right.has_iff hH]
  rcases hx with hx | hx
  · obtain ⟨-, hT, hpast⟩ := (h.left.has_iff hH).1 hx
    exact ⟨⟨hm, .inl hT, fun y hy => .inl (hpast y hy)⟩,
      ⟨hm, .inr hx, fun y hy => .inr (h.left.has_past hH hx hy)⟩⟩
  · obtain ⟨-, hT, hpast⟩ := (h.right.has_iff hH).1 hx
    exact ⟨⟨hm, .inr hx, fun y hy => .inr (h.right.has_past hH hx hy)⟩,
      ⟨hm, .inl hT, fun y hy => .inl (hpast y hy)⟩⟩

theorem Exchanged.complete (he : Exchanged hist H Ta Tb a b a' b') (h : Pair hist H Ta Tb a b)
    (hS : ShapeOf hist H) (hall : ∀ x, HasUnit hist x → a.Has x ∨ b.Has x) :
    (∀ x, a'.Has x ↔ HasUnit hist x) ∧ ∀ x, b'.Has x ↔ HasUnit hist x := by
  have hH := hS.grounded
  exact ⟨fun x => ⟨fun hx => hS.mem.1 ((he.pair.left.has_iff hH).1 hx).1,
      fun hx => (he.has h hS (hall x hx)).1⟩,
    fun x => ⟨fun hx => hS.mem.1 ((he.pair.right.has_iff hH).1 hx).1,
      fun hx => (he.has h hS (hall x hx)).2⟩⟩

/-- If units of the history are missing on both sides, then some item that is missing depends only
on what one side has. -/
theorem exists_next (hS : ShapeOf hist H) (hx : HasUnit hist x) (hnot : ¬(a.Has x ∨ b.Has x)) :
    ∃ it, Carries hist it ∧ (∃ y ∈ it.units, ¬(a.Has y ∨ b.Has y)) ∧
      ∀ y, H.Dep it.id y → a.Has y ∨ b.Has y := by
  have hH := hS.grounded.toLawful
  obtain ⟨time, htime⟩ := hH.wf
  -- a unit that one side would have to have first was made before
  induction hn : time x using Nat.strong_induction_on generalizing x with
  | _ n ih =>
    obtain ⟨it, hit, hxm⟩ := id hx
    by_cases hall : ∀ y, H.Dep it.id y → a.Has y ∨ b.Has y
    · exact ⟨it, hit, ⟨x, hxm, hnot⟩, hall⟩
    · push Not at hall
      obtain ⟨y, hy, hny⟩ := hall
      obtain ⟨hc, hlo, -⟩ := Item.mem_units.1 hxm
      have hpast : H.Past x y := by
        rcases hlo.lt_or_eq with hlt | heq
        · have hp : H.Past ⟨it.id.client, x.clock⟩ it.id := Shape.past_of_lt hlt
          rw [← hc] at hp
          exact hp.tail hy
        · obtain rfl : it.id = x := ID.ext hc.symm heq
          exact .single hy
      have hxH := hS.mem.2 hx
      exact ih (time y) (hn ▸ hH.time_lt htime hxH hpast) (hS.mem.1 (hH.closed hxH hpast))
        (not_or.2 hny) rfl

/-- **An exchange completes a struct** as long as units are missing on both sides. -/
theorem Exchanged.missing_lt (he : Exchanged hist H Ta Tb a b a' b') (h : Pair hist H Ta Tb a b)
    (hS : ShapeOf hist H) (hw : WellFormed hist) (hx : HasUnit hist x)
    (hnot : ¬(a.Has x ∨ b.Has x)) :
    (missing hist a' b').length < (missing hist a b).length := by
  have hstate : ∀ c, max (a.state c) (b.state c) ≤ min (a'.state c) (b'.state c) := by
    intro c
    by_contra hlt
    have hhas := he.has h hS (x := ⟨c, min (a'.state c) (b'.state c)⟩) (lt_max_iff.1 (not_le.1 hlt))
    exact lt_irrefl _ (lt_min_iff.2 hhas)
  have hfilter : missing hist a' b' = (missing hist a b).filter fun st =>
      a'.state st.id.client < st.endClock ∧ b'.state st.id.client < st.endClock := by
    rw [missing, missing, List.filter_filter]
    refine List.filter_congr fun st _ => ?_
    have := hstate st.id.client
    simp only [max_le_iff, le_min_iff] at this
    rw [Bool.eq_iff_iff]
    simp only [decide_eq_true_eq, Bool.and_eq_true, iff_self_and]
    omega
  rw [hfilter, List.length_filter_lt_length_iff_exists]
  obtain ⟨it, hit, ⟨y, hy, hny⟩, hdep⟩ := exists_next hS hx hnot
  obtain ⟨hc, hlo, hhi⟩ := Item.mem_units.1 hy
  have hpos : 0 < it.len := by omega
  obtain ⟨hna, hnb⟩ := not_or.1 hny
  have hfits := (hS.fitsWire hw hit).toFits
  refine ⟨.item it, List.mem_filter.2 ⟨mem_structsOf.2 hit, ?_⟩, ?_⟩
  · unfold Doc.Has at hna hnb
    rw [hc] at hna hnb
    rw [decide_eq_true_eq]
    simp only [Struct.id_item, Struct.endClock_item]
    omega
  · -- the side that was told the item has all of it now
    have hlast : a'.Has (it.unit (it.len - 1)) ∨ b'.Has (it.unit (it.len - 1)) := by
      refine (h.told it hit).imp (fun ht => ?_) fun ht => ?_
      · exact he.pair.left.has_item hS.grounded hfits (fun x hx => .inl (ht x hx))
          (fun y hy => (he.has h hS (hdep y hy)).1) (by omega)
      · exact he.pair.right.has_item hS.grounded hfits (fun x hx => .inl (ht x hx))
          (fun y hy => (he.has h hS (hdep y hy)).2) (by omega)
    simp only [Doc.Has, Item.unit] at hlast
    rw [decide_eq_true_eq]
    simp only [Struct.id_item, Struct.endClock_item]
    omega

/-- **With equal state vectors nothing is held back.** -/
theorem pending_of_stateVector (h : Pair hist H Ta Tb a b) (hS : ShapeOf hist H)
    (hw : WellFormed hist) (hsv : a.stateVector = b.stateVector) :
    a.pending = [] ∧ b.pending = [] := by
  have hstate := Doc.state_of_stateVector h.right.regular.gapless h.left.regular.gapless hsv
  have hhas : ∀ x, a.Has x ↔ b.Has x := fun x => by
    unfold Doc.Has
    rw [hstate]
  have hall : ∀ x, HasUnit hist x → a.Has x ∨ b.Has x := by
    intro x hx
    by_contra hnot
    -- an item whose dependencies are there would have been integrated
    obtain ⟨it, hit, ⟨y, hy, hny⟩, hdep⟩ := exists_next hS hx hnot
    obtain ⟨i, hi, rfl⟩ := List.mem_map.1 hy
    have hlt := List.mem_range.1 hi
    have hf := (hS.fitsWire hw hit).toFits
    rcases h.told it hit with ht | ht
    · exact hny (.inl (h.left.has_item hS.grounded hf ht
        (fun y hy => (hdep y hy).elim id (hhas y).2) hlt))
    · exact hny (.inr (h.right.has_item hS.grounded hf ht
        (fun y hy => (hdep y hy).elim (hhas y).1 id) hlt))
  exact ⟨h.left.pending_eq_nil hS fun x hx => (hall x hx).elim id (hhas x).2,
    h.right.pending_eq_nil hS fun x hx => (hall x hx).elim (hhas x).1 id⟩

theorem gone_exchange (ha : Replica H B Ta a) (hb : Replica H B Tb b) (hS : ShapeOf hist H)
    (hhas : ∀ x, a.Has x ↔ HasUnit hist x) (hhas' : ∀ x, b.Has x ↔ HasUnit hist x) {u : Update}
    (hu : u.deletes = b.deleteSetForUpdate)
    (hafter : ∀ x, (a.applyDecodedUpdate u).Has x ↔ HasUnit hist x) (x : ID) :
    (a.applyDecodedUpdate u).Gone x ↔ a.Gone x ∨ b.Gone x := by
  obtain ⟨w, ht⟩ := ha.told
  have hclean := hb.deletes_cleanIn hS.grounded.toLawful fun x hx => by
    obtain ⟨it, hit, i, hi, rfl, -⟩ := hS.low.1 hx
    exact (hhas' _).2 ⟨it, hit, List.mem_map_of_mem (List.mem_range.2 hi)⟩
  have hstate := Doc.state_of_has fun x => (hafter x).trans (hhas x).symm
  rw [ha.regular.gone_of_state_eq hstate (hu ▸ ht.sound.cleanRange hclean), hu,
    b.deleteSetForUpdate_spec.2]
  refine or_congr_right ⟨?_, fun hx => ⟨.inl hx, ?_⟩⟩
  · rintro ⟨hx | hx, hax⟩
    · exact hx
    · exact absurd ((hhas' x).2 ((hhas x).1 hax)) (hb.regular.rest.ahead hx)
  · exact (hhas x).2 ((hhas' x).1 (hx.has hb.regular.gapless))

theorem replay (hS : ShapeOf hist H) (hw : WellFormed hist) (hm : Modest hist)
    (has : ∀ u ∈ as, u ∈ hist) (hbs : ∀ u ∈ bs, u ∈ hist) (hall : ∀ u ∈ hist, u ∈ as ∨ u ∈ bs) :
    Pair hist H (CarriedBy as) (CarriedBy bs) (Doc.replay as) (Doc.replay bs) where
  left := .replay hS hw hm has
  right := .replay hS hw hm hbs
  told := by
    rintro it ⟨u, hu, v, hv, hit⟩
    exact (hall u hu).imp (fun hu x hx => ⟨u, hu, v, hv, it, hit, hx⟩)
      fun hu x hx => ⟨u, hu, v, hv, it, hit, hx⟩

/-- **Whole runs.**  Exchanges succeed, and each completes a struct until one of the sides has each
unit of the history. -/
theorem exchanges (h : Pair hist H Ta Tb a b) (hS : ShapeOf hist H) (hw : WellFormed hist)
    (hm : Modest hist) (k : ℕ) :
    ∃ a' b' Ta' Tb', Doc.exchanges k (a, b) = .ok (a', b') ∧ Pair hist H Ta' Tb' a' b' ∧
      ((∀ x, HasUnit hist x → a'.Has x ∨ b'.Has x) ∨
        (missing hist a' b').length + k ≤ (structsOf hist).length) := by
  induction k with
  | zero => exact ⟨a, b, Ta, Tb, rfl, h, .inr (List.length_filter_le ..)⟩
  | succ k ih =>
    obtain ⟨a₁, b₁, T₁, T₁', hrun, h₁, hcase⟩ := ih
    obtain ⟨a₂, b₂, hex, he⟩ := h₁.exchange hS hm
    refine ⟨a₂, b₂, _, _, by simp only [Doc.exchanges, hrun, Except.bind, hex], he.pair, ?_⟩
    by_cases hall : ∀ x, HasUnit hist x → a₁.Has x ∨ b₁.Has x
    · exact .inl fun x hx => .inl (he.has h₁ hS (hall x hx)).1
    · have hle := hcase.resolve_left hall
      push Not at hall
      obtain ⟨x, hx, hnot⟩ := hall
      have hlt := he.missing_lt h₁ hS hw hx (not_or.2 hnot)
      exact .inr (by omega)

theorem has_of_exchanges (h : Pair hist H Ta Tb a b) (hS : ShapeOf hist H) (hw : WellFormed hist)
    (hm : Modest hist) {k : ℕ} (hk : (structsOf hist).length ≤ k) :
    ∃ a' b' Ta' Tb', Doc.exchanges k (a, b) = .ok (a', b') ∧ Pair hist H Ta' Tb' a' b' ∧
      ∀ x, HasUnit hist x → a'.Has x ∨ b'.Has x := by
  obtain ⟨a', b', Ta', Tb', hrun, h', hcase⟩ := h.exchanges hS hw hm k
  refine ⟨a', b', Ta', Tb', hrun, h', hcase.elim id fun hle x hx => ?_⟩
  by_contra hnot
  obtain ⟨a'', b'', -, he⟩ := h'.exchange hS hm
  have hlt := he.missing_lt h' hS hw hx hnot
  omega

end Pair

/-- **Exchange reaches a fixed point.**  The updates of a well-formed history are split between two
documents. After two more exchanges than there are structs in the history, and ever after, both
documents have the state vector of the history, which is that of all its units, hold nothing back
and have deleted the same; and whenever the two state vectors are equal, nothing is held back. -/
theorem exchange_reaches_fixed_point (hw : WellFormed hist) (hm : Modest hist)
    (has : ∀ u ∈ as, u ∈ hist) (hbs : ∀ u ∈ bs, u ∈ hist) (hall : ∀ u ∈ hist, u ∈ as ∨ u ∈ bs) :
    (∀ x : ID, x.clock < (Doc.replay hist).stateVector.get x.client ↔ HasUnit hist x) ∧
    (∀ k, (structsOf hist).length + 2 ≤ k → ∃ a b,
      Doc.exchanges k (Doc.replay as, Doc.replay bs) = .ok (a, b) ∧
        a.stateVector = (Doc.replay hist).stateVector ∧
        b.stateVector = (Doc.replay hist).stateVector ∧
        a.pending = [] ∧ b.pending = [] ∧ a.deleteSet = b.deleteSet) ∧
    ∀ k, ∃ a b, Doc.exchanges k (Doc.replay as, Doc.replay bs) = .ok (a, b) ∧
      (a.stateVector = b.stateVector → a.pending = [] ∧ b.pending = []) := by
  obtain ⟨H, hS⟩ := hw.exists_shape
  have h := Pair.replay hS hw hm has hbs hall
  refine ⟨fun x => ?_, fun k hk => ?_, fun k => ?_⟩
  · obtain ⟨-, -, -, hhas⟩ := hS.complete hw fun _ => Iff.rfl
    rw [Doc.stateVector_get]
    exact hhas x
  · obtain ⟨k, rfl⟩ : ∃ j, k = j + 2 := ⟨k - 2, by omega⟩
    obtain ⟨a₀, b₀, T₀, T₀', hrun, h₀, hhas₀⟩ := h.has_of_exchanges hS hw hm (k := k) (by omega)
    obtain ⟨a₁, b₁, hex₁, he₁⟩ := h₀.exchange hS hm
    obtain ⟨a₂, b₂, hex₂, he₂⟩ := he₁.pair.exchange hS hm
    -- both have everything after one exchange more, and no clock is new in the next one
    obtain ⟨ha₁, hb₁⟩ := he₁.complete h₀ hS hhas₀
    obtain ⟨ha₂, hb₂⟩ := he₂.complete he₁.pair hS fun x hx => .inl ((ha₁ x).2 hx)
    have h₁ := he₁.pair
    have h₂ := he₂.pair
    refine ⟨a₂, b₂, ?_, h₂.left.stateVector_eq hS hw ha₂, h₂.right.stateVector_eq hS hw hb₂,
      h₂.left.pending_eq_nil hS fun x => (ha₂ x).2, h₂.right.pending_eq_nil hS fun x => (hb₂ x).2,
      Doc.deleteSet_eq fun x => ?_⟩
    · simp only [Doc.exchanges, hrun, Except.bind, hex₁, hex₂]
    · obtain ⟨u, hu, rfl⟩ := he₂.left
      obtain ⟨v, hv, rfl⟩ := he₂.right
      rw [Pair.gone_exchange h₁.left h₁.right hS ha₁ hb₁ hu ha₂,
        Pair.gone_exchange h₁.right h₁.left hS hb₁ ha₁ hv hb₂, or_comm]
  · obtain ⟨a, b, Ta, Tb, hrun, h', -⟩ := h.exchanges hS hw hm k
    exact ⟨a, b, hrun, h'.pending_of_stateVector hS hw⟩

/-- Two clients that typed at the same place exchange what they typed. -/
theorem exchange_of_two_letters :
    WellFormed [Sample.ab, Sample.c] ∧ Modest [Sample.ab, Sample.c] ∧
      ∃ a b, Doc.exchanges 4 (Doc.replay [Sample.ab], Doc.replay [Sample.c]) = .ok (a, b) ∧
        a.stateVector.entries = [(2, 1), (1, 2)] ∧ b.stateVector.entries = [(2, 1), (1, 2)] ∧
        a.pending = [] ∧ b.pending = [] ∧ a.deleteSet = b.deleteSet := by
  refine ⟨Sample.wellFormed, Sample.modest, ?_⟩
  have ha : ∀ u ∈ [Sample.ab], u ∈ [Sample.ab, Sample.c] := by simp
  have hb : ∀ u ∈ [Sample.c], u ∈ [Sample.ab, Sample.c] := by simp
  obtain ⟨-, hreach, -⟩ :=
    exchange_reaches_fixed_point Sample.wellFormed Sample.modest ha hb (by simp)
  obtain ⟨a, b, hrun, hsvA, hsvB, hsame⟩ := hreach 4 (by decide)
  have hsv : (Doc.replay [Sample.ab, Sample.c]).stateVector.entries = [(2, 1), (1, 2)] := by
    decide +kernel
  exact ⟨a, b, hrun, hsvA ▸ hsv, hsvB ▸ hsv, hsame⟩

end YCollab.Crdt
