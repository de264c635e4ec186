import YCollab.Crdt.Edits
import YCollab.Crdt.Integrate

/-!
# One turn of a history

`Shape.Grounded` adds to a lawful shape what its authors saw: the two neighbours of a unit stood in
this order when it was inserted, and its right neighbour was anchored. Then every turn of a struct
of the history succeeds and keeps the document sound (`Sound.turn`): it represents a causal
sequence of units, and what was written as deleted, or overwritten in a map, is deleted. What a
delete set does keeps it sound as well (`Sound.edits`).
-/

namespace YCollab.Crdt

open Yata Yata.Ops

variable {H : Shape} {d d' : Doc} {w : List ID} {ch : ListID → List Item} {it c : Item} {x : ID}

/-- The shape of a history whose authors inserted between neighbours. -/
structure Shape.Grounded (H : Shape) : Prop extends H.Lawful where
  anchored : ∀ {x}, H.mem x → H.ops.Anchored H.Past (H.In (H.list x)) x
  straddles : ∀ {x o r}, H.mem x → H.origin x = some o → H.right x = some r →
    ∃ v, Causal H.Past (H.In (H.list x)) v ∧ (∀ y ∈ v, H.Past x y) ∧
      Before (H.ops.insertAll v) o r

namespace Rep

theorem causal_list (h : Rep H d w ch) (l : ListID) :
    Causal H.Past (H.In l) (w.filter fun x => H.list x = l) :=
  h.causal.restrict

theorem past_mem (h : Rep H d w ch) (hH : H.Lawful) (hx : H.mem x)
    (hdeps : ∀ {y}, H.Dep x y → d.Has y) {y : ID} (hy : H.Past x y) : y ∈ w := by
  obtain ⟨z, hz, hzy⟩ := Relation.TransGen.head'_iff.1 hy
  have hzw := (h.mem z).2 (hdeps hz)
  rcases Relation.reflTransGen_iff_eq_or_transGen.1 hzy with rfl | hp
  · exact hzw
  · exact h.causal.closed hzw (hH.closed hx hy) hp

theorem straddles (h : Rep H d w ch) (hH : H.Grounded) (hx : H.mem x)
    (hdeps : ∀ {y}, H.Dep x y → d.Has y) : Straddles H w x := by
  intro o r ho hr
  obtain ⟨v, hv, hpast, hb⟩ := hH.straddles hx ho hr
  refine before_insertAll_mono (hH.ops (H.list x)) hv (h.causal_list (H.list x)) (fun y hy => ?_)
    (fun y hy => ?_) hb
  · have hy' := (h.causal_list (H.list x)).mem_of hy
    have := hH.anchored hy'.1
    rwa [hy'.2] at this
  · simpa using ⟨h.past_mem hH.toLawful hx hdeps (hpast y hy), (hv.mem_of hy).2⟩

/-- What a turn of an item of the history does: nothing, if its units are known, and otherwise it
places what is new. -/
theorem turn_cases (h : Rep H d w ch) (hH : H.Grounded) (hf : H.FitsWire it)
    (hst : d.integrateHead (.item it) = some d') :
    d' = d ∧ (∀ x ∈ it.units, d.Has x) ∨
      ∃ d₁ it₁ ch₁ P Q, Placed H d w it d₁ it₁ ch₁ P Q ∧ it.id.clock ≤ d.state it.id.client ∧
        d' = d₁.link it₁ (H.list it₁.id).parent ((P.map Item.id).getLast?) := by
  rw [Doc.integrateHead_item] at hst
  split at hst
  next => cases hst
  next hclock =>
    split at hst
    next hknown =>
      cases hst
      refine .inl ⟨rfl, fun x hx => ?_⟩
      obtain ⟨hc, -, hlt⟩ := Item.mem_units.1 hx
      unfold Doc.Has
      rw [hc]
      omega
    next hnew =>
      have hpos : 0 < it.len := by omega
      have hk : d.Known it := by
        by_contra hk
        rw [Doc.resolve_eq_none.2 hk] at hst
        cases hst
      have hs := h.straddles hH (hf.mem 0 hpos) (h.deps hH.toLawful hf hpos (by omega) hk)
      obtain ⟨d₂, it₂, left, right, d₁, it₁, ch₁, P, Q, hres, hint, hp⟩ :=
        h.integrateItem hH.toLawful hf hk hs (by omega) (by omega)
      rw [hres, Option.map_some] at hst
      exact .inr ⟨d₁, it₁, ch₁, P, Q, hp, by omega, (Option.some.inj hst).symm.trans hint⟩

/-- The units that are new are those of the item that were not known. -/
theorem Placed.has {d₁ : Doc} {it₁ : Item} {ch₁ : ListID → List Item} {P Q : List Item}
    (hp : Placed H d w it d₁ it₁ ch₁ P Q) (hclock : it.id.clock ≤ d.state it.id.client)
    (p : TypeID) (left : Option ID) :
    (d₁.link it₁ p left).Has x ↔ d.Has x ∨ x ∈ it.units := by
  rw [hp.next.has_link hp.rep.gapless, hp.cuts.has]
  have hid := hp.id
  have hend := hp.endClock
  constructor
  · refine Or.imp_right fun hx => ?_
    obtain ⟨h1, h2, h3⟩ := Item.mem_units.1 hx
    rw [hid] at h1 h2
    exact Item.mem_units.2 ⟨h1, by simp only at h2; omega, by omega⟩
  · rintro (hx | hx)
    · exact .inl hx
    · obtain ⟨h1, h2, h3⟩ := Item.mem_units.1 hx
      by_cases hk : d.Has x
      · exact .inl hk
      · refine .inr (Item.mem_units.2 ⟨by rw [hid]; exact h1, ?_, by omega⟩)
        unfold Doc.Has at hk
        rw [h1] at hk
        rw [hid]
        exact Nat.le_of_not_lt hk

/-! ### What a turn deletes -/

section Gone

variable {P Q : List Item}

theorem ownerDeleted_iff (h : Rep H d w ch) (hH : H.Lawful) (hx : H.mem x)
    (hdeps : ∀ {y}, H.Dep x y → d.Has y) :
    d.ownerDeleted (H.list x).parent = true ↔ ∃ o, (H.list x).parent = .nested o ∧ d.Gone o := by
  cases hp : (H.list x).parent with
  | root name => simp [Doc.ownerDeleted]
  | nested o =>
    obtain ⟨t, hst, ho⟩ := h.exists_stored (hdeps (.owner hp))
    obtain ⟨hc, hlo, hhi⟩ := Item.mem_units.1 ho
    obtain ⟨i, hi, hunit⟩ := List.mem_map.1 ho
    have htype : t.content.isType = true :=
      ((h.fits hst).type i (List.mem_range.1 hi)).1 (hunit ▸ hH.owner_type hx hp)
    have hlen : t.len = 1 := Content.len_of_isType htype
    have hid : t.id = o := ID.ext hc.symm (by omega)
    have := hst.gone_iff h.gapless ho
    rw [hid] at this
    simp [Doc.ownerDeleted, this]

/-- What linking an item deletes: the entry it overwrites, and the item itself if its content is
deleted, its parent is, or it is not the newest entry. -/
theorem gone_link (h : Rep H d w ch) (hH : H.Lawful) (hn : Next H d it)
    (hl : ch (H.list it.id) = P ++ Q) :
    (d.link it (H.list it.id).parent ((P.map Item.id).getLast?)).Gone x ↔
      d.Gone x ∨ ((H.list it.id).key ≠ none ∧ Q = [] ∧ ∃ c, P.getLast? = some c ∧ x ∈ c.units) ∨
        x ∈ it.units ∧ (it.content.isDeleted = true ∨
          (∃ o, (H.list it.id).parent = .nested o ∧ d.Gone o) ∨
          (H.list it.id).key ≠ none ∧ Q ≠ []) := by
  set left := (P.map Item.id).getLast? with hleft
  set p := (H.list it.id).parent with hp
  have hmem : H.mem it.id := hn.fits.mem 0 hn.fits.pos
  have hafter : d.after ⟨p, it.key⟩ left = (Q.map Item.id).head? := by
    rw [hn.list_eq]
    exact h.after_eq hl
  have hright : d.after ⟨p, it.key⟩ left = none ↔ Q = [] := by
    rw [hafter]
    cases Q <;> simp
  have hsub : it.hasParentSub = true ↔ (H.list it.id).key ≠ none := by
    rw [← hn.fits.key, Ne, Item.key_eq_none]
    simp
  have howner : ∀ o, p = .nested o → H.Dep it.id o := fun o ho => .owner (hp ▸ ho)
  have hP : ∀ c, P.getLast? = some c → d.Stored c := fun c hc =>
    ((h.stored (H.list it.id) c).1 (by
      rw [hl]
      exact List.mem_append_left _ (List.mem_of_getLast? hc))).1
  have hg' : (d.link it p left).store.Gapless := by
    rw [Doc.link_store]
    exact h.gapless.append hn.fits.pos rfl
  -- the flag of the new item
  have hself : (d.link it p left).deleted it.id = true ↔ it.content.isDeleted = true ∨
      (∃ o, p = .nested o ∧ d.Gone o) ∨ (H.list it.id).key ≠ none ∧ Q ≠ [] := by
    have hrel : (d.relink it p left).ownerDeleted p = d.ownerDeleted p := by
      cases hpo : p with
      | root name => rfl
      | nested o =>
        simp only [Doc.ownerDeleted, Doc.relink_deleted]
        rw [if_neg]
        rintro ⟨-, -, hlo⟩
        have hlo' := List.mem_of_getLast? (hleft.symm.trans hlo)
        have hlist : H.list o = H.list it.id := h.list_of_mem (by
          rw [hl, List.map_append]
          exact List.mem_append_left _ hlo')
        have hdep : H.Dep o o := .owner (by rw [hlist, ← hp, hpo])
        exact hH.past_irrefl (hH.dep_mem hmem (howner o hpo)) (.single hdep)
    rw [Doc.link_deleted_self d it p left fun o ho heq =>
      hH.past_irrefl hmem (.single (heq ▸ howner o ho)), hrel, Bool.or_eq_true, Bool.or_eq_true,
      Bool.and_eq_true, hsub, h.ownerDeleted_iff hH hmem hn.deps, or_assoc]
    refine or_congr_right (or_congr_right (and_congr_right fun _ => ?_))
    rw [Option.isSome_iff_ne_none, Ne, hright]
  -- the flags of the others
  have hother : ∀ c, d.Stored c → ((d.link it p left).deleted c.id = true ↔ d.deleted c.id = true ∨
      (H.list it.id).key ≠ none ∧ Q = [] ∧ P.getLast? = some c) := by
    intro c hc
    have hne : c.id ≠ it.id := fun heq =>
      hn.not_has hn.id_mem (heq ▸ hc.has h.gapless (hc.id_mem_units h.gapless))
    have hlast : left = some c.id ↔ P.getLast? = some c := by
      rw [hleft, List.getLast?_map, Option.map_eq_some_iff]
      constructor
      · rintro ⟨c', hc', hid⟩
        have hst := hP c' hc'
        rw [hc', hc.unique hst h.gapless (hc.id_mem_units h.gapless)
          (hid ▸ hst.id_mem_units h.gapless)]
      · exact fun hc' => ⟨c, hc', rfl⟩
    rw [Doc.link_deleted d it p left hne, Doc.relink_deleted, ← hright, ← hsub, ← hlast]
    split
    next h => exact iff_of_true rfl (.inr ⟨h.2.1, h.1, h.2.2⟩)
    next h => exact (or_iff_left fun h' => h ⟨h'.2.1, h'.1, h'.2.2⟩).symm
  by_cases hx : x ∈ it.units
  · have hnot := hn.not_has hx
    have hst : (d.link it p left).Stored it := (hn.stored_link p left).2 (.inr rfl)
    rw [hst.gone_iff hg' hx, hself]
    simp only [hx, true_and]
    constructor
    · exact fun h => .inr (.inr h)
    · rintro (hgone | ⟨-, -, c, hc, hxc⟩ | h)
      · exact absurd (hgone.has h.gapless) hnot
      · exact absurd ((hP c hc).has h.gapless hxc) hnot
      · exact h
  · simp only [hx, false_and, or_false]
    by_cases hhas : d.Has x
    · obtain ⟨c, hc, hxc⟩ := h.exists_stored hhas
      have hst : (d.link it p left).Stored c := (hn.stored_link p left).2 (.inl hc)
      rw [hst.gone_iff hg' hxc, hother c hc, hc.gone_iff h.gapless hxc]
      refine or_congr_right (and_congr_right fun _ => and_congr_right fun _ => ?_)
      constructor
      · exact fun hlast => ⟨c, hlast, hxc⟩
      · rintro ⟨c', hc', hxc'⟩
        rw [hc', hc.unique (hP c' hc') h.gapless hxc hxc']
    · refine iff_of_false (fun hgone => ?_) ?_
      · exact ((hn.has_link h.gapless p left).1 (hgone.has hg')).elim hhas hx
      · rintro (hgone | ⟨-, -, c, hc, hxc⟩)
        · exact hhas (hgone.has h.gapless)
        · exact hhas ((hP c hc).has h.gapless hxc)

end Gone

/-! ### Edits -/

theorem congr (h : Rep H d w ch) (hst : d'.store = d.store) (hl : d'.left = d.left)
    (hr : d'.right = d.right) (hs : d'.start = d.start) (hm : d'.mapItems = d.mapItems) :
    Rep H d' w ch := by
  cases d
  cases d'
  simp only at hst hl hr hs hm
  subst hst hl hr hs hm
  exact ⟨h.gapless, h.items, h.causal, h.mem, h.nodup, h.linked, h.head, h.last, h.stored, h.flat⟩

theorem edits (h : Rep H d w ch) (hH : H.Lawful) (he : Doc.Edits d d') :
    ∃ ch', Rep H d' w ch' := by
  induction he with
  | refl => exact ⟨ch, h⟩
  | @split d₁ it A B k hc tc _ hs hsplice h0 hk ih =>
    obtain ⟨ch₁, h₁⟩ := ih
    have hst : d₁.Stored it := by simp [Doc.Stored, hs]
    have hcut := Content.splice_cut hsplice hk.le
    have hlow : ¬H.low (it.unit k) := fun hl => by
      have hl' := ((h₁.fits hst).low k hk).1 hl
      have h0' := hcut.low_tail 0
      rw [Content.lowAt_zero, Nat.add_zero, hl'] at h0'
      cases h0'
    obtain ⟨P, Q, hl⟩ := List.append_of_mem ((h₁.stored (H.list it.id) it).2 ⟨hst, rfl⟩)
    exact ⟨_, h₁.split hH hs h0 hk hlow hcut hl⟩
  | delete _ _ ih =>
    obtain ⟨ch₁, h₁⟩ := ih
    exact ⟨ch₁, h₁.congr rfl rfl rfl rfl rfl⟩
  | held _ _ ih =>
    obtain ⟨ch₁, h₁⟩ := ih
    exact ⟨ch₁, h₁.congr rfl rfl rfl rfl rfl⟩

end Rep

/-! ### Sound documents -/

/-- The unit is an entry of a map that another entry for its key has overwritten. -/
def Overwritten (H : Shape) (w : List ID) (x : ID) : Prop :=
  (H.list x).key ≠ none ∧
    ∃ y, Before (H.ops.insertAll (w.filter fun z => H.list z = H.list x)) x y

namespace Rep

variable {P Q : List Item}

theorem units_of_entry (hf : H.FitsStored c) (hkey : (H.list c.id).key ≠ none) :
    c.units = [c.id] := by
  have hlen : c.len = 1 := le_antisymm (hf.entry 0 hf.pos hkey) hf.pos
  simp [Item.units, hlen]

theorem overwritten_iff (h : Rep H d w ch) :
    Overwritten H w x ↔ (H.list x).key ≠ none ∧ x ∈ (allUnits (ch (H.list x))).dropLast := by
  unfold Overwritten
  rw [← h.flat, exists_before_iff]

/-- What linking an item overwrites is what it deletes for that reason. -/
theorem overwritten_link (h : Rep H d w ch) (hH : H.Lawful) (hn : Next H d it)
    (hl : ch (H.list it.id) = P ++ Q)
    (hins : H.ops.insert (allUnits (P ++ Q)) it.id = allUnits P ++ it.id :: allUnits Q) :
    Overwritten H (w ++ it.units) x ↔ Overwritten H w x ∨
      ((H.list it.id).key ≠ none ∧ Q = [] ∧ ∃ c, P.getLast? = some c ∧ x ∈ c.units) ∨
      x ∈ it.units ∧ (H.list it.id).key ≠ none ∧ Q ≠ [] := by
  rw [(h.link hH hn hl hins).overwritten_iff, h.overwritten_iff]
  have hP : ∀ c ∈ P, d.Stored c ∧ H.list c.id = H.list it.id := fun c hc =>
    (h.stored (H.list it.id) c).1 (by rw [hl]; exact List.mem_append_left _ hc)
  by_cases hlx : H.list x = H.list it.id
  · rw [hlx, Function.update_self, hl]
    by_cases hkey : (H.list it.id).key = none
    · simp [hkey]
    have hunits := units_of_entry hn.fits hkey
    simp only [Ne, hkey, not_false_eq_true, true_and, hunits]
    have hsplit : allUnits (P ++ it :: Q) = allUnits P ++ it.id :: allUnits Q := by
      simp [allUnits, hunits]
    rw [hsplit, allUnits_append]
    cases Q with
    | nil =>
      cases P using List.reverseRecOn with
      | nil => simp [allUnits]
      | append_singleton P c =>
        have hc := units_of_entry (h.fits (hP c (by simp)).1) (by rw [(hP c (by simp)).2]; exact hkey)
        simp [allUnits, hc]
    | cons q Q =>
      have hq : allUnits (q :: Q) ≠ [] := by
        have hst := ((h.stored (H.list it.id) q).1 (by simp [hl])).1
        have := hst.id_mem_units h.gapless
        intro hnil
        have hm : q.id ∈ allUnits (q :: Q) := by
          simp only [allUnits, List.flatMap_cons]
          exact List.mem_append_left _ this
        rw [hnil] at hm
        cases hm
      rw [List.dropLast_append_of_ne_nil hq, List.dropLast_append_of_ne_nil (by simp),
        List.dropLast_cons_of_ne_nil hq]
      simp only [List.mem_append, List.mem_cons, List.not_mem_nil, or_false, reduceCtorEq, false_and,
        false_or, not_false_eq_true, and_true]
      tauto
  · rw [Function.update_of_ne hlx]
    refine (or_iff_left ?_).symm
    rintro (⟨-, -, c, hc, hxc⟩ | ⟨hx, -⟩)
    · obtain ⟨hst, hlist⟩ := hP c (List.mem_of_getLast? hc)
      obtain ⟨i, hi, rfl⟩ := List.mem_map.1 hxc
      exact hlx (((h.fits hst).list_eq hH (List.mem_range.1 hi)).trans hlist)
    · obtain ⟨i, hi, rfl⟩ := List.mem_map.1 hx
      exact hlx (hn.fits.list_eq hH (List.mem_range.1 hi))

end Rep

/-- The document represents `w`, and what has to be deleted is. -/
structure Sound (H : Shape) (d : Doc) (w : List ID) : Prop where
  rep : ∃ ch, Rep H d w ch
  content : ∀ {x}, d.Has x → H.gone x → d.Gone x
  entry : ∀ {x}, Overwritten H w x → d.Gone x

/-- Everything that is deleted is so for a reason: it was named, written as deleted, overwritten, or
hangs under something deleted. -/
def Explained (H : Shape) (N : ID → Prop) (d : Doc) (w : List ID) : Prop :=
  ∀ x, d.Gone x → N x ∨ H.gone x ∨ Overwritten H w x ∨
    ∃ o, (H.list x).parent = .nested o ∧ d.Gone o

namespace Sound

theorem gapless (h : Sound H d w) : d.store.Gapless := h.rep.choose_spec.gapless

theorem edits (h : Sound H d w) (hH : H.Lawful) (he : Doc.Edits d d') : Sound H d' w := by
  obtain ⟨ch, hr⟩ := h.rep
  have hm := he.marks hr.gapless
  refine ⟨hr.edits hH he, fun {x} hx hg => hm.gone x (h.content ?_ hg),
    fun hx => hm.gone _ (h.entry hx)⟩
  unfold Doc.Has at hx ⊢
  rwa [hm.state] at hx

/-- **A turn of a struct of the history keeps a document sound**, and adds the units of the
struct. -/
theorem turn (h : Sound H d w) (hH : H.Grounded) (hf : H.FitsWire it)
    (hst : d.integrateHead (.item it) = some d') :
    ∃ w', Sound H d' w' ∧ (∀ x, d'.Has x ↔ d.Has x ∨ x ∈ it.units) ∧
      (∀ x, d.Gone x → d'.Gone x) ∧ ∀ N, Explained H N d w → Explained H N d' w' := by
  obtain ⟨ch, hr⟩ := h.rep
  rcases hr.turn_cases hH hf hst with ⟨rfl, hknown⟩ | ⟨d₁, it₁, ch₁, P, Q, hp, hclock, rfl⟩
  · exact ⟨w, h, fun x => (or_iff_left_of_imp (hknown x)).symm, fun _ hx => hx, fun _ he => he⟩
  · have hgone := fun x => hp.rep.gone_link (x := x) hH.toLawful hp.next hp.chain
    have hover := fun x => hp.rep.overwritten_link (x := x) hH.toLawful hp.next hp.chain hp.insert
    refine ⟨w ++ it₁.units, ⟨⟨_, hp.rep' hH.toLawful⟩, fun {x} hx hgx => ?_, fun {x} hx => ?_⟩,
      fun x => hp.has hclock _ _, fun x hx => (hgone x).2 (.inl ((hp.cuts.gone x).2 hx)),
      fun N he x hx => ?_⟩
    · rw [hgone, hp.cuts.gone]
      rcases (hp.next.has_link hp.rep.gapless _ _).1 hx with hx | hx
      · exact .inl (h.content (hp.cuts.has.1 hx) hgx)
      · obtain ⟨i, hi, rfl⟩ := List.mem_map.1 hx
        exact .inr (.inr ⟨hx, .inl ((hp.next.fits.gone i (List.mem_range.1 hi)).1 hgx)⟩)
    · rw [hgone, hp.cuts.gone]
      rcases (hover x).1 hx with hx | hx | ⟨hx, hkey⟩
      · exact .inl (h.entry hx)
      · exact .inr (.inl hx)
      · exact .inr (.inr ⟨hx, .inr (.inr hkey)⟩)
    · rw [hover]
      rcases (hgone x).1 hx with hx | hx | ⟨hx, hdel | ⟨o, ho, hgo⟩ | hkey⟩
      · rcases he x ((hp.cuts.gone x).1 hx) with hN | hc | ho | ⟨o, ho, hgo⟩
        · exact .inl hN
        · exact .inr (.inl hc)
        · exact .inr (.inr (.inl (.inl ho)))
        · exact .inr (.inr (.inr ⟨o, ho, (hgone o).2 (.inl ((hp.cuts.gone o).2 hgo))⟩))
      · exact .inr (.inr (.inl (.inr (.inl hx))))
      · obtain ⟨i, hi, rfl⟩ := List.mem_map.1 hx
        exact .inr (.inl ((hp.next.fits.gone i (List.mem_range.1 hi)).2 hdel))
      · obtain ⟨i, hi, rfl⟩ := List.mem_map.1 hx
        refine .inr (.inr (.inr ⟨o, ?_, (hgone o).2 (.inl hgo)⟩))
        rw [hp.next.fits.list_eq hH.toLawful (List.mem_range.1 hi), ho]
      · exact .inr (.inr (.inl (.inr (.inr ⟨hx, hkey⟩))))

end Sound

end YCollab.Crdt
