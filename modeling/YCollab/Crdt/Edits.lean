import YCollab.Crdt.Cuts

/-!
# Deleting ranges

Whatever a delete set names, `applyDeleteSet` only cuts items, marks items deleted and remembers
ranges (`Edits`). The clocks that have been integrated stay, and what is deleted stays deleted
(`Edits.marks`).

If no boundary of a range lies inside a surrogate pair, exactly the units of the range are
deleted (`deleteRange_gone`).
-/

namespace YCollab.Crdt

variable {d d' : Doc} {it it' : Item} {x : ID}

namespace Doc

/-- `d'` is `d` after some cuts, deletions of items, and changes to what is to be deleted later. -/
inductive Edits (d : Doc) : Doc → Prop
  | refl : Edits d d
  | split {d₁ : Doc} {it : Item} {A B : List Struct} {k : ℕ} {hc tc : Content} : Edits d d₁ →
      d₁.store.structs it.id.client = A ++ .item it :: B → it.content.splice k = .ok (hc, tc) →
      0 < k → k < it.len → Edits d (d₁.replace it (it.head hc) (it.tail k tc) A.length)
  | delete {d₁ : Doc} {it : Item} : Edits d d₁ → d₁.Stored it → Edits d (d₁.deleteItem it.id)
  | held {d₁ : Doc} (ds : DeleteSet) : Edits d d₁ → Edits d { d₁ with pendingDeletes := ds }

theorem Edits.trans {d'' : Doc} (h : Edits d d') (h' : Edits d' d'') : Edits d d'' := by
  induction h' with
  | refl => exact h
  | split _ hs hsplice h0 hk ih => exact ih.split hs hsplice h0 hk
  | delete _ hst ih => exact ih.delete hst
  | held ds _ ih => exact ih.held ds

/-- `d'` has the clocks of `d`, in the same items or pieces of them, with nothing undeleted. -/
structure Marks (d d' : Doc) : Prop where
  gapless : d'.store.Gapless
  state : ∀ c, d'.state c = d.state c
  gone : ∀ x, d.Gone x → d'.Gone x
  starts : ∀ c, ∀ st ∈ d.store.structs c, ∃ st' ∈ d'.store.structs c, st'.id = st.id
  pieces : ∀ it', d'.Stored it' → ∃ it, d.Stored it ∧ it.Piece it'
  gcs : ∀ c id n, .gc id n ∈ d'.store.structs c ↔ .gc id n ∈ d.store.structs c
  pending : d'.pending = d.pending

theorem Marks.trans {d'' : Doc} (h : Marks d d') (h' : Marks d' d'') : Marks d d'' where
  gapless := h'.gapless
  state c := (h'.state c).trans (h.state c)
  gone x hx := h'.gone x (h.gone x hx)
  starts c st hm := by
    obtain ⟨st', hm', hid⟩ := h.starts c st hm
    obtain ⟨st'', hm'', hid'⟩ := h'.starts c st' hm'
    exact ⟨st'', hm'', hid'.trans hid⟩
  pieces it'' hst := by
    obtain ⟨it', hst', hp'⟩ := h'.pieces it'' hst
    obtain ⟨it, hst, hp⟩ := h.pieces it' hst'
    exact ⟨it, hst, hp.trans hp'⟩
  gcs c id n := (h'.gcs c id n).trans (h.gcs c id n)
  pending := h'.pending.trans h.pending

theorem Cuts.marks (h : Cuts d d') : Marks d d' where
  gapless := h.gapless
  state := h.state
  gone x := (h.gone x).2
  starts := h.starts
  pieces := h.pieces
  gcs := h.gcs
  pending := h.pending

/-- Deleting an item adds its units to what is deleted. -/
theorem gone_deleteItem (hg : d.store.Gapless) (hst : d.Stored it) :
    (d.deleteItem it.id).Gone x ↔ d.Gone x ∨ x ∈ it.units := by
  have hflag : ∀ st, (d.deleteItem it.id).structDeleted st = true ↔
      d.structDeleted st = true ∨ ∃ it', st = .item it' ∧ it'.id = it.id := by
    intro st
    cases st with
    | item it' =>
      simp only [structDeleted, deleteItem, Function.update_apply, Struct.item.injEq]
      split
      next h => exact iff_of_true rfl (.inr ⟨it', rfl, h⟩)
      next h =>
        refine (or_iff_left ?_).symm
        rintro ⟨_, rfl, h'⟩
        exact h h'
    | _ => simp [structDeleted]
  unfold Gone
  constructor
  · rintro ⟨st, hm, h1, h2, h3⟩
    rcases (hflag st).1 h3 with h3 | ⟨it', rfl, hid⟩
    · exact .inl ⟨st, hm, h1, h2, h3⟩
    · have hst' : d.Stored it' := .of_mem hg hm
      obtain rfl := hst'.unique hst hg (hst'.id_mem_units hg) (hid ▸ hst.id_mem_units hg)
      exact .inr (Item.mem_units.2 ⟨(hg.client_eq hm).symm, h1, h2⟩)
  · rintro (⟨st, hm, h1, h2, h3⟩ | hx)
    · exact ⟨st, hm, h1, h2, (hflag st).2 (.inl h3)⟩
    · obtain ⟨hc, h1, h2⟩ := Item.mem_units.1 hx
      exact ⟨.item it, hc ▸ hst, h1, h2, (hflag _).2 (.inr ⟨it, rfl, rfl⟩)⟩

theorem Edits.marks (h : Edits d d') (hg : d.store.Gapless) : Marks d d' := by
  induction h with
  | refl => exact (Cuts.refl hg).marks
  | split _ hs hsplice h0 hk ih =>
    exact ih.trans (cuts_replace ih.gapless hs hsplice h0 hk).marks
  | @delete d₁ it _ hst ih =>
    refine ih.trans ⟨ih.gapless, fun _ => rfl, fun x hx => ?_, fun c st hm => ⟨st, hm, rfl⟩,
      fun it' h => ⟨it', h, .refl⟩, fun _ _ _ => Iff.rfl, rfl⟩
    exact (gone_deleteItem ih.gapless hst).2 (.inl hx)
  | held ds _ ih => exact ⟨ih.gapless, ih.state, ih.gone, ih.starts, ih.pieces, ih.gcs, ih.pending⟩

/-! ### The loops -/

theorem exists_append_of_getElem? {l : List Struct} {i : ℕ} {st : Struct} (h : l[i]? = some st) :
    ∃ A B, l = A ++ st :: B ∧ A.length = i := by
  obtain ⟨hi, rfl⟩ := List.getElem?_eq_some_iff.1 h
  exact ⟨l.take i, l.drop (i + 1), by simp, by simp; omega⟩

variable {A B : List Struct} {c : ℕ} {idx k : ℕ}

theorem splitItem_spec (hg : d.store.Gapless) (hi : (d.store.structs c)[idx]? = some (.item it))
    {head tail : Item} (h : d.splitItem it k idx = .ok (d', head, tail)) :
    ∃ A B hc tc, d.store.structs it.id.client = A ++ .item it :: B ∧ A.length = idx ∧
      it.content.splice k = .ok (hc, tc) ∧ head = it.head hc ∧ tail = it.tail k tc ∧
      d' = d.replace it (it.head hc) (it.tail k tc) A.length := by
  obtain ⟨A, B, hs, rfl⟩ := exists_append_of_getElem? hi
  obtain ⟨hc, tc, hsplice, rfl, rfl, rfl⟩ := splitItem_ok h
  have hm : Struct.item it ∈ d.store.structs c := by simp [hs]
  have hcl : it.id.client = c := hg.client_eq hm
  exact ⟨A, B, hc, tc, hcl ▸ hs, rfl, hsplice, rfl, rfl, rfl⟩

/-- `d'` is `d` after some cuts and deletions, with what is to be deleted later as it was. -/
structure Trims (d d' : Doc) : Prop where
  edits : Edits d d'
  pendingDeletes : d'.pendingDeletes = d.pendingDeletes

theorem Trims.refl : Trims d d := ⟨.refl, rfl⟩

theorem Trims.trans {d'' : Doc} (h : Trims d d') (h' : Trims d' d'') : Trims d d'' :=
  ⟨h.edits.trans h'.edits, h'.pendingDeletes.trans h.pendingDeletes⟩

theorem trims_cut (hs : d.store.structs it.id.client = A ++ .item it :: B) {n : ℕ}
    {head tail : Item} (h : d.splitItem it k n = .ok (d', head, tail)) (hn : n = A.length)
    (h0 : 0 < k) (hk : k < it.len) : Trims d d' := by
  obtain ⟨hc, tc, hsplice, rfl, -, -⟩ := splitItem_ok h
  exact ⟨hn ▸ Edits.refl.split hs hsplice h0 hk, rfl⟩

theorem trims_cleanStart (hg : d.store.Gapless) (h : d.getItemCleanStart x = .ok (d', it)) :
    Trims d d' := by
  unfold getItemCleanStart at h
  obtain ⟨it', A, B, hs, hx, h⟩ := item_of_lookup hg h
  obtain ⟨-, hlo, hhi⟩ := Item.mem_units.1 hx
  simp only at h
  split at h
  next =>
    cases h
    exact .refl
  next h0 =>
    split at h
    next => cases h
    next d'' head right hsplit =>
      cases h
      exact trims_cut hs hsplit rfl (Nat.pos_of_ne_zero h0) (by omega)

theorem trims_cleanEnd (hg : d.store.Gapless) (h : d.getItemCleanEnd x = .ok (d', it)) :
    Trims d d' := by
  unfold getItemCleanEnd at h
  obtain ⟨it', A, B, hs, hx, h⟩ := item_of_lookup hg h
  obtain ⟨-, hlo, hhi⟩ := Item.mem_units.1 hx
  simp only at h
  split at h
  next =>
    cases h
    exact .refl
  next h0 =>
    split at h
    next => cases h
    next d'' head right hsplit =>
      cases h
      exact trims_cut hs hsplit rfl (Nat.succ_pos _) (by omega)

theorem deleteLoop_of_ge {st : Struct} {c toClock idx : ℕ} (fuel : ℕ)
    (hi : (d.store.structs c)[idx]? = some st) (hge : st.id.clock ≥ toClock) :
    deleteLoop c toClock fuel idx d = d := by
  cases fuel with
  | zero => rfl
  | succ fuel => simp [deleteLoop, hi, hge]

/-- What one turn of the loop of `deleteRange` makes of the struct it is at, with what the whole
loop returns: it stops behind the range; it passes by what is deleted, and an item that would have
to be cut inside a pair; it deletes an item that ends in the range; and it cuts the last one. -/
inductive DeleteTurn (d : Doc) (c toClock fuel idx : ℕ) : Struct → Doc → Prop
  | stop {st : Struct} : toClock ≤ st.id.clock → DeleteTurn d c toClock fuel idx st d
  | gone {st : Struct} : st.id.clock < toClock → d.structDeleted st = true →
      DeleteTurn d c toClock fuel idx st (deleteLoop c toClock fuel (idx + 1) d)
  | leftOut {it : Item} : it.id.clock < toClock → d.deleted it.id = false →
      toClock < it.id.clock + it.len → it.content.lowAt (toClock - it.id.clock) = true →
      DeleteTurn d c toClock fuel idx (.item it) (deleteLoop c toClock fuel (idx + 1) d)
  | whole {it : Item} : d.deleted it.id = false → it.id.clock + it.len ≤ toClock →
      DeleteTurn d c toClock fuel idx (.item it)
        (deleteLoop c toClock fuel (idx + 1) (d.deleteItem it.id))
  | head {it : Item} {hc tc : Content} : it.id.clock < toClock → d.deleted it.id = false →
      toClock < it.id.clock + it.len → it.content.splice (toClock - it.id.clock) = .ok (hc, tc) →
      DeleteTurn d c toClock fuel idx (.item it)
        ((d.replace it (it.head hc) (it.tail (toClock - it.id.clock) tc) idx).deleteItem it.id)

theorem deleteTurn (hg : d.store.Gapless) {c : ℕ} {A B : List Struct} {st : Struct}
    (hs : d.store.structs c = A ++ st :: B) (toClock fuel : ℕ) :
    DeleteTurn d c toClock fuel A.length st (deleteLoop c toClock (fuel + 1) A.length d) := by
  have hi : (d.store.structs c)[A.length]? = some st := by simp [hs]
  have hm : st ∈ d.store.structs c := by simp [hs]
  by_cases hge : toClock ≤ st.id.clock
  · rw [deleteLoop_of_ge _ hi hge]
    exact .stop hge
  rw [deleteLoop]
  simp only [hi, ge_iff_le, if_neg hge]
  have hlt := Nat.lt_of_not_le hge
  cases st with
  | skip id n =>
    obtain ⟨-, -, -, hskip, -⟩ := (hs ▸ hg.run c).split
    cases hskip
  | gc id n => exact .gone hlt rfl
  | item it =>
    simp only
    have hcl : it.id.client = c := hg.client_eq hm
    cases hdel : d.deleted it.id with
    | true => exact .gone hlt hdel
    | false =>
      simp only [Bool.false_eq_true, if_false]
      by_cases hend : it.id.clock + it.len > toClock
      · rw [if_pos hend]
        have hlt' : it.id.clock < toClock := hlt
        have hk : toClock - it.id.clock < it.len := by omega
        unfold splitItem
        cases hsplice : it.content.splice (toClock - it.id.clock) with
        | error e =>
          refine .leftOut hlt' hdel hend (Bool.eq_false_imp_eq_true.1 fun hlow => ?_)
          obtain ⟨hc, tc, hok⟩ := Content.splice_isOk (by omega) hk hlow
          rw [hsplice] at hok
          cases hok
        | ok r =>
          -- what is cut off starts behind the range, so the loop ends there
          obtain ⟨hc, tc⟩ := r
          have hs' : d.store.structs it.id.client = A ++ .item it :: B := hcl ▸ hs
          have hi' : (((d.replace it (it.head hc) (it.tail (toClock - it.id.clock) tc)
              A.length).deleteItem it.id).store.structs c)[A.length + 1]? =
              some (.item (it.tail (toClock - it.id.clock) tc)) := by
            simp only [deleteItem, structs_replace hs' c, if_pos hcl.symm]
            simp
          simp only
          rw [deleteLoop_of_ge _ hi'
            (by simp only [Struct.id_item, Item.tail_id, Item.unit]; omega)]
          exact .head hlt' hdel hend hsplice
      · rw [if_neg hend]
        exact .whole hdel (Nat.le_of_not_lt hend)

theorem trims_deleteLoop (hg : d.store.Gapless) (c toClock fuel idx : ℕ) :
    Trims d (deleteLoop c toClock fuel idx d) := by
  induction fuel generalizing d idx with
  | zero => exact .refl
  | succ fuel ih =>
    cases hi : (d.store.structs c)[idx]? with
    | none => simpa only [deleteLoop, hi] using Trims.refl
    | some st =>
      obtain ⟨A, B, hs, rfl⟩ := exists_append_of_getElem? hi
      have hm : st ∈ d.store.structs c := List.mem_of_getElem? hi
      have hturn := deleteTurn hg hs toClock fuel
      generalize deleteLoop c toClock (fuel + 1) A.length d = e at hturn ⊢
      cases hturn with
      | stop => exact .refl
      | gone => exact ih hg _
      | leftOut => exact ih hg _
      | @whole it =>
        have hdel : Trims d (d.deleteItem it.id) := ⟨Edits.refl.delete (.of_mem hg hm), rfl⟩
        exact hdel.trans (ih (hdel.edits.marks hg).gapless _)
      | @head it hc tc hlt _ hend hsplice =>
        have hs' : d.store.structs it.id.client = A ++ .item it :: B := hg.client_eq hm ▸ hs
        have hcut := Edits.refl.split hs' hsplice (by omega) (by omega)
        have hdel := @Edits.delete d _ (it.head hc) hcut
        exact ⟨hdel ((stored_replace hg hs').2 (.inr (.inl rfl))), rfl⟩

theorem trims_splitBefore (hg : d.store.Gapless) (x : ID) : Trims d (d.splitBefore x) := by
  unfold splitBefore
  split
  next d' it h => exact trims_cleanStart hg h
  next => exact .refl

theorem trims_deleteRange (hg : d.store.Gapless) (c fromClock toClock : ℕ) :
    Trims d (d.deleteRange c fromClock toClock) := by
  unfold deleteRange
  split
  next => exact .refl
  next =>
    have hclean := trims_splitBefore hg ⟨c, fromClock⟩
    simp only
    split
    next => exact hclean
    next idx _ => exact hclean.trans (trims_deleteLoop (hclean.edits.marks hg).gapless ..)

theorem edits_applyRange (hg : d.store.Gapless) (c state : ℕ) (r : DeleteRange) :
    Edits d (applyRange c state d r) := by
  unfold applyRange
  split
  next => exact .held _ .refl
  next =>
    split
    next =>
      have hheld := Edits.held (DeleteSet.add d.pendingDeletes c state (r.endClock - state))
        (Edits.refl (d := d))
      exact hheld.trans (trims_deleteRange (hheld.marks hg).gapless ..).edits
    next => exact (trims_deleteRange hg ..).edits

theorem edits_ranges (hg : d.store.Gapless) (c state : ℕ) (rs : List DeleteRange) :
    Edits d (rs.foldl (applyRange c state) d) := by
  induction rs generalizing d with
  | nil => exact .refl
  | cons r rs ih =>
    have hr := edits_applyRange hg c state r
    exact hr.trans (ih (hr.marks hg).gapless)

theorem edits_applyDeleteSet (hg : d.store.Gapless) (ds : DeleteSet) :
    Edits d (d.applyDeleteSet ds) := by
  unfold applyDeleteSet
  induction ds.entries generalizing d with
  | nil => exact .refl
  | cons e es ih =>
    have he := edits_ranges hg e.1 (d.state e.1) e.2
    exact he.trans (ih (he.marks hg).gapless)

/-! ### What a range deletes -/

/-- The unit is the low half of a pair: the item that holds it cannot be cut before it. -/
def LowAt (d : Doc) (x : ID) : Prop :=
  ∃ it, d.Stored it ∧ x ∈ it.units ∧ it.content.lowAt (x.clock - it.id.clock) = true

theorem Marks.lowAt (h : Marks d d') (hx : ¬d.LowAt x) : ¬d'.LowAt x := by
  rintro ⟨it', hst', hm, hlow⟩
  obtain ⟨it, hst, hp⟩ := h.pieces it' hst'
  obtain ⟨hm', hlow'⟩ := hp.low hm
  exact hx ⟨it, hst, hm', hlow'.symm.trans hlow⟩

/-- The unit can be looked up. -/
def isLow (d : Doc) (x : ID) : Bool :=
  match d.itemAt x with
  | some it => it.content.lowAt (x.clock - it.id.clock)
  | none => false

theorem lowAt_iff_isLow (hg : d.store.Gapless) : d.LowAt x ↔ d.isLow x = true := by
  unfold isLow
  constructor
  · rintro ⟨it, hst, hx, hlow⟩
    rwa [hst.itemAt hg hx]
  · intro h
    split at h
    next it hit =>
      obtain ⟨hst, hx⟩ := stored_of_itemAt hg hit
      exact ⟨it, hst, hx, h⟩
    next => cases h

theorem Stored.lowAt_iff (hst : d.Stored it) (hg : d.store.Gapless) (hx : x ∈ it.units) :
    d.LowAt x ↔ it.content.lowAt (x.clock - it.id.clock) = true := by
  rw [lowAt_iff_isLow hg, isLow, hst.itemAt hg hx]

theorem cleanStart_isOk (hg : d.store.Gapless) (hst : d.Stored it) (hx : x ∈ it.units) :
    (∃ d' it', d.getItemCleanStart x = .ok (d', it')) ↔ ¬d.LowAt x := by
  obtain ⟨hcl, hlo, hhi⟩ := Item.mem_units.1 hx
  obtain ⟨A, B, hs⟩ := List.append_of_mem hst
  have hs' : d.store.structs x.client = A ++ .item it :: B := hcl ▸ hs
  have hi : (d.store.structs x.client)[A.length]? = some (.item it) := by simp [hs']
  rw [hst.lowAt_iff hg hx, Bool.not_eq_true, getItemCleanStart, hg.find_eq hs' hlo hhi]
  simp only [hi]
  split
  next h0 => simp [h0, Content.lowAt_zero]
  next h0 =>
    rw [← Content.splice_isOk_iff (Nat.pos_of_ne_zero h0) (show _ < it.len by omega), splitItem]
    cases it.content.splice (x.clock - it.id.clock) with
    | error e => simp
    | ok r => exact ⟨fun _ => ⟨r.1, r.2, rfl⟩, fun _ => ⟨_, _, rfl⟩⟩

/-- An item can be cut behind a unit unless that is inside a pair. -/
theorem cleanEnd_isOk (hg : d.store.Gapless) (hst : d.Stored it) (hx : x ∈ it.units) :
    (∃ d' it', d.getItemCleanEnd x = .ok (d', it')) ↔ ¬d.LowAt x.next := by
  obtain ⟨hcl, hlo, hhi⟩ := Item.mem_units.1 hx
  obtain ⟨A, B, hs⟩ := List.append_of_mem hst
  have hs' : d.store.structs x.client = A ++ .item it :: B := hcl ▸ hs
  have hi : (d.store.structs x.client)[A.length]? = some (.item it) := by simp [hs']
  rw [getItemCleanEnd, hg.find_eq hs' hlo hhi]
  simp only [hi]
  split
  next hend =>
    -- what comes behind the item starts with a whole character
    refine ⟨fun _ => ?_, fun _ => ⟨_, _, rfl⟩⟩
    rintro ⟨c, hc, hxc, hlow⟩
    obtain ⟨hcl', hlo', hhi'⟩ := Item.mem_units.1 hxc
    simp only [ID.next] at hcl' hlo' hhi' hlow
    rcases Nat.eq_or_lt_of_le hlo' with heq | hlt
    · rw [heq, Nat.sub_self, Content.lowAt_zero] at hlow
      cases hlow
    · obtain rfl := hc.unique hst hg (Item.mem_units.2 ⟨hcl', by omega, by omega⟩) hx
      omega
  next hend =>
    have hnext : x.next ∈ it.units :=
      Item.mem_units.2 ⟨hcl, Nat.le_succ_of_le hlo, by simp only [ID.next]; omega⟩
    have hoff : x.next.clock - it.id.clock = x.clock - it.id.clock + 1 := by
      simp only [ID.next]
      omega
    rw [hst.lowAt_iff hg hnext, Bool.not_eq_true, hoff,
      ← Content.splice_isOk_iff (Nat.succ_pos _) (show _ < it.len by omega), splitItem]
    cases it.content.splice (x.clock - it.id.clock + 1) with
    | error e => simp
    | ok r => exact ⟨fun _ => ⟨r.1, r.2, rfl⟩, fun _ => ⟨_, _, rfl⟩⟩

/-- The unit is the low half of a pair that is live. -/
def LivePair (d : Doc) (x : ID) : Prop := d.LowAt x ∧ ¬d.Gone x

theorem Marks.livePair (h : Marks d d') (hx : ¬d.LivePair x) : ¬d'.LivePair x :=
  fun ⟨hlow, hlive⟩ => hx ⟨not_imp_not.1 h.lowAt hlow, fun hgone => hlive (h.gone x hgone)⟩

theorem deleteLoop_gone (hg : d.store.Gapless) {c toClock : ℕ} {A B : List Struct}
    (hs : d.store.structs c = A ++ B) (hlow : ¬d.LivePair ⟨c, toClock⟩) {fuel : ℕ}
    (hfuel : B.length < fuel) :
    (deleteLoop c toClock fuel A.length d).Gone x ↔ d.Gone x ∨ x.client = c ∧ x.clock < toClock ∧
      ∃ st ∈ B, st.id.clock ≤ x.clock ∧ x.clock < st.endClock := by
  induction fuel generalizing d A B with
  | zero => omega
  | succ fuel ih =>
    cases B with
    | nil => simp [deleteLoop, hs]
    | cons st B =>
      have hrun := hs ▸ hg.run c
      have hm : st ∈ d.store.structs c := by simp [hs]
      have hcl : st.id.client = c := hg.client_eq hm
      have hB : ∀ st' ∈ B, st.endClock ≤ st'.id.clock := fun st' h => hrun.le_clock h
      -- the rest of the loop, once the units of `st` are accounted for
      have hnext : ∀ {d' : Doc}, d'.store.Gapless → d'.store.structs c = A ++ st :: B →
          ¬d'.LivePair ⟨c, toClock⟩ →
          (∀ y, d'.Gone y ↔ d.Gone y ∨ y.client = c ∧ y.clock < toClock ∧
            st.id.clock ≤ y.clock ∧ y.clock < st.endClock) →
          ((deleteLoop c toClock fuel (A.length + 1) d').Gone x ↔
            d.Gone x ∨ x.client = c ∧ x.clock < toClock ∧
              ∃ st' ∈ st :: B, st'.id.clock ≤ x.clock ∧ x.clock < st'.endClock) := by
        intro d' hg' hs' hlow' hgone
        have := ih (A := A ++ [st]) hg' (by simpa using hs') hlow' (by simpa using hfuel)
        rw [List.length_append, List.length_singleton] at this
        rw [this, hgone]
        simp only [List.mem_cons, exists_eq_or_imp, and_or_left, or_assoc]
      generalize hloop : deleteLoop c toClock (fuel + 1) A.length d = e
      have hturn := deleteTurn hg hs toClock fuel
      rw [hloop] at hturn
      cases hturn with
      | stop hge =>
        refine (or_iff_left ?_).symm
        rintro ⟨-, hlt, st', hst', h1, -⟩
        rcases List.mem_cons.1 hst' with rfl | hst'
        · omega
        · have := hB st' hst'
          unfold Struct.endClock at this
          omega
      | gone _ hdel =>
        exact hnext hg hs hlow fun y =>
          (or_iff_left_of_imp fun h => ⟨st, h.1 ▸ hm, h.2.2.1, h.2.2.2, hdel⟩).symm
      | @leftOut it hlt hdel hend hl =>
        have hst : d.Stored it := .of_mem hg hm
        have hx : (⟨c, toClock⟩ : ID) ∈ it.units := Item.mem_units.2 ⟨hcl.symm, hlt.le, hend⟩
        exact absurd ⟨⟨it, hst, hx, hl⟩, fun hgone => by
          rw [(hst.gone_iff hg hx).1 hgone] at hdel
          cases hdel⟩ hlow
      | @whole it hdel hend =>
        have hst : d.Stored it := .of_mem hg hm
        have hmarks := (Edits.refl.delete hst).marks hg
        refine hnext hmarks.gapless hs (hmarks.livePair hlow) fun y => ?_
        simp only [Struct.id_item, Struct.endClock_item] at hcl ⊢
        rw [gone_deleteItem hg hst, Item.mem_units, hcl]
        exact or_congr_right ⟨fun h => ⟨h.1, by omega, h.2⟩, fun h => ⟨h.1, h.2.2⟩⟩
      | @head it hc tc hlt hdel hend hsplice =>
        simp only [Struct.id_item, Struct.endClock_item] at hcl hB
        have hk : toClock - it.id.clock < it.len := by omega
        have hcut := Content.splice_cut hsplice hk.le
        have hs' : d.store.structs it.id.client = A ++ .item it :: B := hcl ▸ hs
        have hg' := (cuts_replace hg hs' hsplice (by omega) hk).gapless
        have hhead : (d.replace it (it.head hc) (it.tail (toClock - it.id.clock) tc)
            A.length).Stored (it.head hc) := (stored_replace hg hs').2 (.inr (.inl rfl))
        have hgone := gone_deleteItem hg' hhead (x := x)
        rw [Item.head_id] at hgone
        rw [hgone, gone_replace hg hs' hcut (by omega) hk, Item.mem_units, Item.len_head hcut]
        refine or_congr_right ?_
        simp only [Item.head_id, hcl]
        constructor
        · rintro ⟨h1, h2, h3⟩
          exact ⟨h1, by omega, _, List.mem_cons_self, h2, by rw [Struct.endClock_item]; omega⟩
        · rintro ⟨h1, h2, st', hst', h3, h4⟩
          rcases List.mem_cons.1 hst' with rfl | hst'
          · exact ⟨h1, h3, by omega⟩
          · have := hB st' hst'
            omega

/-- After a split in front of a unit, a struct starts there, or the unit is garbage. -/
theorem splitBefore_spec (hg : d.store.Gapless) (hx : d.Has x) (hlow : ¬d.LivePair x) :
    Cuts d (d.splitBefore x) ∧ ∃ A st B, (d.splitBefore x).store.structs x.client = A ++ st :: B ∧
      st.id.clock ≤ x.clock ∧ x.clock < st.endClock ∧
      (st.id.clock = x.clock ∨ (d.splitBefore x).structDeleted st = true) := by
  unfold splitBefore
  obtain ⟨A, st, B, hs, hlo, hhi⟩ := hg.exists_cover hx
  have hf := hg.find_eq hs hlo hhi
  have hi : (d.store.structs x.client)[A.length]? = some st := by simp [hs]
  have hm : st ∈ d.store.structs x.client := by simp [hs]
  cases st with
  | skip id n =>
    obtain ⟨-, -, -, hskip, -⟩ := (hs ▸ hg.run x.client).split
    cases hskip
  | gc id n =>
    have hclean : d.getItemCleanStart x = .error .missingStruct := by
      simp [getItemCleanStart, hf, hi]
    rw [hclean]
    exact ⟨.refl hg, A, _, B, hs, hlo, hhi, .inr rfl⟩
  | item it =>
    have hst : d.Stored it := .of_mem hg hm
    have hcl : it.id.client = x.client := hg.client_eq hm
    simp only [Struct.id_item, Struct.endClock_item] at hlo hhi
    have hxm : x ∈ it.units := Item.mem_units.2 ⟨hcl.symm, hlo, hhi⟩
    by_cases hl : d.LowAt x
    · -- the item cannot be cut, but it is deleted
      have hgone : d.Gone x := not_not.1 fun hlive => hlow ⟨hl, hlive⟩
      cases hclean : d.getItemCleanStart x with
      | ok r => exact absurd hl ((cleanStart_isOk hg hst hxm).1 ⟨r.1, r.2, hclean⟩)
      | error e =>
        exact ⟨.refl hg, A, .item it, B, hs, hlo, hhi, .inr ((hst.gone_iff hg hxm).1 hgone)⟩
    obtain ⟨d', it', hclean⟩ := (cleanStart_isOk hg hst hxm).2 hl
    obtain ⟨hc, hid⟩ := cleanStart_ok hg hclean
    obtain ⟨hcl', h1, h2⟩ := Item.mem_units.1 hc.mem
    obtain ⟨A', B', hs'⟩ := List.append_of_mem hc.stored
    rw [hclean]
    exact ⟨hc.cuts, A', .item it', B', hcl' ▸ hs', h1, h2, .inl (by rw [← hid]; rfl)⟩

/-- **A range with no boundary inside a live pair deletes its units**, and nothing else. -/
theorem deleteRange_gone (hg : d.store.Gapless) {c a b : ℕ}
    (hcut : a < b → ¬d.LivePair ⟨c, a⟩ ∧ ¬d.LivePair ⟨c, b⟩) (hle : b ≤ d.state c) :
    (d.deleteRange c a b).Gone x ↔ d.Gone x ∨ x.client = c ∧ a ≤ x.clock ∧ x.clock < b := by
  unfold deleteRange
  split
  next hba =>
    refine (or_iff_left ?_).symm
    rintro ⟨-, h1, h2⟩
    omega
  next hab =>
    have hhas : d.Has ⟨c, a⟩ := by
      unfold Has
      simp only
      omega
    obtain ⟨ha, hb⟩ := hcut (Nat.lt_of_not_le hab)
    obtain ⟨hcuts, A, st, B, hs, hlo, hhi, hst⟩ := splitBefore_spec hg hhas ha
    set d' := d.splitBefore ⟨c, a⟩
    have hg' := hcuts.gapless
    have hrun := hs ▸ hg'.run c
    simp only [hg'.find_eq hs hlo hhi]
    rw [deleteLoop_gone hg' (A := A) hs (hcuts.marks.livePair hb) (by simp [hs]; omega), hcuts.gone]
    simp only at hlo hhi hst
    constructor
    · rintro (h | ⟨h1, h2, st', hst', h3, h4⟩)
      · exact .inl h
      · have hm' : st' ∈ d'.store.structs x.client := by
          rw [h1, hs]
          exact List.mem_append_right _ hst'
        by_cases hax : a ≤ x.clock
        · exact .inr ⟨h1, hax, h2⟩
        · -- before the boundary there is only what is gone already
          rcases List.mem_cons.1 hst' with rfl | hst'
          · rcases hst with hst | hst
            · omega
            · exact .inl ((hcuts.gone x).1 ⟨st', hm', h3, h4, hst⟩)
          · have := hrun.le_clock hst'
            omega
    · rintro (h | ⟨h1, h2, h3⟩)
      · exact .inl h
      · right
        have hx : d'.Has x := by
          rw [hcuts.has]
          unfold Has
          rw [h1]
          omega
        obtain ⟨A', st', B', hs', h4, h5⟩ := hg'.exists_cover hx
        have hm' : st' ∈ A ++ st :: B := by
          rw [← hs]
          simp only at h1 ⊢
          rw [← h1, hs']
          simp
        refine ⟨h1, h3, st', (List.mem_append.1 hm').resolve_left fun hA => ?_, h4, h5⟩
        have := hrun.endClock_le hA
        omega

end Doc

end YCollab.Crdt
