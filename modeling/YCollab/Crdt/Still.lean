import YCollab.Crdt.Contains

/-!
# Updates that bring no clock

What applying an update does when no clock of it is new to the document: structs that had their turns
held nothing new or were dropped, what is held back waits as before, and a delete set that names
nothing live only cuts items. None of this shows to a reader (`Doc.Regular.still`).
-/

namespace YCollab.Crdt

namespace Doc

variable {d d' : Doc} {it : Item} {st : Struct} {l : List Struct} {u : Update} {us : List Update}
  {x : ID} {ds : DeleteSet}

/-! ### Turns -/

/-- Nothing of the struct would be stored if it had its turn. -/
def Idle (d : Doc) (st : Struct) : Prop := d.Done st ∨ d.Drops st ∧ ¬d.Blocked st

theorem Done.not_blocked (h : d.Done st) : ¬d.Blocked st := by
  cases st with
  | skip id n => exact fun hb => hb
  | gc id n =>
    rcases h with hskip | hle
    · cases hskip
    · simp only [Struct.endClock, Struct.id_gc, Struct.len_gc] at hle
      simp only [Blocked]
      omega
  | item it =>
    rcases h with hskip | hle
    · cases hskip
    · simp only [Struct.endClock_item, Struct.id_item] at hle
      rintro (hlt | ⟨hlt, -⟩)
      · omega
      · omega

theorem Idle.not_blocked (h : d.Idle st) : ¬d.Blocked st := h.elim Done.not_blocked And.right

/-- Turns after which no clock is new only cut items. -/
theorem Moves.still (h : Moves d l d') (hg : d.store.Gapless) (hs : ∀ c, d'.state c = d.state c) :
    Cuts d d' ∧ Edits d d' ∧ ∀ st ∈ l, d.Idle st := by
  induction h with
  | nil => exact ⟨.refl hg, .refl, by simp⟩
  | @step l st d₁ d₂ hm hst ih =>
    have hg₁ := hm.gapless hg
    -- no clock is new after the turns before either
    have hs₁ : ∀ c, d₁.state c = d.state c := fun c =>
      le_antisymm (((turn_of_integrateHead hg₁ hst).state_mono hg₁ c).trans (hs c).le)
        (hm.state_mono hg c)
    obtain ⟨hc, he, hl⟩ := ih hs₁
    have hturn : ¬d.Blocked st := by
      rw [← blocked_congr hs₁, ← integrateHead_eq_none, hst]
      simp
    have hl' : ∀ {P : Struct → Prop}, (∀ s ∈ l, P s) → P st → ∀ s ∈ l ++ [st], P s := by
      intro P h h' s hm
      rcases List.mem_append.1 hm with hm | hm
      · exact h s hm
      · exact List.mem_singleton.1 hm ▸ h'
    rcases outcome hg₁ hst with ⟨hdone, rfl⟩ | ⟨hnot, -, hdone⟩ | ⟨hdrop, hc', he'⟩
    · exact ⟨hc, he, hl' hl (.inl ((done_congr hs₁).1 hdone))⟩
    · exact absurd ((done_congr fun c => (hs₁ c).trans (hs c).symm).2 hdone) hnot
    · exact ⟨hc.trans hc', he.trans he', hl' hl (.inr ⟨(hc.drops hg).1 hdrop, hturn⟩)⟩

theorem Moves.state_eq (h : Moves d l d') (hg : d.store.Gapless) (hl : ∀ st ∈ l, d.Idle st) (c : ℕ) :
    d'.state c = d.state c := by
  induction h generalizing c with
  | nil => rfl
  | @step l st d₁ d₂ hm hst ih =>
    have hs₁ := ih fun s hm => hl s (List.mem_append_left _ hm)
    obtain ⟨hc, -, -⟩ := hm.still hg hs₁
    have hst' := hl st (by simp)
    rcases outcome (hm.gapless hg) hst with ⟨-, rfl⟩ | ⟨hnot, hdrop, -⟩ | ⟨-, hc', -⟩
    · exact hs₁ c
    · rcases hst' with hdone | ⟨hd, -⟩
      · exact absurd ((done_congr hs₁).2 hdone) hnot
      · exact absurd ((hc.drops hg).2 hd) hdrop
    · rw [hc'.state, hs₁]

/-! ### What is held back waits as before -/

theorem pass_of_waiting {qs : List (ℕ × List Struct)} (h : d.Waiting qs) :
    d.pass qs = (d, qs, false) := by
  induction qs with
  | nil => rfl
  | cons p qs ih =>
    obtain ⟨c, q⟩ := p
    have hdrain : d.drain q = (d, q, false) := by
      cases q with
      | nil => rfl
      | cons head q =>
        have hnone : d.integrateHead head = none :=
          integrateHead_eq_none.2 (h (c, head :: q) List.mem_cons_self head rfl)
        simp only [drain, hnone]
    simp only [pass, hdrain, ih fun p hp => h p (List.mem_cons_of_mem _ hp), Bool.or_false]

/-- An update that was held back, and has to wait, is held back as it is. -/
theorem integrate_of_blocked (hk : u.Kept)
    (hb : ∀ b ∈ u.clients, ∀ st ∈ b.structs.head?, d.Blocked st) :
    d.integrate u = { d with pending := d.pending ++ [u] } := by
  have hgather := gather_of_neat hk.neat
  have hwait : d.Waiting (gather [] u.clients) := by
    rw [hgather]
    intro q hq
    obtain ⟨b, hbm, rfl⟩ := List.mem_map.1 hq
    exact hb b hbm
  have hloop : integrateLoop (queued (gather [] u.clients) + 1) d (gather [] u.clients) =
      (d, gather [] u.clients) := by
    simp [integrateLoop, pass_of_waiting hwait]
  have hblocks : blocksOf (gather [] u.clients) = u.clients := by
    rw [hgather, blocksOf, List.filterMap_map]
    refine (List.filterMap_congr fun b hbm => ?_).trans (List.filterMap_some ..)
    obtain ⟨client, startClock, structs⟩ := b
    cases structs with
    | nil => exact absurd rfl (hk.structs _ hbm)
    | cons s ss =>
      have hstart := hk.startClock _ hbm s rfl
      simp only at hstart
      simp [hstart]
  obtain ⟨clients, deletes⟩ := u
  have hdel : deletes = SortedMap.empty := hk.deletes
  subst hdel
  simp only [integrate, hloop, hblocks]
  cases hcl : clients with
  | nil => exact absurd hcl hk.ne_nil
  | cons b bs => rfl

theorem foldl_integrate_of_blocked (hk : ∀ u ∈ us, u.Kept)
    (hb : ∀ u ∈ us, ∀ b ∈ u.clients, ∀ st ∈ b.structs.head?, d.Blocked st) :
    us.foldl integrate d = { d with pending := d.pending ++ us } := by
  induction us generalizing d with
  | nil => simp
  | cons u us ih =>
    rw [List.foldl_cons, integrate_of_blocked (hk u (by simp)) (hb u (by simp))]
    refine (ih (d := { d with pending := d.pending ++ [u] })
      (fun v hv => hk v (List.mem_cons_of_mem _ hv)) fun v hv b hbm st hst =>
        (blocked_congr (d := d) fun _ => rfl).2 (hb v (List.mem_cons_of_mem _ hv) b hbm st hst)).trans ?_
    simp

theorem retryLoop_of_settled (hk : ∀ u ∈ d.pending, u.Kept) (hs : d.Settled) (fuel : ℕ) :
    retryLoop fuel d = d := by
  cases fuel with
  | zero => rfl
  | succ fuel =>
    have hfold : d.pending.foldl integrate { d with pending := [] } = d :=
      foldl_integrate_of_blocked (d := { d with pending := [] }) hk fun u hu b hbm st hst =>
        (blocked_congr (d := d) fun _ => rfl).2 (hs u hu b hbm st hst)
    rw [retryLoop]
    split
    next => rfl
    next => simp [hfold]

/-! ### What a range can still delete -/

theorem cuts_splitBefore (hg : d.store.Gapless) (x : ID) : Cuts d (d.splitBefore x) := by
  unfold splitBefore
  split
  next d' it h => exact (cleanStart_ok hg h).1.cuts
  next => exact .refl hg

/-- The unit lies in one item with the end of the range, which is inside a surrogate pair: the item
cannot be cut there, and is left out. -/
def LeftOut (d : Doc) (c toClock k : ℕ) : Prop :=
  d.LowAt ⟨c, toClock⟩ ∧
    ∃ it, d.Stored it ∧ (⟨c, k⟩ : ID) ∈ it.units ∧ (⟨c, toClock⟩ : ID) ∈ it.units

/-- Deleting the range would delete something: one of its units is live and not left out. -/
def Reaches (d : Doc) (c fromClock toClock : ℕ) : Prop :=
  ∃ k, fromClock ≤ k ∧ k < toClock ∧ d.Has ⟨c, k⟩ ∧ ¬d.Gone ⟨c, k⟩ ∧ ¬d.LeftOut c toClock k

/-- The loop goes past the struct: an item that starts before the end of the range is deleted, or
cannot be cut there. -/
def PassedBy (d : Doc) (c toClock : ℕ) (st : Struct) : Prop :=
  ∀ it, st = .item it → it.id.clock < toClock → d.deleted it.id = false →
    toClock < it.id.clock + it.len ∧ d.LowAt ⟨c, toClock⟩

/-- The loop deletes nothing exactly if it goes past all structs. -/
theorem deleteLoop_still_iff (hg : d.store.Gapless) {c toClock : ℕ} {A B : List Struct}
    (hs : d.store.structs c = A ++ B) {fuel : ℕ} (hfuel : B.length < fuel) :
    (∀ x, (deleteLoop c toClock fuel A.length d).Gone x → d.Gone x) ↔
      ∀ st ∈ B, d.PassedBy c toClock st := by
  induction fuel generalizing A B with
  | zero => omega
  | succ fuel ih =>
    cases B with
    | nil => simp [deleteLoop, hs]
    | cons st B =>
      have hm : st ∈ d.store.structs c := by simp [hs]
      have hcl : st.id.client = c := hg.client_eq hm
      have hnext := ih (A := A ++ [st]) (B := B) (by simpa using hs) (by simpa using hfuel)
      rw [List.length_append, List.length_singleton] at hnext
      -- where an item is deleted that was live, the loop does not go past it
      have hnew : ∀ {it : Item} {e : Doc}, st = .item it → d.deleted it.id = false → e.Gone it.id →
          ¬∀ x, e.Gone x → d.Gone x := fun {it e} heq hlive hgone hall => by
        have hst : d.Stored it := .of_mem hg (heq ▸ hm)
        rw [(hst.gone_iff hg (hst.id_mem_units hg)).1 (hall _ hgone)] at hlive
        cases hlive
      rw [List.forall_mem_cons]
      have hturn := deleteTurn hg hs toClock fuel
      generalize deleteLoop c toClock (fuel + 1) A.length d = e at hturn ⊢
      cases hturn with
      | stop hge =>
        refine iff_of_true (fun _ hx => hx) ⟨fun it heq hlt => ?_, fun st' hst' it heq hlt => ?_⟩
        · rw [heq] at hge
          exact absurd hlt (Nat.not_lt.2 hge)
        · have := (hs ▸ hg.run c).le_clock hst'
          rw [heq] at this
          simp only [Struct.endClock, Struct.id_item] at this
          omega
      | gone hlt hdel =>
        rw [hnext]
        refine (and_iff_right fun it heq _ hlive => ?_).symm
        rw [heq, structDeleted, hlive] at hdel
        cases hdel
      | @leftOut it hlt hdel hend hl =>
        rw [hnext]
        refine (and_iff_right fun it' heq _ _ => ?_).symm
        cases heq
        exact ⟨hend, it, .of_mem hg hm, Item.mem_units.2 ⟨hcl.symm, hlt.le, hend⟩, hl⟩
      | @whole it hdel hend =>
        have hst : d.Stored it := .of_mem hg hm
        have hdeleted := (Edits.refl.delete hst).marks hg
        refine iff_of_false (hnew rfl hdel (((trims_deleteLoop hdeleted.gapless ..).edits.marks
          hdeleted.gapless).gone _ ((gone_deleteItem hg hst).2 (.inr (hst.id_mem_units hg)))))
          fun h => ?_
        have hpos := hst.pos hg
        have := (h.1 it rfl (by omega) hdel).1
        omega
      | @head it hc tc hlt hdel hend hsplice =>
        have hk : toClock - it.id.clock < it.len := by omega
        have hs' : d.store.structs it.id.client = A ++ .item it :: B := hcl ▸ hs
        have hg' := (cuts_replace hg hs' hsplice (by omega) hk).gapless
        have hhead : (d.replace it (it.head hc) (it.tail (toClock - it.id.clock) tc)
            A.length).Stored (it.head hc) := (stored_replace hg hs').2 (.inr (.inl rfl))
        refine iff_of_false (hnew rfl hdel ((gone_deleteItem hg' hhead).2 (.inr
          (hhead.id_mem_units hg')))) fun h => ?_
        -- where the item was cut there is no pair
        have hlow := (h.1 it rfl hlt hdel).2
        rw [Stored.lowAt_iff (.of_mem hg hm) hg (Item.mem_units.2 ⟨hcl.symm, hlt.le, hend⟩)] at hlow
        have hcut := (Content.splice_isOk_iff (by omega) hk).1 ⟨hc, tc, hsplice⟩
        rw [hlow] at hcut
        cases hcut

/-- Units behind the one in front of which an item is cut stay together. -/
theorem splitBefore_together (hg : d.store.Gapless) (hst : d.Stored it) {c a k b : ℕ}
    (hk : (⟨c, k⟩ : ID) ∈ it.units) (hb : (⟨c, b⟩ : ID) ∈ it.units) (hak : a ≤ k) (hkb : k ≤ b) :
    ∃ it', (d.splitBefore ⟨c, a⟩).Stored it' ∧ (⟨c, k⟩ : ID) ∈ it'.units ∧
      (⟨c, b⟩ : ID) ∈ it'.units := by
  unfold splitBefore
  cases h : d.getItemCleanStart ⟨c, a⟩ with
  | error e => exact ⟨it, hst, hk, hb⟩
  | ok r =>
    obtain ⟨hclean, -⟩ := cleanStart_ok hg h
    by_cases ha : (⟨c, a⟩ : ID) ∈ it.units
    · obtain ⟨A, B, hs⟩ := List.append_of_mem hst
      obtain ⟨hcl, hlo, hhi⟩ := Item.mem_units.1 ha
      have hs' : d.store.structs c = A ++ .item it :: B := by
        rw [show c = it.id.client from hcl]
        exact hs
      have hi : (d.store.structs c)[A.length]? = some (.item it) := by simp [hs']
      have hf : d.store.find ⟨c, a⟩ = .ok A.length := hg.find_eq hs' hlo hhi
      simp only [getItemCleanStart, hf, hi] at h
      split at h
      next =>
        cases h
        exact ⟨it, hst, hk, hb⟩
      next h0 =>
        split at h
        next => cases h
        next hsplit =>
          -- what is cut off reaches to the end of the item
          obtain ⟨hc, tc, hsplice, rfl, -, rfl⟩ := splitItem_ok hsplit
          cases h
          simp only at hlo hhi
          have hoff : a - it.id.clock < it.len := by omega
          have hlen : (it.tail (a - it.id.clock) tc).len = it.len - (a - it.id.clock) :=
            (Content.splice_cut hsplice hoff.le).len_tail
          have hmem : ∀ {y}, (⟨c, y⟩ : ID) ∈ it.units → a ≤ y →
              (⟨c, y⟩ : ID) ∈ (it.tail (a - it.id.clock) tc).units := fun {y} hy hay => by
            obtain ⟨-, hly, hhy⟩ := Item.mem_units.1 hy
            simp only at hly hhy
            refine Item.mem_units.2 ⟨hcl, ?_, ?_⟩
            · simp only [Item.tail_id, Item.unit]
              omega
            · simp only [Item.tail_id, Item.unit, hlen]
              omega
          exact ⟨_, (stored_replace hg hs).2 (.inr (.inr rfl)), hmem hk hak,
            hmem hb (hak.trans hkb)⟩
    · exact ⟨it, hclean.frame it hst ha, hk, hb⟩

/-- **A range deletes nothing exactly if all it names is deleted or left out.** -/
theorem deleteRange_still_iff (hg : d.store.Gapless) {c a b : ℕ} (hab : a < b)
    (hle : b ≤ d.state c) :
    (∀ x, (d.deleteRange c a b).Gone x → d.Gone x) ↔ ¬d.Reaches c a b := by
  have hcuts := cuts_splitBefore hg ⟨c, a⟩
  have hg' := hcuts.gapless
  have hhas : (d.splitBefore ⟨c, a⟩).Has ⟨c, a⟩ := hcuts.has.2 (Nat.lt_of_lt_of_le hab hle)
  obtain ⟨A, st, B, hs, hlo, hhi⟩ := hg'.exists_cover hhas
  have hrun := hs ▸ hg'.run c
  unfold deleteRange
  rw [if_neg (Nat.not_le.2 hab)]
  simp only [hg'.find_eq hs hlo hhi]
  simp only at hlo hhi hs
  have hgone : ∀ x, (d.splitBefore ⟨c, a⟩).Gone x ↔ d.Gone x := hcuts.gone
  simp only [← hgone]
  rw [deleteLoop_still_iff hg' hs (by simp [hs]; omega)]
  constructor
  · rintro hpass ⟨k, hak, hkb, hk, hlive, hout⟩
    -- the item that holds the unit is passed by
    obtain ⟨A', st', B', hs', hlo', hhi'⟩ := hg'.exists_cover (hcuts.has.2 hk)
    have hm' : st' ∈ (d.splitBefore ⟨c, a⟩).store.structs c := by
      simp only at hs'
      simp [hs']
    have hmem : st' ∈ st :: B := (List.mem_append.1 (hs ▸ hm')).resolve_left fun hA => by
      have := hrun.endClock_le hA
      simp only at hhi'
      omega
    cases st' with
    | skip id n =>
      obtain ⟨-, -, -, hskip, -⟩ := (hs' ▸ hg'.run _).split
      cases hskip
    | gc id n => exact hlive ((hgone _).1 ⟨_, hm', hlo', hhi', rfl⟩)
    | item it' =>
      have hst' : (d.splitBefore ⟨c, a⟩).Stored it' := .of_mem hg' hm'
      have hcl : it'.id.client = c := hg'.client_eq hm'
      have hx : (⟨c, k⟩ : ID) ∈ it'.units := Item.mem_units.2 ⟨hcl.symm, hlo', hhi'⟩
      have hdel : (d.splitBefore ⟨c, a⟩).deleted it'.id = false := by
        rw [← Bool.not_eq_true, ← hst'.gone_iff hg' hx, hgone]
        exact hlive
      simp only [Struct.id_item] at hlo'
      obtain ⟨hend, hlow⟩ := hpass _ hmem it' rfl (by omega) hdel
      obtain ⟨it, hst, hp⟩ := hcuts.pieces it' hst'
      exact hout ⟨(hcuts.marks.lowAt_iff hg).1 hlow, it, hst, (hp.low hx).1,
        (hp.low (Item.mem_units.2 ⟨hcl.symm, by simp only; omega, hend⟩)).1⟩
  · intro hreach st' hst' it' heq hlt hdel
    subst heq
    have hm' : .item it' ∈ (d.splitBefore ⟨c, a⟩).store.structs c := by
      rw [hs]
      exact List.mem_append_right _ hst'
    have hstored : (d.splitBefore ⟨c, a⟩).Stored it' := .of_mem hg' hm'
    have hcl : it'.id.client = c := hg'.client_eq hm'
    have hpos := hstored.pos hg'
    -- the item has a unit in the range: its first one, or the one where the range starts
    have hmax : max a it'.id.clock < it'.id.clock + it'.len := by
      rcases List.mem_cons.1 hst' with rfl | hst'
      · simp only [Struct.endClock_item] at hhi
        omega
      · have := hrun.le_clock hst'
        simp only [Struct.id_item] at this
        omega
    have hx : (⟨c, max a it'.id.clock⟩ : ID) ∈ it'.units :=
      Item.mem_units.2 ⟨hcl.symm, by simp only; omega, hmax⟩
    have hout : d.LeftOut c b (max a it'.id.clock) := by
      by_contra hout
      refine hreach ⟨_, le_max_left .., by omega, hcuts.has.1 (hstored.has hg' hx), ?_, hout⟩
      rw [← hgone, hstored.gone_iff hg' hx, hdel]
      simp
    obtain ⟨hlow, it, hst, hk, hb⟩ := hout
    obtain ⟨it'', hst'', hk'', hb''⟩ :=
      splitBefore_together hg hst hk hb (le_max_left ..) (by omega)
    obtain rfl := hst''.unique hstored hg' hk'' hx
    exact ⟨(Item.mem_units.1 hb'').2.2, (hcuts.marks.lowAt_iff hg).2 hlow⟩

theorem applyRange_still_iff (hg : d.store.Gapless) {c : ℕ} {r : DeleteRange} :
    (∀ x, (applyRange c (d.state c) d r).Gone x → d.Gone x) ↔
      ¬d.Reaches c r.clock r.endClock := by
  unfold applyRange
  split
  next hge =>
    refine iff_of_true (fun _ hx => hx) ?_
    rintro ⟨k, hk, -, hhas, -⟩
    exact absurd (hge.trans hk) (Nat.not_le.2 hhas)
  next hlt =>
    have hlt := Nat.lt_of_not_le hlt
    -- no item holds a clock that has not arrived
    have hout : ∀ {b k}, d.state c ≤ b → ¬d.LeftOut c b k := fun {b k} hb h => by
      obtain ⟨-, it, hst, -, hx⟩ := h
      exact absurd (hst.has hg hx) (Nat.not_lt.2 hb)
    split
    next hgt =>
      refine (deleteRange_still_iff (d := { d with
        pendingDeletes := DeleteSet.add d.pendingDeletes c (d.state c) (r.endClock - d.state c) })
        hg hlt le_rfl).trans (not_congr ⟨?_, ?_⟩)
      · rintro ⟨k, h1, h2, hhas, hlive, -⟩
        exact ⟨k, h1, h2.trans hgt, hhas, hlive, hout hgt.le⟩
      · rintro ⟨k, h1, -, hhas, hlive, -⟩
        exact ⟨k, h1, hhas, hhas, hlive, hout le_rfl⟩
    next hle =>
      rcases Nat.lt_or_ge r.clock r.endClock with hab | hba
      · exact deleteRange_still_iff hg hab (Nat.le_of_not_lt hle)
      · rw [deleteRange, if_pos hba]
        refine iff_of_true (fun _ hx => hx) ?_
        rintro ⟨k, h1, h2, -⟩
        omega

/-! ### Deleting what is gone -/

/-- The ranges name nothing that is live. -/
def NothingLive (d : Doc) (N : ID → Prop) : Prop := ∀ x, N x → d.Has x → d.Gone x

theorem applyRange_still (hg : d.store.Gapless) {c : ℕ} {r : DeleteRange}
    (h : d.NothingLive fun x => x.client = c ∧ r.clock ≤ x.clock ∧ x.clock < r.endClock) :
    (applyRange c (d.state c) d r).Gone x ↔ d.Gone x := by
  refine ⟨(applyRange_still_iff hg).2 ?_ x, ((edits_applyRange hg c (d.state c) r).marks hg).gone x⟩
  rintro ⟨k, h1, h2, hhas, hlive, -⟩
  exact hlive (h _ ⟨rfl, h1, h2⟩ hhas)

theorem foldl_applyRange_still (rs : List DeleteRange) {c state : ℕ} (hg : d.store.Gapless)
    (h : d.NothingLive fun x => x.client = c ∧ Covers rs x.clock) (hstate : state = d.state c) :
    (rs.foldl (applyRange c state) d).Gone x ↔ d.Gone x := by
  induction rs generalizing d with
  | nil => exact Iff.rfl
  | cons r rs ih =>
    have hr : ∀ x, (applyRange c state d r).Gone x ↔ d.Gone x := fun x => by
      rw [hstate]
      exact applyRange_still hg fun x hx =>
        h x ⟨hx.1, covers_cons.2 (.inl hx.2)⟩
    have hm := (edits_applyRange hg c state r).marks hg
    rw [List.foldl_cons, ih hm.gapless (fun x hx hhas => (hr x).2 (h x ⟨hx.1, covers_cons.2 (.inr hx.2)⟩
      ?_)) (by rw [hm.state, hstate]), hr]
    unfold Has at hhas ⊢
    rwa [hm.state] at hhas

/-- **A delete set that names nothing live deletes nothing.** -/
theorem applyDeleteSet_still (hg : d.store.Gapless) (h : d.NothingLive ds.Names) :
    (d.applyDeleteSet ds).Gone x ↔ d.Gone x := by
  have hfold : ∀ (es : List (ℕ × List DeleteRange)) {d : Doc}, d.store.Gapless →
      (d.NothingLive fun x => ∃ p ∈ es, p.1 = x.client ∧ Covers p.2 x.clock) →
      ((es.foldl (fun d p => p.2.foldl (applyRange p.1 (d.state p.1)) d) d).Gone x ↔ d.Gone x) := by
    intro es
    induction es with
    | nil => exact fun _ _ => Iff.rfl
    | cons p es ih =>
      intro d hg h
      have hp : ∀ x, (p.2.foldl (applyRange p.1 (d.state p.1)) d).Gone x ↔ d.Gone x := fun x =>
        foldl_applyRange_still p.2 hg (fun x hx => h x ⟨p, by simp, hx.1.symm, hx.2⟩) rfl
      have hm := (edits_ranges hg p.1 (d.state p.1) p.2).marks hg
      rw [List.foldl_cons, ih hm.gapless fun x hx hhas => (hp x).2 (h x ?_ ?_), hp]
      · obtain ⟨q, hq, hx⟩ := hx
        exact ⟨q, List.mem_cons_of_mem _ hq, hx⟩
      · unfold Has at hhas ⊢
        rwa [hm.state] at hhas
  refine hfold ds.entries hg fun x hx => h x (DeleteSet.names_iff.2 hx)

/-! ### Applying -/

theorem Phases.state_integrate {l' : List Struct} (h : Phases d u l l') (hg : d.store.Gapless)
    (hs : ∀ c, (d.applyDecodedUpdate u).state c = d.state c) (c : ℕ) :
    (d.integrate u).state c = d.state c := by
  have hg₁ := h.ran.turns.gapless hg
  have hm := h.marked.edits.marks hg₁
  have h₁ := h.ran.turns.state_mono hg c
  have h₂ := h.turns.state_mono hm.gapless c
  have h₃ := h.marks.state c
  have h₄ := hm.state c
  have h₅ := hs c
  simp only [state] at h₁ h₂ h₃ h₄ h₅ ⊢
  omega

/-- What the structs of an update that bring no clock leave behind. -/
structure Calm (d : Doc) (u : Update) (e : Doc) (l : List Struct) (rest : List (ℕ × List Struct)) :
    Prop where
  cuts : Cuts d e
  edits : Edits d e
  idle : ∀ st ∈ l, d.Idle st
  taken : Taken (gather [] u.clients) l rest
  waiting : e.Waiting rest
  integrate : d.integrate u = { e with pending := d.pending ++ heldBack rest }
  pending : (d.marked u).pending = d.pending ++ heldBack rest
  retried : d.retried u = d.marked u

theorem Regular.calm (h : d.Regular) (hs : ∀ c, (d.integrate u).state c = d.state c) :
    ∃ e l rest, Calm d u e l rest := by
  obtain ⟨l, rest, e, hm, htaken, hwait, -, heq⟩ := integrate_spec h.gapless u
  have hse : ∀ c, e.state c = d.state c := fun c => by
    have := hs c
    rwa [heq] at this
  obtain ⟨hc, he, hidle⟩ := hm.still h.gapless hse
  have hg₁ : (d.integrate u).store.Gapless := heq ▸ hc.gapless
  have hmarks := (edits_applyDeleteSet hg₁ u.deletes).marks hg₁
  have hpend : (d.marked u).pending = d.pending ++ heldBack rest := by
    rw [marked, hmarks.pending, heq]
  have hnodup : (rest.map (·.1)).Nodup := htaken.clients ▸ gather_nodup (by simp)
  have hstate : ∀ c, (d.marked u).state c = d.state c := fun c => (hmarks.state c).trans (hs c)
  refine ⟨e, l, rest, hc, he, hidle, htaken, hwait, heq, hpend, retryLoop_of_settled ?_ ?_ _⟩
  · rw [hpend]
    intro u' hu'
    exact (List.mem_append.1 hu').elim (h.kept u') (heldBack_kept hnodup)
  · intro u' hu' b hb st hst
    rw [hpend] at hu'
    rcases List.mem_append.1 hu' with hu' | hu'
    · exact (blocked_congr hstate).2 (h.rest.settled u' hu' b hb st hst)
    · obtain ⟨-, rfl⟩ := mem_heldBack.1 hu'
      obtain ⟨q, hq, s, ss, hqs, rfl⟩ := mem_blocksOf.1 hb
      exact (blocked_congr fun c => (hstate c).trans (hse c).symm).2 (hwait q hq st (hqs ▸ hst))

theorem Regular.remembered (h : d.Regular) (hs : ∀ c, (d.integrate u).state c = d.state c) (x : ID) :
    (d.marked u).pendingDeletes.Names x ↔
      d.pendingDeletes.Names x ∨ u.deletes.Names x ∧ ¬d.Has x := by
  obtain ⟨l, l', hp⟩ := h.phases u
  rw [hp.marked.names, hp.ran.turns.pendingDeletes h.gapless]
  unfold Has
  rw [hs]

/-- **An update that brings no clock and deletes nothing live does not show.** -/
theorem Regular.still (h : d.Regular) (he : d.UnitEntries)
    (hs : ∀ c, (d.applyDecodedUpdate u).state c = d.state c) (hdel : d.NothingLive u.deletes.Names) :
    Alike d (d.applyDecodedUpdate u) := by
  obtain ⟨l, l', hp⟩ := h.phases u
  have hs₁ := hp.state_integrate h.gapless hs
  obtain ⟨e, l₁, rest, hcalm⟩ := h.calm hs₁
  obtain ⟨ord, hw⟩ := h.woven
  have halike₁ : Alike d (d.integrate u) := by
    rw [hcalm.integrate]
    exact (alike_edits hw he hcalm.edits fun x => (hcalm.cuts.gone x).1).hold _ _
  obtain ⟨ord₁, hw₁⟩ := halike₁.woven
  have hlive : (d.integrate u).NothingLive u.deletes.Names := fun x hx hhas => by
    refine (halike₁.gone x).2 (hdel x hx ?_)
    unfold Has at hhas ⊢
    rwa [hs₁] at hhas
  have halike₂ : Alike (d.integrate u) (d.marked u) :=
    alike_edits hw₁ halike₁.entries hp.marked.edits fun x => (applyDeleteSet_still hw₁.gapless hlive).1
  have halike₃ := ((halike₁.trans halike₂).hold (d.marked u).pending SortedMap.empty)
  obtain ⟨ord₃, hw₃⟩ := halike₃.woven
  have hflushed := hp.flushed
  have hflush := hp.flush
  rw [hcalm.retried] at hflushed hflush
  refine halike₃.trans (alike_edits hw₃ halike₃.entries hflushed.edits fun x => ?_)
  rw [hflush]
  -- what is remembered has not been received
  refine (applyDeleteSet_still hw₃.gapless fun y hy hhas => ?_).1
  have hhas' : d.Has y := by
    unfold Has at hhas ⊢
    rwa [halike₃.state] at hhas
  rcases (h.remembered hs₁ y).1 hy with hy | ⟨-, hy⟩
  · exact absurd hhas' (h.rest.ahead hy)
  · exact absurd hhas' hy

end Doc

end YCollab.Crdt
