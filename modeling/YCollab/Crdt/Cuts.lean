import YCollab.Crdt.Doc
import YCollab.Crdt.Splice

/-!
# Splits of a document

Most operations begin by splitting items, and a split changes little: the clocks that have been
integrated, which of them are deleted, and what is held back all stay. `Cuts d d'` says that `d'` is
`d` with some items cut into pieces. It holds of `getItemCleanStart` and `getItemCleanEnd`
(`cleanStart_ok`, `cleanEnd_ok`) for every document with a gapless store, whatever its content.
-/

namespace YCollab.Crdt

namespace Doc

/-- The unit has been integrated. -/
def Has (d : Doc) (x : ID) : Prop := x.clock < d.state x.client

/-- The item is in the store. -/
def Stored (d : Doc) (it : Item) : Prop := .item it ∈ d.store.structs it.id.client

/-- The unit counts as deleted: it belongs to a deleted item, or to a GC. -/
def Gone (d : Doc) (x : ID) : Prop :=
  ∃ st ∈ d.store.structs x.client, st.id.clock ≤ x.clock ∧ x.clock < st.endClock ∧
    d.structDeleted st = true

variable {d d' : Doc} {it it' : Item} {x : ID}

/-! ### Stored items -/

theorem Stored.has (h : d.Stored it) (hg : d.store.Gapless) (hx : x ∈ it.units) : d.Has x := by
  obtain ⟨hc, -, hlt⟩ := Item.mem_units.1 hx
  have hend := (hg.run it.id.client).endClock_le_end h
  rw [Nat.zero_add, ← hg.state_eq] at hend
  unfold Has state
  rw [hc]
  exact lt_of_lt_of_le hlt hend

theorem Stored.unique (h : d.Stored it) (h' : d.Stored it') (hg : d.store.Gapless)
    (hx : x ∈ it.units) (hx' : x ∈ it'.units) : it = it' := by
  obtain ⟨hc, h1, h2⟩ := Item.mem_units.1 hx
  obtain ⟨hc', h1', h2'⟩ := Item.mem_units.1 hx'
  have hst' : Struct.item it' ∈ d.store.structs it.id.client := by
    rw [← hc, hc']
    exact h'
  have := (hg.run it.id.client).cover_unique h hst' (k := x.clock) h1 h2 h1' h2'
  exact Struct.item.inj this

theorem Stored.pos (h : d.Stored it) (hg : d.store.Gapless) : 0 < it.len := by
  obtain ⟨A, B, hs⟩ := List.append_of_mem h
  obtain ⟨-, -, hpos, -⟩ := (hs ▸ hg.run it.id.client).split
  exact hpos

theorem Stored.id_mem_units (h : d.Stored it) (hg : d.store.Gapless) : it.id ∈ it.units :=
  Item.mem_units.2 ⟨rfl, le_rfl, by have := h.pos hg; omega⟩

theorem Stored.itemAt (h : d.Stored it) (hg : d.store.Gapless) (hx : x ∈ it.units) :
    d.itemAt x = some it := by
  obtain ⟨hc, h1, h2⟩ := Item.mem_units.1 hx
  simp [Doc.itemAt, hg.getItem_eq (hc ▸ h) h1 h2]

theorem length_le_size {ids : List ID} (hn : ids.Nodup)
    (hs : ∀ x ∈ ids, ∃ it, d.Stored it ∧ it.id = x) : ids.length ≤ d.size := by
  have hsize : d.size = ((d.store.entries.flatMap (·.2)).map Struct.id).length := by
    simp [Doc.size, List.length_flatMap]
  rw [hsize]
  refine (List.subperm_of_subset hn fun x hx => ?_).length_le
  obtain ⟨it, hst, rfl⟩ := hs x hx
  unfold Stored StructStore.structs at hst
  cases hf : d.store.find? it.id.client with
  | none => simp [hf] at hst
  | some ss =>
    rw [hf, Option.getD_some] at hst
    exact List.mem_map.2 ⟨_, List.mem_flatMap.2 ⟨_, SortedMap.find?_eq_some.1 hf, hst⟩, rfl⟩

theorem Gone.has (h : d.Gone x) (hg : d.store.Gapless) : d.Has x := by
  obtain ⟨st, hst, -, hlt, -⟩ := h
  have hend := (hg.run x.client).endClock_le_end hst
  rw [Nat.zero_add, ← hg.state_eq] at hend
  exact lt_of_lt_of_le hlt hend

theorem Stored.gone_iff (h : d.Stored it) (hg : d.store.Gapless) (hx : x ∈ it.units) :
    d.Gone x ↔ d.deleted it.id = true := by
  obtain ⟨hc, h1, h2⟩ := Item.mem_units.1 hx
  have hm : Struct.item it ∈ d.store.structs x.client := hc ▸ h
  constructor
  · rintro ⟨st, hst, h1', h2', hdel⟩
    obtain rfl := (hg.run x.client).cover_unique hst hm h1' h2' h1 h2
    exact hdel
  · exact fun hdel => ⟨_, hm, h1, h2, hdel⟩

/-! ### Replacing an item by its halves -/

theorem replace_left (d : Doc) (it head tail : Item) (n : ℕ) (y : ID) :
    (d.replace it head tail n).left y =
      if y = tail.id then some it.id
      else if d.right it.id = some y then some tail.id else d.left y := by
  simp only [replace, Function.update_apply]
  cases d.right it.id with
  | none => simp
  | some r => simp only [Function.update_apply, Option.some.injEq, eq_comm (a := y) (b := r)]

theorem replace_right (d : Doc) (it head tail : Item) (n : ℕ) (y : ID) :
    (d.replace it head tail n).right y =
      if y = it.id then some tail.id else if y = tail.id then d.right it.id else d.right y := by
  simp only [replace, Function.update_apply]

variable {A B : List Struct} {k : ℕ} {hc tc : Content}

theorem halves (hcut : it.content.Cut hc tc k) (h0 : 0 < k) (hk : k < it.len) :
    StructStore.Halves it (it.head hc) (it.tail k tc) where
  id_head := rfl
  id_tail := by simp [Item.len_head hcut, Item.unit]
  len_add := by
    rw [Item.len_head hcut, Item.len_tail hcut]
    omega
  head_pos := by rwa [Item.len_head hcut]
  tail_pos := by
    rw [Item.len_tail hcut]
    omega

theorem structs_replace (hs : d.store.structs it.id.client = A ++ .item it :: B) (c : ℕ) :
    (d.replace it (it.head hc) (it.tail k tc) A.length).store.structs c =
      if c = it.id.client then A ++ .item (it.head hc) :: .item (it.tail k tc) :: B
      else d.store.structs c :=
  StructStore.structs_splitAt hs (Item.head_id it hc) c

/-- A split replaces one item in the store by two. -/
theorem stored_replace (hg : d.store.Gapless)
    (hs : d.store.structs it.id.client = A ++ .item it :: B) :
    (d.replace it (it.head hc) (it.tail k tc) A.length).Stored it' ↔
      d.Stored it' ∧ it' ≠ it ∨ it' = it.head hc ∨ it' = it.tail k tc := by
  have hrun := hs ▸ hg.run it.id.client
  obtain ⟨-, -, hpos, -⟩ := hrun.split
  have hself : .item it ∉ A ∧ .item it ∉ B := by
    refine ⟨fun hm => ?_, fun hm => ?_⟩
    · have := hrun.endClock_le hm
      simp at this hpos
      omega
    · have := hrun.le_clock hm
      simp at this hpos
      omega
  unfold Stored
  rw [structs_replace hs]
  by_cases hcl : it'.id.client = it.id.client
  · rw [if_pos hcl, hcl, hs]
    simp only [List.mem_append, List.mem_cons, Struct.item.injEq]
    constructor
    · rintro (hm | rfl | rfl | hm)
      · exact .inl ⟨.inl hm, fun heq => hself.1 (heq ▸ hm)⟩
      · exact .inr (.inl rfl)
      · exact .inr (.inr rfl)
      · exact .inl ⟨.inr (.inr hm), fun heq => hself.2 (heq ▸ hm)⟩
    · rintro (⟨hm | hm | hm, hne⟩ | rfl | rfl)
      · exact .inl hm
      · exact absurd hm hne
      · exact .inr (.inr (.inr hm))
      · exact .inr (.inl rfl)
      · exact .inr (.inr (.inl rfl))
  · rw [if_neg hcl]
    constructor
    · exact fun hm => .inl ⟨hm, fun heq => hcl (by rw [heq])⟩
    · rintro (⟨hm, -⟩ | rfl | rfl)
      · exact hm
      · exact absurd rfl hcl
      · exact absurd rfl hcl

theorem state_replace (hg : d.store.Gapless)
    (hs : d.store.structs it.id.client = A ++ .item it :: B) (hcut : it.content.Cut hc tc k)
    (h0 : 0 < k) (hk : k < it.len) (c : ℕ) :
    (d.replace it (it.head hc) (it.tail k tc) A.length).state c = d.state c :=
  hg.state_splitAt hs (halves hcut h0 hk) c

theorem has_replace (hg : d.store.Gapless) (hs : d.store.structs it.id.client = A ++ .item it :: B)
    (hcut : it.content.Cut hc tc k) (h0 : 0 < k) (hk : k < it.len) :
    (d.replace it (it.head hc) (it.tail k tc) A.length).Has x ↔ d.Has x := by
  unfold Has
  rw [state_replace hg hs hcut h0 hk]

theorem Stored.of_mem (hg : d.store.Gapless) {c : ℕ} (h : .item it ∈ d.store.structs c) :
    d.Stored it := by
  obtain rfl : it.id.client = c := hg.client_eq h
  exact h

theorem Stored.id_ne_unit (h : d.Stored it) (h' : d.Stored it') (hg : d.store.Gapless) (h0 : 0 < k)
    (hk : k < it.len) : it'.id ≠ it.unit k := by
  intro heq
  have hx : it.unit k ∈ it.units :=
    Item.mem_units.2 ⟨rfl, by simp [Item.unit], by simp [Item.unit, hk]⟩
  obtain rfl := h.unique h' hg hx (heq ▸ h'.id_mem_units hg)
  have := congrArg ID.clock heq
  simp [Item.unit] at this
  omega

theorem structDeleted_replace (hg : d.store.Gapless) (hst : d.Stored it) (h0 : 0 < k)
    (hk : k < it.len) (n c : ℕ) {st : Struct} (hm : st ∈ d.store.structs c) :
    (d.replace it (it.head hc) (it.tail k tc) n).structDeleted st = d.structDeleted st := by
  cases st with
  | item it' =>
    simp only [structDeleted, replace, Item.tail_id]
    rw [Function.update_of_ne (hst.id_ne_unit (Stored.of_mem hg hm) hg h0 hk)]
  | _ => rfl

theorem gone_replace (hg : d.store.Gapless)
    (hs : d.store.structs it.id.client = A ++ .item it :: B) (hcut : it.content.Cut hc tc k)
    (h0 : 0 < k) (hk : k < it.len) :
    (d.replace it (it.head hc) (it.tail k tc) A.length).Gone x ↔ d.Gone x := by
  have hst : d.Stored it := by simp [Stored, hs]
  have hflag : ∀ c, ∀ st ∈ d.store.structs c,
      (d.replace it (it.head hc) (it.tail k tc) A.length).structDeleted st = d.structDeleted st :=
    fun c _ hm => structDeleted_replace hg hst h0 hk A.length c hm
  have hhead : (d.replace it (it.head hc) (it.tail k tc) A.length).structDeleted
      (.item (it.head hc)) = d.deleted it.id := hflag _ (.item it) hst
  have htail : (d.replace it (it.head hc) (it.tail k tc) A.length).structDeleted
      (.item (it.tail k tc)) = d.deleted it.id := by
    simp [structDeleted, replace]
  have hlen : (it.head hc).len = k := Item.len_head hcut
  have hlen' : (it.tail k tc).len = it.len - k := Item.len_tail hcut
  unfold Gone
  rw [structs_replace hs]
  by_cases hx : x.client = it.id.client
  · rw [if_pos hx, hx]
    constructor
    · rintro ⟨st, hm, h1, h2, h3⟩
      simp only [List.mem_append, List.mem_cons] at hm
      rcases hm with hm | rfl | rfl | hm
      · have hm' : st ∈ d.store.structs it.id.client := hs ▸ List.mem_append_left _ hm
        exact ⟨st, hm', h1, h2, hflag _ _ hm' ▸ h3⟩
      · refine ⟨.item it, hst, h1, ?_, hhead.symm.trans h3⟩
        simp only [Struct.endClock_item, Item.head_id, hlen] at h2 ⊢
        omega
      · refine ⟨.item it, hst, ?_, ?_, htail.symm.trans h3⟩
        · simp only [Struct.id_item, Item.tail_id, Item.unit] at h1 ⊢
          omega
        · simp only [Struct.endClock_item, Item.tail_id, Item.unit, hlen'] at h2 ⊢
          omega
      · have hm' : st ∈ d.store.structs it.id.client :=
          hs ▸ List.mem_append_right _ (List.mem_cons_of_mem _ hm)
        exact ⟨st, hm', h1, h2, hflag _ _ hm' ▸ h3⟩
    · rintro ⟨st, hm, h1, h2, h3⟩
      have hst' := (hflag _ _ hm).trans h3
      rw [hs] at hm
      simp only [List.mem_append, List.mem_cons] at hm ⊢
      rcases hm with hm | rfl | hm
      · exact ⟨st, .inl hm, h1, h2, hst'⟩
      · simp only [Struct.id_item, Struct.endClock_item] at h1 h2
        by_cases hlt : x.clock < it.id.clock + k
        · refine ⟨_, .inr (.inl rfl), h1, ?_, hhead.trans h3⟩
          simpa [hlen] using hlt
        · refine ⟨_, .inr (.inr (.inl rfl)), ?_, ?_, htail.trans h3⟩
          · simp only [Struct.id_item, Item.tail_id, Item.unit]
            omega
          · simp only [Struct.endClock_item, Item.tail_id, Item.unit, hlen']
            omega
      · exact ⟨st, .inr (.inr (.inr hm)), h1, h2, hst'⟩
  · rw [if_neg hx]
    constructor
    · rintro ⟨st, hm, h1, h2, h3⟩
      exact ⟨st, hm, h1, h2, hflag _ _ hm ▸ h3⟩
    · rintro ⟨st, hm, h1, h2, h3⟩
      exact ⟨st, hm, h1, h2, (hflag _ _ hm).trans h3⟩

/-! ### Documents that differ by cuts -/

/-- `d'` is `d` with some items cut into pieces. -/
structure Cuts (d d' : Doc) : Prop where
  gapless : d'.store.Gapless
  state : ∀ c, d'.state c = d.state c
  gone : ∀ x, d'.Gone x ↔ d.Gone x
  /-- Boundaries between structs stay. -/
  starts : ∀ c, ∀ st ∈ d.store.structs c, ∃ st' ∈ d'.store.structs c, st'.id = st.id
  pieces : ∀ it', d'.Stored it' → ∃ it, d.Stored it ∧ it.Piece it'
  gcs : ∀ c id n, .gc id n ∈ d'.store.structs c ↔ .gc id n ∈ d.store.structs c
  pending : d'.pending = d.pending
  pendingDeletes : d'.pendingDeletes = d.pendingDeletes

theorem Cuts.refl (hg : d.store.Gapless) : Cuts d d where
  gapless := hg
  state _ := rfl
  gone _ := Iff.rfl
  starts _ st hm := ⟨st, hm, rfl⟩
  pieces it h := ⟨it, h, .refl⟩
  gcs _ _ _ := Iff.rfl
  pending := rfl
  pendingDeletes := rfl

theorem Cuts.trans {d'' : Doc} (h : Cuts d d') (h' : Cuts d' d'') : Cuts d d'' where
  gapless := h'.gapless
  state c := (h'.state c).trans (h.state c)
  gone x := (h'.gone x).trans (h.gone x)
  starts c st hm := by
    obtain ⟨st', hm', hid⟩ := h.starts c st hm
    obtain ⟨st'', hm'', hid'⟩ := h'.starts c st' hm'
    exact ⟨st'', hm'', hid'.trans hid⟩
  pieces it'' hst := by
    obtain ⟨it', hst', hp'⟩ := h'.pieces it'' hst
    obtain ⟨it, hst, hp⟩ := h.pieces it' hst'
    exact ⟨it, hst, hp.trans hp'⟩
  gcs c id n := (h'.gcs c id n).trans (h.gcs c id n)
  pending := h'.pending.trans h.pending
  pendingDeletes := h'.pendingDeletes.trans h.pendingDeletes

theorem Cuts.has (h : Cuts d d') : d'.Has x ↔ d.Has x := by
  unfold Has
  rw [h.state]

/-- Replacing an item by its halves is a cut. -/
theorem cuts_replace (hg : d.store.Gapless)
    (hs : d.store.structs it.id.client = A ++ .item it :: B)
    (hsplice : it.content.splice k = .ok (hc, tc)) (h0 : 0 < k) (hk : k < it.len) :
    Cuts d (d.replace it (it.head hc) (it.tail k tc) A.length) := by
  have hcut := Content.splice_cut hsplice hk.le
  have hst : d.Stored it := by simp [Stored, hs]
  refine ⟨hg.splitAt hs (halves hcut h0 hk), state_replace hg hs hcut h0 hk,
    fun x => gone_replace hg hs hcut h0 hk, fun c st hm => ?_, fun it' hst' => ?_,
    fun c id n => ?_, rfl, rfl⟩
  · rw [structs_replace hs]
    split
    next heq =>
      subst heq
      rw [hs] at hm
      simp only [List.mem_append, List.mem_cons] at hm ⊢
      rcases hm with hm | rfl | hm
      · exact ⟨st, .inl hm, rfl⟩
      · exact ⟨_, .inr (.inl rfl), rfl⟩
      · exact ⟨st, .inr (.inr (.inr hm)), rfl⟩
    next => exact ⟨st, hm, rfl⟩
  · rcases (stored_replace hg hs).1 hst' with ⟨h, -⟩ | rfl | rfl
    · exact ⟨it', h, .refl⟩
    · exact ⟨it, hst, Item.Piece.refl.head hsplice h0 hk⟩
    · exact ⟨it, hst, Item.Piece.refl.tail hsplice h0 hk⟩
  · rw [structs_replace hs]
    split
    next heq =>
      rw [heq, hs]
      simp
    next => rfl

theorem stored_replace_of_not_mem (hg : d.store.Gapless)
    (hs : d.store.structs it.id.client = A ++ .item it :: B) (hx : x ∈ it.units)
    (hst : d.Stored it') (hx' : x ∉ it'.units) :
    (d.replace it (it.head hc) (it.tail k tc) A.length).Stored it' :=
  (stored_replace hg hs).2 (.inl ⟨hst, fun heq => hx' (heq ▸ hx)⟩)

/-- What a lookup with a split gives: a cut of the document, and an item in it. -/
structure Clean (d d' : Doc) (x : ID) (it : Item) : Prop where
  cuts : Cuts d d'
  stored : d'.Stored it
  mem : x ∈ it.units
  /-- Items elsewhere are not touched. -/
  frame : ∀ it', d.Stored it' → x ∉ it'.units → d'.Stored it'

theorem clean_refl (hg : d.store.Gapless) (hst : d.Stored it) (hx : x ∈ it.units) :
    Clean d d x it :=
  ⟨.refl hg, hst, hx, fun _ h _ => h⟩

theorem item_of_find (hg : d.store.Gapless) {i : ℕ} (hf : d.store.find x = .ok i)
    (hi : (d.store.structs x.client)[i]? = some (.item it)) :
    ∃ A B, d.store.structs it.id.client = A ++ .item it :: B ∧ i = A.length ∧ x ∈ it.units := by
  obtain ⟨A, st, B, hs, rfl, hlo, hhi⟩ := hg.find_ok hf
  have hst : st = .item it := by simpa [hs] using hi
  subst hst
  have hm : .item it ∈ d.store.structs x.client := by simp [hs]
  have hcl : it.id.client = x.client := hg.client_eq hm
  exact ⟨A, B, hcl ▸ hs, rfl, Item.mem_units.2 ⟨hcl.symm, hlo, hhi⟩⟩

theorem stored_of_getItem (hg : d.store.Gapless) (h : d.store.getItem x = .ok it) :
    d.Stored it ∧ x ∈ it.units := by
  cases hf : d.store.find x with
  | error e => simp [StructStore.getItem, StructStore.get, hf] at h
  | ok i =>
    cases hi : (d.store.structs x.client)[i]? with
    | none => simp [StructStore.getItem, StructStore.get, hf, hi] at h
    | some st =>
      cases st with
      | item it' =>
        simp only [StructStore.getItem, StructStore.get, hf, hi, Except.ok.injEq] at h
        subst h
        obtain ⟨A, B, hs, -, hx⟩ := item_of_find hg hf hi
        exact ⟨by simp [Stored, hs], hx⟩
      | _ => simp [StructStore.getItem, StructStore.get, hf, hi] at h

theorem stored_of_itemAt (hg : d.store.Gapless) (h : d.itemAt x = some it) :
    d.Stored it ∧ x ∈ it.units := by
  unfold itemAt at h
  split at h
  next it' hget =>
    cases h
    exact stored_of_getItem hg hget
  next => cases h

theorem splitItem_ok {n : ℕ} {head tail : Item} (h : d.splitItem it k n = .ok (d', head, tail)) :
    ∃ hc tc, it.content.splice k = .ok (hc, tc) ∧ d' = d.replace it (it.head hc) (it.tail k tc) n ∧
      head = it.head hc ∧ tail = it.tail k tc := by
  unfold splitItem at h
  split at h
  next => cases h
  next hc tc hsplice =>
    cases h
    exact ⟨hc, tc, hsplice, rfl, rfl, rfl⟩

theorem clean_replace (hg : d.store.Gapless)
    (hs : d.store.structs it.id.client = A ++ .item it :: B) (hx : x ∈ it.units)
    (hsplice : it.content.splice k = .ok (hc, tc)) (h0 : 0 < k) (hk : k < it.len)
    (hit' : it' = it.head hc ∨ it' = it.tail k tc) (hx' : x ∈ it'.units) :
    Clean d (d.replace it (it.head hc) (it.tail k tc) A.length) x it' where
  cuts := cuts_replace hg hs hsplice h0 hk
  stored := (stored_replace hg hs).2 (.inr hit')
  mem := hx'
  frame _ hst hx' := stored_replace_of_not_mem hg hs hx hst hx'

/-- A lookup that returns was about an item that covers the ID. -/
theorem item_of_lookup {α : Type} {f : Item → ℕ → Except Err α} {r : α} (hg : d.store.Gapless)
    (h : (match d.store.find x with
      | .error e => Except.error e
      | .ok i =>
        match (d.store.structs x.client)[i]? with
        | some (.item it) => f it i
        | _ => .error .missingStruct) = .ok r) :
    ∃ it A B, d.store.structs it.id.client = A ++ .item it :: B ∧ x ∈ it.units ∧
      f it A.length = .ok r := by
  split at h
  next => cases h
  next i hf =>
    split at h
    next it hi =>
      obtain ⟨A, B, hs, rfl, hx⟩ := item_of_find hg hf hi
      exact ⟨it, A, B, hs, hx, h⟩
    next => cases h

theorem cleanStart_ok (hg : d.store.Gapless) (h : d.getItemCleanStart x = .ok (d', it)) :
    Clean d d' x it ∧ it.id = x := by
  unfold getItemCleanStart at h
  obtain ⟨it', A, B, hs, hx, h⟩ := item_of_lookup hg h
  obtain ⟨hcl, hlo, hhi⟩ := Item.mem_units.1 hx
  simp only at h
  split at h
  next h0 =>
    cases h
    refine ⟨clean_refl hg (by simp [Stored, hs]) hx, ?_⟩
    exact ID.ext hcl.symm (by omega)
  next h0 =>
    split at h
    next => cases h
    next d'' head right hsplit =>
      obtain ⟨hc, tc, hsplice, rfl, -, rfl⟩ := splitItem_ok hsplit
      cases h
      have hid : (it'.tail (x.clock - it'.id.clock) tc).id = x :=
        ID.ext hcl.symm (by simp [Item.unit]; omega)
      have hk : x.clock - it'.id.clock < it'.len := by omega
      have hlen := Item.len_tail (Content.splice_cut hsplice hk.le)
      refine ⟨clean_replace hg hs hx hsplice (by omega) hk (.inr rfl) ?_, hid⟩
      exact Item.mem_units.2 ⟨by rw [hid], by rw [hid], by rw [hid, hlen]; omega⟩

theorem cleanEnd_ok (hg : d.store.Gapless) (h : d.getItemCleanEnd x = .ok (d', it)) :
    Clean d d' x it ∧ it.lastID = x := by
  unfold getItemCleanEnd at h
  obtain ⟨it', A, B, hs, hx, h⟩ := item_of_lookup hg h
  obtain ⟨hcl, hlo, hhi⟩ := Item.mem_units.1 hx
  simp only at h
  split at h
  next h0 =>
    cases h
    refine ⟨clean_refl hg (by simp [Stored, hs]) hx, ?_⟩
    exact ID.ext hcl.symm (by simp [Item.lastID]; omega)
  next h0 =>
    split at h
    next => cases h
    next d'' head right hsplit =>
      obtain ⟨hc, tc, hsplice, rfl, rfl, -⟩ := splitItem_ok hsplit
      cases h
      have hk : x.clock - it'.id.clock + 1 < it'.len := by omega
      have hlen := Item.len_head (Content.splice_cut hsplice hk.le)
      refine ⟨clean_replace hg hs hx hsplice (by omega) hk (.inl rfl) ?_, ?_⟩
      · exact Item.mem_units.2 ⟨hcl, hlo, by rw [hlen, Item.head_id]; omega⟩
      · exact ID.ext hcl.symm (by simp [Item.lastID, hlen]; omega)

end Doc

end YCollab.Crdt
