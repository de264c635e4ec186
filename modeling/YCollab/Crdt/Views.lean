import YCollab.Crdt.Reached

/-!
# Reading documents

What a reader of a document sees: the live units of the sequence of a type (`Doc.liveUnits`, what
`YText.String` and `sequenceJSON` go through) and the value of a key of a map (`Doc.mapGet`,
`YMap.Get`).

Cutting items does not show, as long as the entries of maps are single units (`Doc.UnitEntries`): a
cut makes the second half of the last entry of a key the newest one, so that the value of an entry of
several units changes (`Doc.alike_edits`).
-/

namespace YCollab.Crdt

open Links

variable {d d' d'' : Doc} {it it' : Item} {x : ID} {ord : List ID}

namespace Content

variable {c h t : Content} {k : ℕ}

/-- The units of a content are those of its halves. -/
theorem unitList_splice (hs : c.splice k = .ok (h, t)) (hk : k ≤ c.len) :
    c.unitList = h.unitList ++ t.unitList := by
  cases c with
  | deleted n =>
    cases hs
    simp only [unitList, List.replicate_append_replicate]
    rw [Nat.add_sub_cancel' (show k ≤ n from hk)]
  | json values =>
    cases hs
    simp only [unitList, ← List.map_append, List.take_append_drop]
  | any values =>
    cases hs
    simp only [unitList, ← List.map_append, List.take_append_drop]
  | string s =>
    simp only [splice] at hs
    split at hs
    next head tail hsplit =>
      cases hs
      simp only [unitList, (splitUTF16_some hsplit).1, List.flatMap_append]
    next => cases hs
  | _ => cases hs

/-- The value of an entry of a map with this content. -/
def value? : Content → Option ContentUnit
  | .any values => values.getLast?.map .any
  | .json values => values.getLast?.map .json
  | .type r name => some (.whole (.type r name))
  | .binary data => some (.whole (.binary data))
  | .doc guid opts => some (.whole (.doc guid opts))
  | .string s => some (.whole (.string s))
  | _ => none

/-- Whether the content occupies a position in its parent. -/
def countable : Content → Bool
  | .deleted _ => false
  | .format _ _ => false
  | _ => true

/-- The characters of the content. -/
def text : Content → Bytes
  | .string s => s
  | .any values => values.flatMap fun v =>
    match v with
    | .string s => s
    | _ => []
  | _ => []

end Content

namespace Doc

/-! ### Reading -/

/-- Read the items from `x` on, following the right neighbours. -/
def readRight {β : Type} (d : Doc) (f : Item → List β) : ℕ → Option ID → Option (List β)
  | _, none => some []
  | 0, some _ => none
  | fuel + 1, some x =>
    match d.itemAt x with
    | none => none
    | some it => (readRight d f fuel (d.right x)).map (f it ++ ·)

/-- The live units of an item. -/
def liveOf (d : Doc) (it : Item) : List (ID × ContentUnit) :=
  if d.deleted it.id then [] else it.units.zip it.content.unitList

/-- The live units of the sequence of a type, in their order. -/
def liveUnits (d : Doc) (p : TypeID) : Option (List (ID × ContentUnit)) :=
  d.readRight d.liveOf d.size (d.start p)

/-- `YText.String`: the visible text of a type. -/
def textString (d : Doc) (p : TypeID) : Option Bytes :=
  d.readRight (fun it => if d.deleted it.id then [] else it.content.text) d.size (d.start p)

/-- `YText.Len`: the length of the text in UTF-16 code units. -/
def textLen (d : Doc) (p : TypeID) : Option ℕ :=
  (d.readRight (fun it => if !d.deleted it.id && it.content.countable then [it.len] else [])
    d.size (d.start p)).map List.sum

/-- `YMap.Get`: the value under a key, with the item that holds it. -/
def mapGet (d : Doc) (p : TypeID) (key : Bytes) : Option (ID × ContentUnit) :=
  match d.mapItems p key with
  | none => none
  | some x =>
    if d.deleted x then none
    else
      match d.itemAt x with
      | none => none
      | some it => it.content.value?.map (x, ·)

section Read

variable {β : Type} {f f' : Item → List β}

/-- What a walk reads at an item. -/
def readAt (d : Doc) (f : Item → List β) (x : ID) : List β := ((d.itemAt x).map f).getD []

theorem readRight_of_path {o : Option ID} {l : List ID} (h : Path d.right o l) {fuel : ℕ}
    (hfuel : l.length ≤ fuel) (hitem : ∀ y ∈ l, ∃ it, d.itemAt y = some it) :
    d.readRight f fuel o = some (l.flatMap (d.readAt f)) := by
  induction h generalizing fuel with
  | nil => cases fuel <;> rfl
  | @cons x l _ ih =>
    obtain ⟨fuel, rfl⟩ : ∃ n, fuel = n + 1 := ⟨fuel - 1, by simp at hfuel; omega⟩
    obtain ⟨it, hit⟩ := hitem x List.mem_cons_self
    rw [readRight, hit, List.flatMap_cons, readAt, hit]
    simp only
    rw [ih (by simpa using hfuel) fun y hy => hitem y (List.mem_cons_of_mem _ hy)]
    rfl

theorem Woven.exists_itemAt (h : d.Woven ord) (hx : x ∈ ord) :
    ∃ it, d.Stored it ∧ it.id = x ∧ d.itemAt x = some it := by
  obtain ⟨it, hst, rfl⟩ := h.mem.1 hx
  exact ⟨it, hst, rfl, hst.itemAt h.gapless (hst.id_mem_units h.gapless)⟩

theorem Woven.exists_read (h : d.Woven ord) {o : Option ID} (ho : ∀ x, o = some x → x ∈ ord) :
    ∃ l, Path d.right o l ∧ (∀ y ∈ l, y ∈ ord) ∧
      d.readRight f d.size o = some (l.flatMap (d.readAt f)) := by
  cases o with
  | none => exact ⟨[], .nil, by simp, by cases d.size <;> rfl⟩
  | some x =>
    obtain ⟨l, hl, hlen, hmem⟩ := h.path (ho x rfl)
    refine ⟨l, hl, hmem, readRight_of_path hl hlen fun y hy => ?_⟩
    obtain ⟨it, -, -, hit⟩ := h.exists_itemAt (hmem y hy)
    exact ⟨it, hit⟩

theorem Woven.readRight_isSome (h : d.Woven ord) (f : Item → List β) (p : TypeID) :
    (d.readRight f d.size (d.start p)).isSome := by
  obtain ⟨l, -, -, hread⟩ := h.exists_read (f := f) fun x hx => h.start hx
  rw [hread]
  rfl

variable {A B : List Struct} {k : ℕ} {hc tc : Content}

/-- A cut does not show to a walk that reads from the halves what it reads from the whole. -/
theorem Woven.readRight_split (h : d.Woven ord)
    (hs : d.store.structs it.id.client = A ++ .item it :: B)
    (hsplice : it.content.splice k = .ok (hc, tc)) (h0 : 0 < k) (hk : k < it.len)
    (hother : ∀ c, d.Stored c → c ≠ it → f' c = f c)
    (hhalves : f' (it.head hc) ++ f' (it.tail k tc) = f it) {o : Option ID}
    (ho : ∀ x, o = some x → x ∈ ord) :
    (d.replace it (it.head hc) (it.tail k tc) A.length).readRight f'
        (d.replace it (it.head hc) (it.tail k tc) A.length).size o =
      d.readRight f d.size o := by
  have hst : d.Stored it := by simp [Stored, hs]
  obtain ⟨ord', h', hsub⟩ := h.split hs hsplice h0 hk
  set d' := d.replace it (it.head hc) (it.tail k tc) A.length with hd'
  have hnew : it.unit k ∉ ord := fun hm => by
    obtain ⟨c, hc, hid⟩ := h.mem.1 hm
    exact hst.id_ne_unit hc h.gapless h0 hk hid
  have hne : it.id ≠ it.unit k := fun heq => hnew (heq ▸ h.mem.2 ⟨it, hst, rfl⟩)
  obtain ⟨l, hl, hmem, hread⟩ := h.exists_read (f := f) ho
  obtain ⟨l', hl', -, hread'⟩ := h'.exists_read (f := f') fun x hx => hsub x (ho x hx)
  have hright : ∀ y, d'.right y = if y = it.id then some (it.unit k)
      else if y = it.unit k then d.right it.id else d.right y := fun y => by
    rw [hd', replace_right, Item.tail_id]
  have hexp := hl.expand (fun hm => hnew (hmem _ hm)) hne hright
  rw [hread, hread', hl'.unique hexp, List.flatMap_assoc]
  refine congrArg some (List.flatMap_congr fun y hy => ?_)
  have hat : ∀ {c}, d'.Stored c → d'.readAt f' c.id = f' c := fun {c} hst' => by
    rw [readAt, hst'.itemAt h'.gapless (hst'.id_mem_units h'.gapless)]
    rfl
  obtain ⟨c, hcst, rfl, hcat⟩ := h.exists_itemAt (hmem y hy)
  have hread : d.readAt f c.id = f c := by
    rw [readAt, hcat]
    rfl
  by_cases hci : c.id = it.id
  · obtain rfl : it = c := hst.unique hcst h.gapless (hst.id_mem_units h.gapless)
      (hci ▸ hcst.id_mem_units h.gapless)
    have hhead : d'.Stored (it.head hc) := (stored_replace h.gapless hs).2 (.inr (.inl rfl))
    have htail : d'.Stored (it.tail k tc) := (stored_replace h.gapless hs).2 (.inr (.inr rfl))
    have h1 : d'.readAt f' it.id = f' (it.head hc) := hat hhead
    have h2 : d'.readAt f' (it.unit k) = f' (it.tail k tc) := hat htail
    simp [h1, h2, hread, hhalves]
  · have hcne : c ≠ it := fun heq => hci (heq ▸ rfl)
    have h1 : d'.readAt f' c.id = f' c := hat ((stored_replace h.gapless hs).2 (.inl ⟨hcst, hcne⟩))
    simp [hci, h1, hread, hother c hcst hcne]

end Read

/-! ### Cuts that do not show -/

/-- The entries of maps are single units. -/
def UnitEntries (d : Doc) : Prop := ∀ it, d.Stored it → it.hasParentSub = true → it.len = 1

theorem Stored.mem_entries (h : d.Stored it) : ∃ p ∈ d.store.entries, .item it ∈ p.2 := by
  unfold Stored StructStore.structs at h
  cases hf : d.store.find? it.id.client with
  | none => simp [hf] at h
  | some ss =>
    rw [hf, Option.getD_some] at h
    exact ⟨_, SortedMap.find?_eq_some.1 hf, h⟩

/-- The struct is no map entry of several units. -/
def isPlainEntry : Struct → Bool
  | .item it => !it.hasParentSub || it.len == 1
  | _ => true

theorem unitEntries_of_store (h : ∀ p ∈ d.store.entries, ∀ st ∈ p.2, isPlainEntry st = true) :
    d.UnitEntries := by
  intro it hst hkey
  obtain ⟨p, hp, hm⟩ := hst.mem_entries
  simpa [isPlainEntry, hkey] using h p hp _ hm

theorem piece_eq (h : it.Piece it') (hlen : it.len = 1) : it' = it := by
  induction h with
  | refl => rfl
  | head _ _ h0 hk ih =>
    rw [ih, hlen] at hk
    omega
  | tail _ _ h0 hk ih =>
    rw [ih, hlen] at hk
    omega

theorem UnitEntries.marks (h : d.UnitEntries) (hm : Marks d d') : d'.UnitEntries := by
  intro it' hst' hkey
  obtain ⟨it, hst, hp⟩ := hm.pieces it' hst'
  have hlen := h it hst (hp.parent_eq.2.1 ▸ hkey)
  rw [piece_eq hp hlen]
  exact hlen

/-- What a reader sees of `d'` is what it sees of `d`: the same clocks, the same deletions, the same
values. -/
structure Alike (d d' : Doc) : Prop where
  woven : ∃ ord, d'.Woven ord
  entries : d'.UnitEntries
  state : ∀ c, d'.state c = d.state c
  gone : ∀ x, d'.Gone x ↔ d.Gone x
  live : ∀ p, d'.liveUnits p = d.liveUnits p
  get : ∀ p key, d'.mapGet p key = d.mapGet p key

theorem Alike.refl (hw : d.Woven ord) (he : d.UnitEntries) : Alike d d :=
  ⟨⟨ord, hw⟩, he, fun _ => rfl, fun _ => Iff.rfl, fun _ => rfl, fun _ _ => rfl⟩

theorem Alike.trans (h : Alike d d') (h' : Alike d' d'') : Alike d d'' where
  woven := h'.woven
  entries := h'.entries
  state c := (h'.state c).trans (h.state c)
  gone x := (h'.gone x).trans (h.gone x)
  live p := (h'.live p).trans (h.live p)
  get p key := (h'.get p key).trans (h.get p key)

theorem readRight_congr {β : Type} (d' d : Doc) (hstore : d'.store = d.store) (hright : d'.right = d.right)
    (f : Item → List β) (fuel : ℕ) (o : Option ID) :
    d'.readRight f fuel o = d.readRight f fuel o := by
  have hat : d'.itemAt = d.itemAt := by
    funext x
    rw [itemAt, hstore, itemAt]
  induction fuel generalizing o with
  | zero => cases o <;> rfl
  | succ fuel ih =>
    cases o with
    | none => rfl
    | some x => simp only [readRight, hat, hright, ih]

theorem Alike.hold (h : Alike d d') (p : List Update) (ds : DeleteSet) :
    Alike d { d' with pending := p, pendingDeletes := ds } := by
  set e : Doc := { d' with pending := p, pendingDeletes := ds } with he
  refine ⟨?_, h.entries, h.state, h.gone, fun q => ?_, h.get⟩
  · obtain ⟨ord, hw⟩ := h.woven
    exact ⟨ord, hw.gapless, hw.weave, hw.mem, hw.start, hw.mapItems⟩
  · exact (readRight_congr e d' rfl rfl _ _ _).trans (h.live q)

section Split

variable {A B : List Struct} {k : ℕ} {hc tc : Content}

theorem replace_deleted (d : Doc) (it head tail : Item) (n : ℕ) (y : ID) :
    (d.replace it head tail n).deleted y = if y = tail.id then d.deleted it.id else d.deleted y := by
  simp only [replace, Function.update_apply]

theorem replace_mapItems_eq {head tail : Item} {n : ℕ} (hkey : it.hasParentSub = false) :
    (d.replace it head tail n).mapItems = d.mapItems := by
  simp only [replace, hkey]
  cases it.parent <;> rfl

theorem liveOf_split (hw : d.Woven ord) (hs : d.store.structs it.id.client = A ++ .item it :: B)
    (hsplice : it.content.splice k = .ok (hc, tc)) (h0 : 0 < k) (hk : k < it.len) :
    (∀ c, d.Stored c →
      (d.replace it (it.head hc) (it.tail k tc) A.length).liveOf c = d.liveOf c) ∧
    (d.replace it (it.head hc) (it.tail k tc) A.length).liveOf (it.head hc) ++
      (d.replace it (it.head hc) (it.tail k tc) A.length).liveOf (it.tail k tc) = d.liveOf it := by
  have hst : d.Stored it := by simp [Stored, hs]
  have hcut := Content.splice_cut hsplice hk.le
  have hne : ∀ {c}, d.Stored c → c.id ≠ it.unit k := fun hc => hst.id_ne_unit hc hw.gapless h0 hk
  constructor
  · intro c hc
    simp only [liveOf, replace_deleted, Item.tail_id, hne hc, if_false]
  · simp only [liveOf, replace_deleted, Item.tail_id, Item.head_id, hne hst, if_false, if_true]
    split
    · rfl
    · have hlen : (it.head hc).units.length = (it.head hc).content.unitList.length := by
        rw [Content.length_unitList]
        simp [Item.units, Item.len]
      rw [Item.units_split hcut hk.le, Content.unitList_splice hsplice hk.le, ← List.zip_append hlen]
      rfl

/-- Cutting an item that is no entry of a map does not show. -/
theorem alike_replace (hw : d.Woven ord) (he : d.UnitEntries)
    (hs : d.store.structs it.id.client = A ++ .item it :: B)
    (hsplice : it.content.splice k = .ok (hc, tc)) (h0 : 0 < k) (hk : k < it.len) :
    Alike d (d.replace it (it.head hc) (it.tail k tc) A.length) := by
  have hst : d.Stored it := by simp [Stored, hs]
  have hcut := Content.splice_cut hsplice hk.le
  have hkey : it.hasParentSub = false := by
    rw [← Bool.not_eq_true]
    intro hkey
    have := he it hst hkey
    omega
  have hcuts := cuts_replace hw.gapless hs hsplice h0 hk
  obtain ⟨ord', hw', hsub⟩ := hw.split hs hsplice h0 hk
  obtain ⟨hother, hhalves⟩ := liveOf_split hw hs hsplice h0 hk
  have hmap : (d.replace it (it.head hc) (it.tail k tc) A.length).mapItems = d.mapItems :=
    replace_mapItems_eq hkey
  refine ⟨⟨ord', hw'⟩, he.marks hcuts.marks, hcuts.state, hcuts.gone, fun p => ?_, fun p key => ?_⟩
  · exact hw.readRight_split hs hsplice h0 hk (fun c hc _ => hother c hc) hhalves
      fun x hx => hw.start hx
  · unfold mapGet
    rw [hmap]
    cases hx : d.mapItems p key with
    | none => rfl
    | some x =>
      obtain ⟨c, hcst, rfl, hckey⟩ := hw.mapItems hx
      have hne : c ≠ it := by
        rintro rfl
        rw [hkey] at hckey
        cases hckey
      have hcst' : (d.replace it (it.head hc) (it.tail k tc) A.length).Stored c :=
        (stored_replace hw.gapless hs).2 (.inl ⟨hcst, hne⟩)
      simp only [replace_deleted, Item.tail_id, hst.id_ne_unit hcst hw.gapless h0 hk, if_false,
        hcst.itemAt hw.gapless (hcst.id_mem_units hw.gapless),
        hcst'.itemAt hw'.gapless (hcst'.id_mem_units hw'.gapless)]

end Split

/-- **Edits that delete nothing more do not show.** -/
theorem alike_edits (hw : d.Woven ord) (he : d.UnitEntries) (h : Edits d d')
    (hgone : ∀ x, d'.Gone x → d.Gone x) : Alike d d' := by
  induction h with
  | refl => exact .refl hw he
  | @split d₁ it A B k hc tc h₁ hs hsplice h0 hk ih =>
    have hm := h₁.marks hw.gapless
    have ih := ih fun x hx => hgone x (((cuts_replace hm.gapless hs hsplice h0 hk).gone x).2 hx)
    obtain ⟨ord₁, hw₁⟩ := ih.woven
    exact ih.trans (alike_replace hw₁ ih.entries hs hsplice h0 hk)
  | @delete d₁ it h₁ hst ih =>
    have hm := h₁.marks hw.gapless
    have hdel : ∀ x, (d₁.deleteItem it.id).Gone x ↔ d₁.Gone x ∨ x ∈ it.units := fun x =>
      gone_deleteItem hm.gapless hst
    have ih := ih fun x hx => hgone x ((hdel x).2 (.inl hx))
    -- the item was deleted already
    have hmem := hst.id_mem_units hm.gapless
    have hflag : d₁.deleted it.id = true := (hst.gone_iff hm.gapless hmem).1
      ((ih.gone _).2 (hgone _ ((hdel _).2 (.inr hmem))))
    have hself : d₁.deleteItem it.id = d₁ := by
      rw [deleteItem, ← hflag, Function.update_eq_self]
    rwa [hself]
  | held ds _ ih => exact (ih hgone).hold _ ds

end Doc

end YCollab.Crdt
