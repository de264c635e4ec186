import YCollab.Crdt.Place
import YCollab.Crdt.Turn

/-!
# Linking an item into its list

`link` appends an item to the store and relinks its neighbours. If the item goes where
`Yata.Ops.insert` puts its first unit, the document represents one run of units more (`Rep.link`).
-/

namespace YCollab.Crdt

open Lib0 Yata Yata.Ops

variable {H : Shape} {d : Doc} {w : List ID} {ch : ListID → List Item} {it c : Item} {x : ID}

/-! ### The lists of a represented document -/

namespace Rep

theorem units_nodup (it : Item) : it.units.Nodup :=
  List.Nodup.map (fun i j hij => by simpa [Item.unit] using hij) List.nodup_range

theorem length_le_size (h : Rep H d w ch) (l : ListID) : (ch l).length ≤ d.size := by
  rw [← List.length_map (f := Item.id)]
  refine Doc.length_le_size (h.nodup l) fun x hx => ?_
  obtain ⟨it, hit, rfl⟩ := List.mem_map.1 hx
  exact ⟨it, ((h.stored l it).1 hit).1, rfl⟩

theorem leftmost_eq {d : Doc} {A B : List ID} {a : ID} {fuel : ℕ}
    (h : Linked d.left d.right (A ++ a :: B)) (hfuel : A.length ≤ fuel) :
    d.leftmost fuel (some a) = (A ++ a :: B).head? := by
  induction A using List.reverseRecOn generalizing a B fuel with
  | nil =>
    cases fuel with
    | zero => rfl
    | succ fuel => simp [Doc.leftmost, h.left_eq]
  | append_singleton A b ih =>
    obtain ⟨fuel, rfl⟩ : ∃ n, fuel = n + 1 := ⟨fuel - 1, by simp at hfuel; omega⟩
    have h' : Linked d.left d.right (A ++ b :: (a :: B)) := by simpa using h
    have := @ih (a :: B) b fuel h' (by simpa using hfuel)
    simpa [Doc.leftmost, h.left_eq] using this

theorem listHead_eq (h : Rep H d w ch) (l : ListID) :
    d.listHead l = ((ch l).map Item.id).head? := by
  unfold Doc.listHead
  cases hk : l.key with
  | none => exact h.head l hk
  | some k =>
    simp only
    rw [h.last l k hk]
    have hlen := h.length_le_size l
    have hlink := h.linked l
    rw [← List.length_map (f := Item.id)] at hlen
    cases hlast : ((ch l).map Item.id).getLast? with
    | none =>
      rw [List.getLast?_eq_none_iff.1 hlast]
      cases d.size <;> rfl
    | some a =>
      obtain ⟨A, hA⟩ := List.getLast?_eq_some_iff.1 hlast
      rw [hA] at hlink hlen ⊢
      exact leftmost_eq hlink (by simp at hlen; omega)

theorem after_eq (h : Rep H d w ch) {l : ListID} {P Q : List Item} (hl : ch l = P ++ Q) :
    d.after l ((P.map Item.id).getLast?) = (Q.map Item.id).head? := by
  cases P using List.reverseRecOn with
  | nil => simpa [Doc.after, hl] using h.listHead_eq l
  | append_singleton P c =>
    have hlink := h.linked l
    rw [hl] at hlink
    have : Linked d.left d.right (P.map Item.id ++ c.id :: Q.map Item.id) := by simpa using hlink
    simpa [Doc.after] using this.right_eq

theorem nodup_units (h : Rep H d w ch) (l : ListID) : (allUnits (ch l)).Nodup := by
  refine List.nodup_flatMap.2 ⟨fun it _ => units_nodup it, ?_⟩
  have hne : (ch l).Pairwise fun a b => a.id ≠ b.id := List.pairwise_map.1 (h.nodup l)
  refine hne.imp_of_mem fun {a b} ha hb hab x hxa hxb => hab ?_
  rw [((h.stored l a).1 ha).1.unique ((h.stored l b).1 hb).1 h.gapless hxa hxb]

theorem mem_allUnits (h : Rep H d w ch) (hH : H.Lawful) {l : ListID} :
    x ∈ allUnits (ch l) ↔ d.Has x ∧ H.list x = l := by
  constructor
  · intro hm
    obtain ⟨it, hit, hx⟩ := List.mem_flatMap.1 hm
    obtain ⟨hst, rfl⟩ := (h.stored l it).1 hit
    refine ⟨hst.has h.gapless hx, ?_⟩
    obtain ⟨i, hi, rfl⟩ := List.mem_map.1 hx
    exact (h.fits hst).list_eq hH (List.mem_range.1 hi)
  · rintro ⟨hx, rfl⟩
    obtain ⟨it, hst, hx⟩ := h.exists_stored hx
    obtain ⟨i, hi, rfl⟩ := List.mem_map.1 hx
    refine List.mem_flatMap.2 ⟨it, (h.stored _ it).2 ⟨hst, ?_⟩, hx⟩
    exact ((h.fits hst).list_eq hH (List.mem_range.1 hi)).symm

/-! ### Reading a list -/

theorem walkRight_eq (h : Rep H d w ch) {l : ListID} {P Q : List Item} (hl : ch l = P ++ Q)
    {fuel : ℕ} (hfuel : Q.length ≤ fuel) :
    d.walkRight fuel ((Q.map Item.id).head?) = some (allUnits Q) := by
  induction Q generalizing P fuel with
  | nil => cases fuel <;> rfl
  | cons it Q ih =>
    obtain ⟨fuel, rfl⟩ := Nat.exists_eq_succ_of_ne_zero (n := fuel) (by simp at hfuel; omega)
    have hst := ((h.stored l it).1 (by simp [hl])).1
    have hright : d.right it.id = (Q.map Item.id).head? := by
      have := h.after_eq (P := P ++ [it]) (Q := Q) (by simpa using hl)
      simpa [Doc.after] using this
    rw [List.map_cons, List.head?_cons, Doc.walkRight,
      hst.itemAt h.gapless (hst.id_mem_units h.gapless), hright]
    simp only
    rw [ih (P := P ++ [it]) (by simpa using hl) (by simpa using hfuel)]
    rfl

theorem listUnits_eq (h : Rep H d w ch) (l : ListID) :
    d.listUnits l = some (H.ops.insertAll (w.filter fun x => H.list x = l)) := by
  rw [← h.flat, Doc.listUnits, h.listHead_eq]
  exact h.walkRight_eq (P := []) rfl (h.length_le_size l)

/-! ### Linking an item -/

section Link

variable {P Q : List Item}

/-- What a new item is like: it fits, it is next in its client's clock space, and what it depends
on has been integrated. -/
structure Next (H : Shape) (d : Doc) (it : Item) : Prop where
  fits : H.FitsStored it
  clock : it.id.clock = d.state it.id.client
  deps : ∀ {y}, H.Dep it.id y → d.Has y

theorem Next.not_has (hn : Next H d it) {y : ID} (hy : y ∈ it.units) : ¬d.Has y := by
  obtain ⟨hc, hlo, -⟩ := Item.mem_units.1 hy
  have := hn.clock
  unfold Doc.Has
  rw [hc]
  omega

theorem Next.structs_link (hn : Next H d it) (p : TypeID) (left : Option ID) (c : ℕ) :
    (d.link it p left).store.structs c =
      if c = it.id.client then d.store.structs c ++ [.item it] else d.store.structs c := by
  have hstate : d.store.state (Struct.item it).id.client = (Struct.item it).id.clock := hn.clock.symm
  rw [Doc.link_store, StructStore.structs_append hstate]
  rfl

theorem Next.state_link (hn : Next H d it) (hg : d.store.Gapless) (p : TypeID) (left : Option ID)
    (c : ℕ) : (d.link it p left).state c =
      if c = it.id.client then it.id.clock + it.len else d.state c := by
  have hstate : d.store.state (Struct.item it).id.client = (Struct.item it).id.clock := hn.clock.symm
  have hpos : 0 < (Struct.item it).len := hn.fits.pos
  unfold Doc.state
  rw [Doc.link_store, hg.state_append hpos rfl hstate]
  rfl

theorem Next.has_link (hn : Next H d it) (hg : d.store.Gapless) (p : TypeID) (left : Option ID) :
    (d.link it p left).Has x ↔ d.Has x ∨ x ∈ it.units := by
  have hclock := hn.clock
  unfold Doc.Has
  rw [hn.state_link hg, Item.mem_units]
  split
  next hc =>
    rw [hc]
    omega
  next hc => exact (or_iff_left fun hx => hc hx.1).symm

theorem Next.stored_link (hn : Next H d it) (p : TypeID) (left : Option ID) :
    (d.link it p left).Stored c ↔ d.Stored c ∨ c = it := by
  unfold Doc.Stored
  rw [hn.structs_link]
  split
  next => simp
  next hc =>
    refine (or_iff_left ?_).symm
    rintro rfl
    exact hc rfl

theorem Next.past_mem (hn : Next H d it) (h : Rep H d w ch) (hH : H.Lawful) {i : ℕ}
    (hi : i < it.len) {y : ID} (hy : H.Past (it.unit i) y) :
    y ∈ w ++ (List.range i).map it.unit := by
  induction i using Nat.strong_induction_on with
  | _ i ih =>
    obtain ⟨z, hz, hzy⟩ := Relation.TransGen.head'_iff.1 hy
    rcases hn.fits.dep_cases hH hi hz with hz | ⟨j, hj, rfl⟩
    · replace hz := (h.mem z).2 (hn.deps hz)
      rcases Relation.reflTransGen_iff_eq_or_transGen.1 hzy with rfl | hp
      · exact List.mem_append_left _ hz
      · have hmem := hH.closed (h.causal.mem_of hz) hp
        exact List.mem_append_left _ (h.causal.closed hz hmem hp)
    · rcases Relation.reflTransGen_iff_eq_or_transGen.1 hzy with rfl | hp
      · exact List.mem_append_right _ (List.mem_map_of_mem (List.mem_range.2 hj))
      · refine (List.mem_append.1 (ih j hj (by omega) hp)).elim (List.mem_append_left _) fun hm => ?_
        obtain ⟨k, hk, rfl⟩ := List.mem_map.1 hm
        have := List.mem_range.1 hk
        exact List.mem_append_right _ (List.mem_map_of_mem (List.mem_range.2 (by omega)))

theorem Next.causal (hn : Next H d it) (h : Rep H d w ch) (hH : H.Lawful) :
    Causal H.Past H.mem (w ++ it.units) := by
  have hrun : ∀ n ≤ it.len, Causal H.Past H.mem (w ++ (List.range n).map it.unit) := by
    intro n
    induction n with
    | zero => simpa using h.causal
    | succ n ih =>
      intro hle
      rw [List.range_succ, List.map_append, ← List.append_assoc]
      refine (ih (by omega)).snoc (hn.fits.mem n (by omega)) ?_ fun y _ hy =>
        hn.past_mem h hH (by omega) hy
      rw [List.mem_append, h.mem]
      rintro (hhas | hm)
      · exact hn.not_has (List.mem_map_of_mem (List.mem_range.2 (by omega))) hhas
      · obtain ⟨j, hj, heq⟩ := List.mem_map.1 hm
        have := congrArg ID.clock heq
        simp [Item.unit] at this hj
        omega
  exact hrun it.len le_rfl

theorem Next.id_mem (hn : Next H d it) : it.id ∈ it.units :=
  Item.mem_units.2 ⟨rfl, le_rfl, by have := hn.fits.pos; omega⟩

theorem Next.id_not_mem (hn : Next H d it) (h : Rep H d w ch) (l : ListID) :
    it.id ∉ (ch l).map Item.id := by
  intro hm
  obtain ⟨it', hit', hid⟩ := List.mem_map.1 hm
  have hst := ((h.stored l it').1 hit').1
  exact hn.not_has hn.id_mem (hid ▸ hst.has h.gapless (hst.id_mem_units h.gapless))

theorem Next.nodup (hn : Next H d it) (h : Rep H d w ch) (hl : ch (H.list it.id) = P ++ Q) :
    ((P ++ it :: Q).map Item.id).Nodup := by
  have hids := h.nodup (H.list it.id)
  have hfresh := hn.id_not_mem h (H.list it.id)
  rw [hl, List.map_append] at hids hfresh
  rw [List.map_append, List.map_cons, List.nodup_middle]
  exact List.nodup_cons.2 ⟨hfresh, hids⟩

theorem Next.list_eq (hn : Next H d it) : ⟨(H.list it.id).parent, it.key⟩ = H.list it.id := by
  rw [hn.fits.key]

theorem Next.linked (hn : Next H d it) (h : Rep H d w ch) (hl : ch (H.list it.id) = P ++ Q)
    (l : ListID) :
    Linked (d.link it (H.list it.id).parent ((P.map Item.id).getLast?)).left
      (d.link it (H.list it.id).parent ((P.map Item.id).getLast?)).right
      ((Function.update ch (H.list it.id) (P ++ it :: Q) l).map Item.id) := by
  have hafter := h.after_eq hl
  have hlink := h.linked (H.list it.id)
  rw [hl, List.map_append] at hlink
  have hnd := hn.nodup h hl
  have hfresh := hn.id_not_mem h
  have hmem : ∀ a, a ∈ P.map Item.id ∨ a ∈ Q.map Item.id → a ∈ (ch (H.list it.id)).map Item.id :=
    fun a ha => by rwa [hl, List.map_append, List.mem_append]
  by_cases hll : l = H.list it.id
  · subst hll
    rw [Function.update_self]
    rw [List.map_append, List.map_cons] at hnd ⊢
    refine hlink.insert hnd (fun y => ?_) fun y => ?_
    · rw [Doc.link_left, hn.list_eq, hafter]
      by_cases hy : y = it.id
      · have hne : (Q.map Item.id).head? ≠ some it.id := fun hhead =>
          hfresh _ (hmem _ (.inr (List.mem_of_head? hhead)))
        rw [hy, if_neg hne, if_pos rfl, if_pos rfl]
      · simp [hy]
    · rw [Doc.link_right, hn.list_eq, hafter]
  · -- another list shares no node with this one
    rw [Function.update_of_ne hll]
    have hne : ∀ a ∈ (ch l).map Item.id, a ∉ P.map Item.id ∧ a ∉ Q.map Item.id := fun a ha =>
      ⟨fun hm => hll ((h.list_of_mem ha).symm.trans (h.list_of_mem (hmem a (.inl hm)))),
        fun hm => hll ((h.list_of_mem ha).symm.trans (h.list_of_mem (hmem a (.inr hm))))⟩
    have hid : ∀ a ∈ (ch l).map Item.id, a ≠ it.id := fun a ha heq => hfresh l (heq ▸ ha)
    refine (h.linked l).congr (fun a ha => ?_) fun a ha => ?_
    · rw [Doc.link_left, hn.list_eq, hafter, if_neg (hid a ha), if_neg]
      exact fun hhead => (hne a ha).2 (List.mem_of_head? hhead)
    · rw [Doc.link_right, if_neg (hid a ha), if_neg]
      exact fun hlast => (hne a ha).1 (List.mem_of_getLast? hlast)

theorem Next.head (hn : Next H d it) (h : Rep H d w ch) (hl : ch (H.list it.id) = P ++ Q)
    {l : ListID} (hkey : l.key = none) :
    (d.link it (H.list it.id).parent ((P.map Item.id).getLast?)).start l.parent =
      ((Function.update ch (H.list it.id) (P ++ it :: Q) l).map Item.id).head? := by
  rw [Doc.link_start, h.head l hkey]
  by_cases hll : l = H.list it.id
  · subst hll
    have hsub := Item.key_eq_none.1 (hn.fits.key.trans hkey)
    rw [Function.update_self, hl]
    cases P with
    | nil => simp [hsub]
    | cons q P => simp [List.getLast?_cons]
  · rw [Function.update_of_ne hll, if_neg]
    rintro ⟨-, hsub, hp⟩
    exact hll (ListID.ext hp (hkey.trans ((Item.key_eq_none.2 hsub).symm.trans hn.fits.key)))

theorem Next.last (hn : Next H d it) (h : Rep H d w ch) (hl : ch (H.list it.id) = P ++ Q)
    {l : ListID} {k : Bytes} (hkey : l.key = some k) :
    (d.link it (H.list it.id).parent ((P.map Item.id).getLast?)).mapItems l.parent k =
      ((Function.update ch (H.list it.id) (P ++ it :: Q) l).map Item.id).getLast? := by
  rw [Doc.link_mapItems, h.last l k hkey, hn.list_eq, h.after_eq hl]
  by_cases hll : l = H.list it.id
  · subst hll
    have hsub := Item.key_eq_some.1 (hn.fits.key.trans hkey)
    rw [Function.update_self, hl]
    cases Q using List.reverseRecOn with
    | nil => simp [hsub]
    | append_singleton Q q => cases Q <;> simp [List.getLast?_append]
  · rw [Function.update_of_ne hll, if_neg]
    rintro ⟨-, hsub, hp, hk⟩
    exact hll (ListID.ext hp
      (hkey.trans ((Item.key_eq_some.2 ⟨hsub, hk.symm⟩).symm.trans hn.fits.key)))

/-- The units of the item go into their list in one piece. -/
theorem Next.flat (hn : Next H d it) (h : Rep H d w ch) (hH : H.Lawful)
    (hl : ch (H.list it.id) = P ++ Q)
    (hins : H.ops.insert (allUnits (P ++ Q)) it.id = allUnits P ++ it.id :: allUnits Q)
    (l : ListID) :
    allUnits (Function.update ch (H.list it.id) (P ++ it :: Q) l) =
      H.ops.insertAll ((w ++ it.units).filter fun x => H.list x = l) := by
  have hlist : ∀ y ∈ it.units, H.list y = H.list it.id := by
    intro y hy
    obtain ⟨i, hi, rfl⟩ := List.mem_map.1 hy
    exact hn.fits.list_eq hH (List.mem_range.1 hi)
  rw [List.filter_append]
  by_cases hll : l = H.list it.id
  · subst hll
    rw [Function.update_self,
      List.filter_eq_self.2 fun y hy => decide_eq_true (hlist y hy)]
    obtain ⟨ys, hunits, hys⟩ := hn.fits.follows_units hn.fits.pos
    have hflat := h.flat (H.list it.id)
    have hold : ∀ y ∈ allUnits (P ++ Q), d.Has y := fun y hy =>
      ((h.mem_allUnits hH).1 (hl ▸ hy)).1
    have hnd := h.nodup_units (H.list it.id)
    rw [hl] at hflat hnd
    have hfirst : H.ops.insertAll ((w.filter fun x => H.list x = H.list it.id) ++ [it.id]) =
        allUnits P ++ it.id :: allUnits Q := by
      rw [insertAll_snoc, ← hflat, hins]
    have hperm : (allUnits P ++ it.id :: ys ++ allUnits Q).Nodup := by
      have hnew : (it.units ++ allUnits (P ++ Q)).Nodup :=
        List.nodup_append.2 ⟨units_nodup it, hnd, fun a ha b hb hab =>
          hn.not_has ha (hab ▸ hold b hb)⟩
      rw [← hunits]
      refine (List.Perm.nodup_iff ?_).2 hnew
      rw [allUnits_append, ← List.append_assoc]
      exact List.perm_append_comm.append_right _
    have := insertAll_run hfirst hperm hys fun v hv y hy ho =>
      hn.not_has (hunits ▸ hy) (h.has_of_dep hH (hold v (by
        rw [allUnits_append]
        exact List.mem_append_right _ hv)) (.origin ho))
    rw [hunits, this, ← hunits]
    simp [allUnits]
  · have hnone : it.units.filter (fun x => decide (H.list x = l)) = [] :=
      List.filter_eq_nil_iff.2 fun y hy => by simpa [hlist y hy] using Ne.symm hll
    rw [Function.update_of_ne hll, hnone, List.append_nil, ← h.flat]

/-- An item that goes where its first unit belongs adds its units to what is represented. -/
theorem link (h : Rep H d w ch) (hH : H.Lawful) (hn : Next H d it)
    (hl : ch (H.list it.id) = P ++ Q)
    (hins : H.ops.insert (allUnits (P ++ Q)) it.id = allUnits P ++ it.id :: allUnits Q) :
    Rep H (d.link it (H.list it.id).parent ((P.map Item.id).getLast?)) (w ++ it.units)
      (Function.update ch (H.list it.id) (P ++ it :: Q)) where
  gapless := by
    rw [Doc.link_store]
    exact h.gapless.append hn.fits.pos rfl
  items c st hm := by
    rw [hn.structs_link] at hm
    split at hm
    · rcases List.mem_append.1 hm with hm | hm
      · exact h.items c st hm
      · exact ⟨it, List.mem_singleton.1 hm, hn.fits⟩
    · exact h.items c st hm
  causal := hn.causal h hH
  mem x := by rw [List.mem_append, h.mem, hn.has_link h.gapless]
  nodup l := by
    by_cases hll : l = H.list it.id
    · rw [hll, Function.update_self]
      exact hn.nodup h hl
    · rw [Function.update_of_ne hll]
      exact h.nodup l
  linked := hn.linked h hl
  head _ := hn.head h hl
  last _ _ := hn.last h hl
  stored l c := by
    rw [hn.stored_link]
    by_cases hll : l = H.list it.id
    · subst hll
      have := h.stored (H.list it.id) c
      rw [hl] at this
      rw [Function.update_self, List.mem_append, List.mem_cons, or_left_comm, ← List.mem_append,
        this]
      constructor
      · rintro (rfl | ⟨hst, hlist⟩)
        · exact ⟨.inr rfl, rfl⟩
        · exact ⟨.inl hst, hlist⟩
      · rintro ⟨hst | rfl, hlist⟩
        · exact .inr ⟨hst, hlist⟩
        · exact .inl rfl
    · rw [Function.update_of_ne hll, h.stored]
      constructor
      · exact fun ⟨hst, hlist⟩ => ⟨.inl hst, hlist⟩
      · rintro ⟨hst | rfl, hlist⟩
        · exact ⟨hst, hlist⟩
        · exact absurd hlist.symm hll
  flat := hn.flat h hH hl hins

end Link

end Rep

end YCollab.Crdt
