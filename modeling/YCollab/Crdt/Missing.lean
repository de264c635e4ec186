import YCollab.Crdt.Contains
import YCollab.Crdt.Passed

/-!
# What a diff covers

`Doc.EncodeStateAsUpdate` writes, for a peer with a state vector, the structs from the peer's clocks
on.  Where a clock is inside a struct only the rest of the struct is written: `Content.Write` takes
the number of units to leave out.  `ContentString.Write` cannot leave out half of a surrogate pair,
and then writes the whole string, under the clock of the peer: what follows is shifted.

`CoversMissing` says what a peer expects of the update that it decodes, and
`diff_covers_missing_iff` when it gets that.
-/

namespace YCollab.Crdt

open Lib0

/-! ### The content of structs -/

namespace Struct

/-- What a struct holds at each of its clocks: nothing, if only the clocks are known. -/
def slots : Struct → List (Option ContentUnit)
  | gc _ n => List.replicate n none
  | skip _ n => List.replicate n none
  | item it => it.content.unitList.map some

@[simp] theorem length_slots (st : Struct) : st.slots.length = st.len := by
  cases st with
  | item it =>
    rw [slots, List.length_map, Content.length_unitList]
    rfl
  | _ => exact List.length_replicate

@[simp] theorem isSkip_moved (st : Struct) (id : ID) : (st.moved id).isSkip = st.isSkip := by
  cases st <;> rfl

@[simp] theorem isSkip_wired (st : Struct) : st.wired.isSkip = st.isSkip := by cases st <;> rfl

theorem isSkip_dropped (st : Struct) (k : ℕ) : (st.dropped k).isSkip = st.isSkip := by
  cases st <;> rfl

@[simp] theorem slots_moved (st : Struct) (id : ID) : (st.moved id).slots = st.slots := by
  cases st <;> rfl

theorem slots_wired (st : Struct) :
    st.wired.slots = st.slots.map (Option.map ContentUnit.wired) := by
  cases st with
  | item it =>
    simp only [wired, slots, Item.wired, Content.unitList_wired, List.map_map]
    rfl
  | _ => simp [wired, slots]

end Struct

theorem length_flatMap_slots (l : List Struct) : (l.flatMap Struct.slots).length = lengthOf l := by
  simp [List.length_flatMap, lengthOf]

theorem flatMap_slots_renumber (c k : ℕ) (l : List Struct) :
    (renumber c k l).flatMap Struct.slots = l.flatMap Struct.slots := by
  induction l generalizing k with
  | nil => rfl
  | cons st l ih => simp [renumber, ih]

theorem ClientBlock.slots_sent (c k : ℕ) (l : List Struct) :
    (⟨c, k, l⟩ : ClientBlock).sent.wired.structs.flatMap Struct.slots =
      ((sentStructs k l).flatMap Struct.slots).map (Option.map ContentUnit.wired) := by
  simp only [ClientBlock.wired, ClientBlock.sent, List.flatMap_map, List.map_flatMap,
    Struct.slots_wired]
  rw [← List.map_flatMap, ← List.map_flatMap, flatMap_slots_renumber]

theorem Contig.run {c k : ℕ} {l : List Struct} (h : Contig c k l)
    (hl : ∀ st ∈ l, 0 < st.len ∧ st.isSkip = false) : Run c k l := by
  induction l generalizing k with
  | nil => exact trivial
  | cons st l ih =>
    obtain ⟨hpos, hskip⟩ := hl st (List.mem_cons_self ..)
    exact ⟨h.1, hpos, hskip, ih h.2 fun st hst => hl st (List.mem_cons_of_mem _ hst)⟩

/-! ### Leaving out units -/

theorem Content.dropped_of_low {c : Content} {k : ℕ} (hk : k < c.len) (hlow : c.lowAt k = true) :
    c.dropped k = c := by
  have h0 : 0 < k := by
    rcases Nat.eq_zero_or_pos k with rfl | hpos
    · rw [Content.lowAt_zero] at hlow
      cases hlow
    · exact hpos
  unfold Content.dropped
  split
  next h t hs =>
    rw [(Content.splice_isOk_iff h0 hk).1 ⟨h, t, hs⟩] at hlow
    cases hlow
  next => rfl

theorem Content.unitList_dropped {c : Content} {k : ℕ} (hk : k < c.len)
    (hlow : c.lowAt k = false) : (c.dropped k).unitList = c.unitList.drop k := by
  rcases Nat.eq_zero_or_pos k with rfl | hpos
  · rw [Content.dropped_zero, List.drop_zero]
  · obtain ⟨h, t, hs⟩ := (Content.splice_isOk_iff hpos hk).2 hlow
    have hlen : h.len = k := (Content.splice_cut hs hk.le).len_head
    rw [Content.unitList_splice hs hk.le, ← hlen, ← Content.length_unitList, List.drop_left]
    simp only [Content.dropped, hlen, hs, Content.length_unitList]

namespace Doc

variable {d : Doc} {c k : ℕ} {st : Struct} {A B : List Struct} {sv : StateVector} {u : Update}

/-- The units of a client from one clock to another, as the document holds them. -/
def unitsFrom (d : Doc) (c k n : ℕ) : List (Option ContentUnit) :=
  (List.range' k n).map fun i => d.unitAt ⟨c, i⟩

@[simp] theorem length_unitsFrom (d : Doc) (c k n : ℕ) : (d.unitsFrom c k n).length = n := by
  simp [unitsFrom]

theorem unitsFrom_append (d : Doc) (c k n m : ℕ) :
    d.unitsFrom c k n ++ d.unitsFrom c (k + n) m = d.unitsFrom c k (n + m) := by
  rw [unitsFrom, unitsFrom, ← List.map_append, List.range'_append_1]
  rfl

theorem drop_unitsFrom (d : Doc) (c k n i : ℕ) :
    (d.unitsFrom c k n).drop i = d.unitsFrom c (k + i) (n - i) := by
  simp [unitsFrom, ← List.map_drop, List.drop_range']

/-- A struct holds what the document holds at its clocks. -/
theorem slots_eq (hg : d.store.Gapless) (hst : st ∈ d.store.structs c) :
    st.slots = d.unitsFrom c st.id.clock st.len := by
  have hc : st.id.client = c := hg.client_eq hst
  refine List.ext_getElem (by simp) fun i h1 h2 => ?_
  rw [length_unitsFrom] at h2
  simp only [unitsFrom, List.getElem_map, List.getElem_range', Nat.one_mul]
  cases st with
  | gc id n =>
    have hnone : d.unitAt ⟨c, id.clock + i⟩ = none :=
      unitAt_of_gc hg hst (Nat.le_add_right ..) (Nat.add_lt_add_left h2 _)
    simp [Struct.slots, hnone]
  | skip id n =>
    obtain ⟨A, B, hs⟩ := List.append_of_mem hst
    cases (hs ▸ hg.run c).split.2.2.2.1
  | item it =>
    have hstored : d.Stored it := Stored.of_mem hg hst
    have hx : (⟨c, it.id.clock + i⟩ : ID) ∈ it.units :=
      Item.mem_units.2 ⟨hc.symm, Nat.le_add_right .., Nat.add_lt_add_left h2 _⟩
    simp only [unitAt, Struct.id, hstored.itemAt hg hx, Option.bind_some, Nat.add_sub_cancel_left,
      Struct.slots, List.getElem_map]
    exact (List.getElem?_eq_getElem _).symm

theorem flatMap_slots_eq (hg : d.store.Gapless) (hs : d.store.structs c = A ++ B) :
    B.flatMap Struct.slots = d.unitsFrom c (lengthOf A) (lengthOf B) := by
  induction B generalizing A with
  | nil => rfl
  | cons st B ih =>
    have hid := (hs ▸ hg.run c).split.2.1
    have hrest := ih (A := A ++ [st]) (by rw [hs, List.append_assoc]; rfl)
    rw [List.flatMap_cons, hrest, slots_eq hg (c := c) (by simp [hs]), hid, Nat.zero_add,
      lengthOf_append, lengthOf_cons, lengthOf_cons, lengthOf_nil, Nat.add_zero, unitsFrom_append]

theorem lowAt_iff_of_mem (hg : d.store.Gapless) {it : Item} (hst : .item it ∈ d.store.structs c)
    (hlo : it.id.clock ≤ k) (hhi : k < it.id.clock + it.len) :
    d.LowAt ⟨c, k⟩ ↔ it.content.lowAt (k - it.id.clock) = true := by
  have hc : it.id.client = c := hg.client_eq hst
  exact (Stored.of_mem hg hst).lowAt_iff hg (Item.mem_units.2 ⟨hc.symm, hlo, hhi⟩)

theorem slots_dropped (hg : d.store.Gapless) (hst : st ∈ d.store.structs c)
    (hlo : st.id.clock ≤ k) (hhi : k < st.endClock) (hlow : ¬d.LowAt ⟨c, k⟩) :
    (st.dropped (k - st.id.clock)).slots = st.slots.drop (k - st.id.clock) := by
  cases st with
  | gc id n => simp [Struct.dropped, Struct.slots]
  | skip id n => simp [Struct.dropped, Struct.slots]
  | item it =>
    rw [lowAt_iff_of_mem hg hst hlo hhi, Bool.not_eq_true] at hlow
    have hk : k - it.id.clock < it.content.len := by
      simp only [Struct.endClock, Struct.id_item, Struct.len_item, Item.len] at hlo hhi
      omega
    simp only [Struct.dropped, Struct.slots, Item.dropped, Struct.id_item, ← List.map_drop,
      Content.unitList_dropped hk hlow]

theorem slots_dropped_of_low (hg : d.store.Gapless) (hst : st ∈ d.store.structs c)
    (hlo : st.id.clock ≤ k) (hhi : k < st.endClock) (hlow : d.LowAt ⟨c, k⟩) :
    st.id.clock < k ∧ (st.dropped (k - st.id.clock)).slots = st.slots := by
  obtain ⟨it, hit, hx, hhalf⟩ := hlow
  obtain ⟨hc, hlo', hhi'⟩ := Item.mem_units.1 hx
  obtain rfl : c = it.id.client := hc
  obtain rfl := (hg.run _).cover_unique hst hit hlo hhi hlo' hhi'
  constructor
  · refine Nat.lt_of_le_of_ne hlo fun heq => ?_
    rw [← heq, Struct.id_item, Nat.sub_self, Content.lowAt_zero] at hhalf
    cases hhalf
  · have hk : k - it.id.clock < it.content.len := by
      simp only [Item.len] at hlo' hhi'
      omega
    simp only [Struct.dropped, Struct.slots, Item.dropped, Struct.id_item,
      Content.dropped_of_low hk hhalf]

/-! ### Blocks -/

/-- **What a block holds** is what the document holds from its first clock on, as it is read back
from the wire, unless the block starts inside a pair. -/
theorem slots_block (hg : d.store.Gapless) (hs : d.store.structs c = A ++ st :: B)
    (hlo : st.id.clock ≤ k) (hhi : k < st.endClock) (hlow : ¬d.LowAt ⟨c, k⟩) :
    (sentStructs k (st :: B)).flatMap Struct.slots = d.unitsFrom c k (d.state c - k) := by
  have hmem : st ∈ d.store.structs c := by simp [hs]
  have hclock : st.id.clock = 0 + lengthOf A := congrArg ID.clock (hs ▸ hg.run c).split.2.1
  have hstate : d.state c = lengthOf A + (st.len + lengthOf B) := by
    rw [Doc.state, hg.state_eq, hs, lengthOf_append, lengthOf_cons]
  unfold Struct.endClock at hhi
  rw [sentStructs, List.flatMap_cons, slots_dropped hg hmem hlo hhi hlow, slots_eq hg hmem,
    drop_unitsFrom, Nat.add_sub_cancel' hlo,
    flatMap_slots_eq hg (show d.store.structs c = (A ++ [st]) ++ B by simp [hs]),
    lengthOf_append, lengthOf_cons, lengthOf_nil, Nat.add_zero,
    show lengthOf A + st.len = k + (st.len - (k - st.id.clock)) by omega, unitsFrom_append,
    show d.state c - k = st.len - (k - st.id.clock) + lengthOf B by omega]

theorem length_block_of_low (hg : d.store.Gapless) (hs : d.store.structs c = A ++ st :: B)
    (hlo : st.id.clock ≤ k) (hhi : k < st.endClock) (hlow : d.LowAt ⟨c, k⟩) :
    d.state c - k < ((sentStructs k (st :: B)).flatMap Struct.slots).length := by
  have hmem : st ∈ d.store.structs c := by simp [hs]
  have hclock : st.id.clock = 0 + lengthOf A := congrArg ID.clock (hs ▸ hg.run c).split.2.1
  have hstate : d.state c = lengthOf A + (st.len + lengthOf B) := by
    rw [Doc.state, hg.state_eq, hs, lengthOf_append, lengthOf_cons]
  obtain ⟨hpos, hslots⟩ := slots_dropped_of_low hg hmem hlo hhi hlow
  rw [sentStructs, List.flatMap_cons, hslots, List.length_append, Struct.length_slots,
    length_flatMap_slots]
  unfold Struct.endClock at hhi
  omega

/-- What is read back is what the document holds exactly if the block does not start inside a pair
and every value is one that the wire keeps. -/
theorem slots_sent_iff (hg : d.store.Gapless) {blk : ClientBlock} (hlt : k < d.state c)
    (hblk : d.blockFrom c k = some blk) :
    blk.sent.wired.structs.flatMap Struct.slots = d.unitsFrom c k (d.state c - k) ↔
      ¬d.LowAt ⟨c, k⟩ ∧ ∀ i v, k ≤ i → d.unitAt ⟨c, i⟩ = some v → v.wired = v := by
  obtain ⟨A, st, B, hs, hlo, hhi, heq⟩ := blockFrom_eq hg hlt
  obtain rfl := Option.some.inj (heq.symm.trans hblk)
  rw [ClientBlock.slots_sent]
  by_cases hlow : d.LowAt ⟨c, k⟩
  · refine iff_of_false (fun hunits => ?_) fun h => h.1 hlow
    have hlen := congrArg List.length hunits
    rw [List.length_map, length_unitsFrom] at hlen
    exact absurd hlen (Nat.ne_of_gt (length_block_of_low hg hs hlo hhi hlow))
  · rw [slots_block hg hs hlo hhi hlow, and_iff_right hlow, unitsFrom, List.map_map,
      List.map_inj_left]
    constructor
    · intro hall i v hi hv
      have hhas : i < d.state c := by
        by_contra hnot
        rw [unitAt_of_not_has hg (show ¬d.Has ⟨c, i⟩ from hnot)] at hv
        cases hv
      have := hall i (List.mem_range'_1.2 (by omega))
      simpa [hv] using this
    · intro hall i hi
      cases hv : d.unitAt ⟨c, i⟩ with
      | none => simp [hv]
      | some v => simp [hv, hall i v (List.mem_range'_1.1 hi).1 hv]

/-- What is read back are structs one after the other, unless the block starts inside a pair. -/
theorem run_sent (hg : d.store.Gapless) {blk : ClientBlock} (hlt : k < d.state c)
    (hblk : d.blockFrom c k = some blk) (hlow : ¬d.LowAt ⟨c, k⟩) :
    Run c k blk.sent.wired.structs := by
  obtain ⟨A, st, B, hs, hlo, hhi, heq⟩ := blockFrom_eq hg hlt
  obtain rfl := Option.some.inj (heq.symm.trans hblk)
  have hstored : ∀ st' ∈ d.store.structs c, 0 < st'.len ∧ st'.isSkip = false := by
    intro st' hst'
    obtain ⟨A', B', hs'⟩ := List.append_of_mem hst'
    obtain ⟨-, -, hpos, hskip, -⟩ := (hs' ▸ hg.run c).split
    exact ⟨hpos, hskip⟩
  have hmem : st ∈ d.store.structs c := by simp [hs]
  refine Contig.run (contig_renumber _ _ _).wired fun st' hst' => ?_
  obtain ⟨st₁, hst₁, rfl⟩ := List.mem_map.1 hst'
  obtain ⟨st₂, hst₂, id, rfl⟩ := exists_of_mem_renumber hst₁
  rw [Struct.len_wired, Struct.len_moved, Struct.isSkip_wired, Struct.isSkip_moved]
  rcases List.mem_cons.1 hst₂ with rfl | hB
  · rw [Struct.isSkip_dropped, ← Struct.length_slots, slots_dropped hg hmem hlo hhi hlow,
      List.length_drop, Struct.length_slots]
    unfold Struct.endClock at hhi
    exact ⟨by omega, (hstored st hmem).2⟩
  · exact hstored st₂ (by simp [hs, hB])

/-- What a peer expects of an update that it asked for with a state vector: one block for each
client of which it lacks something, with structs that cover exactly what it lacks, and hold what the
document holds there. -/
structure CoversMissing (d : Doc) (sv : StateVector) (u : Update) : Prop where
  once : u.Neat
  clients : ∀ c, (∃ blk ∈ u.clients, blk.client = c) ↔ sv.get c < d.state c
  start : ∀ blk ∈ u.clients, blk.startClock = sv.get blk.client
  run : ∀ blk ∈ u.clients, Run blk.client blk.startClock blk.structs
  units : ∀ blk ∈ u.clients, blk.structs.flatMap Struct.slots =
    d.unitsFrom blk.client (sv.get blk.client) (d.state blk.client - sv.get blk.client)

theorem mem_wired (hg : d.store.Gapless) {blk : ClientBlock} :
    blk ∈ (d.stateAsUpdate sv).sent.wired.clients ↔ ∃ blk', blk = blk'.sent.wired ∧
      sv.get blk.client < d.state blk.client ∧
      d.blockFrom blk.client (sv.get blk.client) = some blk' := by
  rw [Update.wired, List.mem_map]
  simp only [(Update.sortBlocks_perm _).mem_iff, mem_sent hg, Option.map_eq_some_iff]
  constructor
  · rintro ⟨_, ⟨c, hlt, blk', hblk, rfl⟩, rfl⟩
    obtain rfl : blk'.client = c := blockFrom_client hblk
    exact ⟨blk', rfl, hlt, hblk⟩
  · rintro ⟨blk', rfl, hlt, hblk⟩
    exact ⟨_, ⟨_, hlt, blk', hblk, rfl⟩, rfl⟩

/-- **A diff covers what is missing** exactly if no clock of the peer is inside a pair, and every
value it is sent is one that the wire keeps. -/
theorem coversMissing_sent (hg : d.store.Gapless) (sv : StateVector) :
    d.CoversMissing sv (d.stateAsUpdate sv).sent.wired ↔ ∀ c, sv.get c < d.state c →
      ¬d.LowAt ⟨c, sv.get c⟩ ∧
        ∀ k v, sv.get c ≤ k → d.unitAt ⟨c, k⟩ = some v → v.wired = v := by
  constructor
  · intro h c hlt
    obtain ⟨blk, hblk, rfl⟩ := (h.clients c).2 hlt
    obtain ⟨blk', heq, -, hfrom⟩ := (mem_wired hg).1 hblk
    exact (slots_sent_iff hg hlt hfrom).1 (heq ▸ h.units blk hblk)
  · intro h
    have hstart : ∀ blk ∈ (d.stateAsUpdate sv).sent.wired.clients,
        blk.startClock = sv.get blk.client := by
      intro blk hblk
      obtain ⟨blk', rfl, hlt, hfrom⟩ := (mem_wired hg).1 hblk
      obtain ⟨A, st, B, -, -, -, heq⟩ := blockFrom_eq hg hlt
      exact congrArg ClientBlock.startClock (Option.some.inj (hfrom.symm.trans heq))
    refine ⟨d.neat_stateAsUpdate sv, fun c => ⟨?_, fun hlt => ?_⟩, hstart, fun blk hblk => ?_,
      fun blk hblk => ?_⟩
    · rintro ⟨blk, hblk, rfl⟩
      obtain ⟨blk', -, hlt, -⟩ := (mem_wired hg).1 hblk
      exact hlt
    · obtain ⟨A, st, B, -, -, -, heq⟩ := blockFrom_eq hg hlt
      exact ⟨_, (mem_wired hg).2 ⟨⟨c, sv.get c, st :: B⟩, rfl, hlt, heq⟩, rfl⟩
    · rw [hstart blk hblk]
      obtain ⟨blk', rfl, hlt, hfrom⟩ := (mem_wired hg).1 hblk
      exact run_sent hg hlt hfrom (h _ hlt).1
    · obtain ⟨blk', rfl, hlt, hfrom⟩ := (mem_wired hg).1 hblk
      exact (slots_sent_iff hg hlt hfrom).2 (h _ hlt)

/-! ### Documents that received updates -/

/-- The document knows of the unit: it has it, or remembers that it is deleted. -/
def Knows (d : Doc) (x : ID) : Prop := d.Has x ∨ d.pendingDeletes.Names x

theorem Has.entry {x : ID} (h : d.Has x) :
    ∃ p ∈ d.store.entries, p.1 = x.client ∧ x.clock < stateOf p.2 := by
  unfold Has Doc.state StructStore.state StructStore.structs at h
  cases hf : d.store.find? x.client with
  | none =>
    rw [hf] at h
    exact absurd h (Nat.not_lt_zero _)
  | some l =>
    rw [hf] at h
    exact ⟨_, SortedMap.find?_eq_some.1 hf, rfl, h⟩

/-- Clocks are below the greatest length that can be read, and there are fewer clients than can be
counted. -/
theorem replay_small {bs : List Bytes} (hbs : ∀ b ∈ bs, b.length ≤ maxSafeInteger)
    (hclock : ∀ x, (replay bs).Knows x → x.clock < 2 ^ 31)
    (hclients : ∃ cs : List ℕ, cs.length ≤ maxSafeInteger ∧
      ∀ x, (replay bs).Knows x → x.client ∈ cs) : Small (replay bs).Knows where
  clock hx := hclock _ hx
  client hx := hx.elim (fun hhas => (replay_legible hbs).1.client _ (Nat.zero_lt_of_lt hhas))
    fun hx => (replay_names_spec hbs hx).1
  clients := hclients

end Doc

/-- **When a diff covers exactly the missing clocks**: the document received any updates, its clocks
are below 2³¹, and the state vector is any.  The update is encoded and decoded, and covers what is
missing exactly if, of the clients that the peer lacks something of, no clock of the state vector is
between the halves of a surrogate pair and every value is one that the wire keeps. -/
theorem diff_covers_missing_iff {bs : List Bytes} (hbs : ∀ b ∈ bs, b.length ≤ maxSafeInteger)
    (hclock : ∀ x, (Doc.replay bs).Knows x → x.clock < 2 ^ 31)
    (hclients : ∃ cs : List ℕ, cs.length ≤ maxSafeInteger ∧
      ∀ x, (Doc.replay bs).Knows x → x.client ∈ cs) (sv : StateVector) :
    ∃ b u, (Doc.replay bs).encodeStateAsUpdate sv = .ok b ∧ decodeUpdate b = .ok u ∧
      ((Doc.replay bs).CoversMissing sv u ↔
        ∀ c, sv.get c < (Doc.replay bs).state c → ¬(Doc.replay bs).LowAt ⟨c, sv.get c⟩ ∧
          ∀ k v, sv.get c ≤ k → (Doc.replay bs).unitAt ⟨c, k⟩ = some v → v.wired = v) := by
  have hg := (Doc.replay_regular bs).gapless
  have hsafe := (Doc.replay_legible hbs).1.sent_small hg (Doc.replay_small hbs hclock hclients)
    (fun _ => .inl) (fun _ => .inr) sv
  refine ⟨_, _, ?_, decodeUpdate_enc hsafe, Doc.coversMissing_sent hg sv⟩
  rw [Doc.encodeStateAsUpdate, ← Update.encode_sent, Update.encode_eq hsafe.printed]

namespace Sample

/-- Client 1 types "x", an emoji and "y": the units 0, 1 and 2, and 3. -/
def surrounded : Bytes := [1, 1, 1, 0, 4, 1, 1, 116, 6, 120, 0xF0, 0x9F, 0x98, 0x80, 121, 0]

/-- A peer that has the first `clock` units of client 1. -/
def has (clock : ℕ) : StateVector := SortedMap.ofList [(1, clock)]

theorem knows_surrounded {x : ID} (hx : (Doc.replay [surrounded]).Knows x) :
    x.client = 1 ∧ x.clock < 4 := by
  rcases hx with hhas | hnamed
  · obtain ⟨p, hp, hc, hlt⟩ := hhas.entry
    have hstate : ∀ p ∈ (Doc.replay [surrounded]).store.entries, p.1 = 1 ∧ stateOf p.2 = 4 := by
      decide
    exact ⟨hc.symm.trans (hstate p hp).1, (hstate p hp).2 ▸ hlt⟩
  · exact absurd hnamed DeleteSet.names_empty

end Sample

/-- A peer that has the first letter is sent the emoji and the letter behind it. -/
theorem diff_behind_letter :
    ∃ b u, (Doc.replay [Sample.surrounded]).encodeStateAsUpdate (Sample.has 1) = .ok b ∧
      decodeUpdate b = .ok u ∧ (Doc.replay [Sample.surrounded]).CoversMissing (Sample.has 1) u := by
  obtain ⟨b, u, hb, hu, hiff⟩ := diff_covers_missing_iff
    (show ∀ b ∈ [Sample.surrounded], b.length ≤ maxSafeInteger by decide)
    (fun x hx => (Sample.knows_surrounded hx).2.trans (by decide))
    ⟨[1], by decide, fun x hx => List.mem_singleton.2 (Sample.knows_surrounded hx).1⟩ (Sample.has 1)
  refine ⟨b, u, hb, hu, hiff.2 fun c hlt => ?_⟩
  have hhas : (Doc.replay [Sample.surrounded]).Has ⟨c, (Sample.has 1).get c⟩ := hlt
  obtain rfl : c = 1 := (Sample.knows_surrounded (.inl hhas)).1
  have hg := (Doc.replay_regular [Sample.surrounded]).gapless
  refine ⟨by rw [Doc.lowAt_iff_isLow hg]; decide, fun k v _ hv => ?_⟩
  obtain ⟨it, hst, hx, -⟩ := (Doc.unitAt_eq_some hg).1 hv
  have hkeeps : ∀ k < 4, ((Doc.replay [Sample.surrounded]).unitAt ⟨1, k⟩).map ContentUnit.wired =
      (Doc.replay [Sample.surrounded]).unitAt ⟨1, k⟩ := by
    intro k hk
    obtain rfl | rfl | rfl | rfl : k = 0 ∨ k = 1 ∨ k = 2 ∨ k = 3 := by omega
    all_goals rfl
  have := hkeeps k (Sample.knows_surrounded (.inl (hst.has hg hx))).2
  rwa [hv, Option.map_some, Option.some.injEq] at this

/-- A peer that has the first letter and half of the emoji is sent the first letter again, as
unit 2, and two units more than there are. -/
theorem diff_inside_emoji :
    ∃ b u, (Doc.replay [Sample.surrounded]).encodeStateAsUpdate (Sample.has 2) = .ok b ∧
      decodeUpdate b = .ok u ∧ (Doc.replay [Sample.surrounded]).state 1 = 4 ∧
      u.clients.map (fun blk => (blk.startClock, blk.structs.flatMap Struct.slots)) =
        [(2, (Doc.replay [Sample.surrounded]).unitsFrom 1 0 4)] ∧
      ¬(Doc.replay [Sample.surrounded]).CoversMissing (Sample.has 2) u := by
  refine ⟨_, _, rfl, rfl, rfl, rfl, fun h => ?_⟩
  have hlen := congrArg List.length (h.units _ (List.mem_cons_self ..))
  exact absurd hlen (by decide)

end YCollab.Crdt
