import YCollab.Crdt.Legible
import YCollab.Crdt.Sent

/-!
# What a peer is sent

`Doc.stateAsUpdate` collects, for each client, the structs from the clock on that the peer has
(`Doc.blockFrom_eq`), and all deletions the document knows of. If the clocks of a legible document
can be written, and no run of deleted clocks is too long, the update that is sent can be read
(`Doc.Legible.sent_safe`).
-/

namespace YCollab.Crdt

open Lib0

/-! ### What is cut off is within the limits -/

theorem Content.Safe.dropped {c : Content} {k : ℕ} (h : c.Safe) (hk : k ≤ c.len) :
    (c.dropped k).Safe := by
  unfold Content.dropped
  cases hs : c.splice k with
  | ok p => exact (h.splice (h := p.1) hs hk).2
  | error x => exact h

theorem Item.Safe.dropped {it : Item} {k : ℕ} (h : it.Safe) (hk : k ≤ it.len)
    (hid : ∀ j < k, (it.unit j).Safe) : (it.dropped k).Safe := by
  have habs : (it.dropped k).absent = true → it.absent = true := by
    unfold Item.absent Item.dropped Item.writeOrigin
    split
    · intro ha
      cases ha
    · exact fun ha => ha
  refine ⟨fun x hx => ?_, h.right, fun ha => h.parent (habs ha), fun ha => h.key (habs ha),
    h.content.dropped hk⟩
  unfold Item.dropped Item.writeOrigin at hx
  split at hx
  next hpos =>
    obtain rfl := Option.some.inj hx
    have hunit : it.unit (k - 1) = ⟨it.id.client, it.id.clock + k - 1⟩ :=
      ID.ext rfl (Nat.add_sub_assoc hpos _).symm
    exact hunit ▸ hid (k - 1) (by omega)
  next => exact h.origin x hx

theorem Struct.Within.dropped {m : ℕ} {st : Struct} {k : ℕ} (h : st.Within m) (hk : k ≤ st.len)
    (hid : ∀ j < k, ID.Safe ⟨st.id.client, st.id.clock + j⟩) : (st.dropped k).Within m := by
  cases st with
  | gc id n => exact (Nat.sub_le ..).trans h
  | skip id n => exact (Nat.sub_le ..).trans h
  | item it => exact Item.Safe.dropped h hk hid

theorem Struct.Within.moved {m : ℕ} {st : Struct} (h : st.Within m) (id : ID) :
    (st.moved id).Within m := by
  cases st with
  | gc _ n => exact h
  | skip _ n => exact h
  | item it => exact ⟨h.origin, h.right, h.parent, h.key, h.content⟩

theorem Run.contig {c k : ℕ} {l : List Struct} (h : Run c k l) : Contig c k l := by
  induction l generalizing k with
  | nil => exact trivial
  | cons st l ih => exact ⟨h.1, ih h.2.2.2⟩

theorem Run.length_le {c k : ℕ} {l : List Struct} (h : Run c k l) : l.length ≤ lengthOf l := by
  induction l generalizing k with
  | nil => exact le_rfl
  | cons st l ih =>
    have := ih h.2.2.2
    have := h.2.1
    simp only [List.length_cons, lengthOf_cons]
    omega

namespace Doc

variable {d : Doc} {it : Item} {client clock : ℕ}

/-! ### Blocks -/

theorem blockFrom_eq (hg : d.store.Gapless) (hlt : clock < d.state client) :
    ∃ A st B, d.store.structs client = A ++ st :: B ∧ st.id.clock ≤ clock ∧ clock < st.endClock ∧
      d.blockFrom client clock = some ⟨client, clock, st :: B⟩ := by
  let id : ID := ⟨client, clock⟩
  obtain ⟨A, st, B, hs, hlo, hhi⟩ := hg.exists_cover (show id.clock < d.state id.client from hlt)
  refine ⟨A, st, B, hs, hlo, hhi, ?_⟩
  have hfind : d.store.find ⟨client, clock⟩ = .ok A.length := hg.find_eq hs hlo hhi
  have hrun := hg.run client
  unfold blockFrom
  split
  next hnil =>
    rw [hs] at hnil
    simp at hnil
  next first rest hcons =>
    rw [hcons] at hrun
    have hzero : first.id.clock = 0 := congrArg ID.clock hrun.1
    rw [if_neg (Nat.not_le.2 hlt), hzero, if_neg (Nat.not_lt_zero _)]
    simp only [hfind]
    rw [hs, List.drop_left]

theorem blockFrom_eq_none (h : d.state client ≤ clock) : d.blockFrom client clock = none := by
  unfold blockFrom
  split
  · rfl
  · rw [if_pos h]

theorem stateVector_get (d : Doc) (c : ℕ) : d.stateVector.get c = d.state c := by
  simp only [stateVector, StateVector.get, StructStore.stateVector, SortedMap.find?_mapVal, state,
    StructStore.state, StructStore.structs]
  cases d.store.find? c <;> rfl

theorem stateAsUpdate_of_le {sv : StateVector} (h : ∀ c, d.state c ≤ sv.get c) :
    d.stateAsUpdate sv = ⟨[], d.deleteSetForUpdate⟩ := by
  simp [stateAsUpdate, fun c => blockFrom_eq_none (h c)]

theorem encodeDiff_eq {d d' : Doc} {sv : Bytes} (hsv : d'.encodeStateVector = .ok sv) :
    d.encodeDiff sv = (d.stateAsUpdate d'.stateVector).encode := by
  have hsafe := StateVector.safe_of_encode hsv
  have hdec : decodeStateVector sv = .ok d'.stateVector := by
    rw [encodeStateVector, Crdt.encodeStateVector_eq hsafe] at hsv
    rw [← Except.ok.inj hsv]
    exact decodeStateVector_enc hsafe
  simp only [encodeDiff, hdec, encodeStateAsUpdate]

theorem encodeDiff_of_le {d d' : Doc} {sv : Bytes} (hsv : d'.encodeStateVector = .ok sv)
    (hle : ∀ c, d.state c ≤ d'.state c) :
    d.encodeDiff sv = (⟨[], d.deleteSetForUpdate⟩ : Update).encode := by
  rw [encodeDiff_eq hsv, stateAsUpdate_of_le fun c => (stateVector_get d' c).symm ▸ hle c]

theorem mem_stateAsUpdate (hg : d.store.Gapless) {sv : StateVector} {blk : ClientBlock} :
    blk ∈ (d.stateAsUpdate sv).clients ↔
      ∃ c, sv.get c < d.state c ∧ d.blockFrom c (sv.get c) = some blk := by
  simp only [stateAsUpdate, List.mem_filterMap]
  constructor
  · rintro ⟨c, -, hblk⟩
    refine ⟨c, Nat.lt_of_not_le fun hle => ?_, hblk⟩
    rw [blockFrom_eq_none hle] at hblk
    cases hblk
  · rintro ⟨c, hlt, hblk⟩
    refine ⟨c, SortedMap.mem_keys.2 ⟨d.store.structs c, ?_⟩, hblk⟩
    have hpos : d.store.state c ≠ 0 := Nat.ne_of_gt (Nat.zero_lt_of_lt hlt)
    rw [hg.find?_eq, if_neg hpos]

theorem stateAsUpdate_ne_nil (hg : d.store.Gapless) {sv : StateVector}
    (h : sv.get client < d.state client) : (d.stateAsUpdate sv).clients ≠ [] := by
  obtain ⟨A, st, B, -, -, -, hblk⟩ := blockFrom_eq hg h
  exact List.ne_nil_of_mem ((mem_stateAsUpdate hg).2 ⟨client, h, hblk⟩)

theorem mem_sent (hg : d.store.Gapless) {sv : StateVector} {blk : ClientBlock} :
    blk ∈ (d.stateAsUpdate sv).sent.clients ↔
      ∃ c, sv.get c < d.state c ∧ (d.blockFrom c (sv.get c)).map ClientBlock.sent = some blk := by
  simp only [Update.sent, List.mem_map, mem_stateAsUpdate hg, Option.map_eq_some_iff]
  constructor
  · rintro ⟨blk', ⟨c, hlt, hblk⟩, rfl⟩
    exact ⟨c, hlt, blk', hblk, rfl⟩
  · rintro ⟨c, hlt, blk', hblk, rfl⟩
    exact ⟨blk', ⟨c, hlt, hblk⟩, rfl⟩

/-- A peer that has nothing of a client reads all its structs. -/
theorem sent_blockFrom_zero (hg : d.store.Gapless) (hpos : 0 < d.state client) :
    (d.blockFrom client 0).map ClientBlock.sent = some ⟨client, 0, d.store.structs client⟩ := by
  obtain ⟨A, st, B, hs, hlo, -, heq⟩ := blockFrom_eq hg hpos
  have hrun := hg.run client
  have hA : A = [] := by
    cases A with
    | nil => rfl
    | cons a A =>
      obtain ⟨-, hid, -⟩ := (hs ▸ hrun).split
      have hclock := congrArg ID.clock hid
      have ha := (hs ▸ hrun).2.1
      simp only [lengthOf_cons] at hclock
      omega
  subst hA
  rw [List.nil_append] at hs
  rw [hs] at hrun
  have hzero : st.id.clock = 0 := congrArg ID.clock hrun.1
  have hdrop : st.dropped (0 - st.id.clock) = st := by
    rw [Nat.zero_sub]
    cases st with
    | gc id n => rfl
    | skip id n => rfl
    | item it => simp [Struct.dropped, Item.dropped, Item.writeOrigin]
  rw [heq, hs, Option.map_some]
  simp only [ClientBlock.sent, sentStructs, hdrop]
  rw [renumber_eq hrun.contig]

theorem blockFrom_client {blk : ClientBlock} (h : d.blockFrom client clock = some blk) :
    blk.client = client := by
  unfold blockFrom at h
  split at h
  · cases h
  · split at h
    · cases h
    · simp only at h
      split at h
      · cases h
      · rw [← Option.some.inj h]

theorem stateAsUpdate_clients (d : Doc) (sv : StateVector) :
    ((d.stateAsUpdate sv).clients.map ClientBlock.client).Pairwise fun a b => b < a := by
  have hkeys : (d.stateAsUpdate sv).clients.map ClientBlock.client =
      d.store.keys.filter fun c => (d.blockFrom c (sv.get c)).isSome := by
    rw [stateAsUpdate, List.map_filterMap, ← List.filterMap_eq_filter]
    refine List.filterMap_congr fun c _ => ?_
    cases hblk : d.blockFrom c (sv.get c) with
    | none => simp [Option.guard, hblk]
    | some blk => simp [Option.guard, hblk, blockFrom_client hblk]
  rw [hkeys]
  have hdec : d.store.keys.Pairwise fun a b => b < a := List.pairwise_map.2 d.store.decreasing
  exact hdec.filter _

/-! ### Limits -/

theorem Refers.safe {x : ID} (h : d.Refers x) (hstate : ∀ c, d.state c ≤ maxSafeInteger) :
    x.Safe :=
  ⟨h.1, h.2.elim id fun hx => (le_of_lt hx).trans (hstate _)⟩

theorem Storable.safe (h : d.Storable it) (hstate : ∀ c, d.state c ≤ maxSafeInteger) :
    it.Safe where
  origin x hx := (h.origin x hx).safe hstate
  right x hx := (h.right x hx).safe hstate
  parent _ := by
    unfold Item.parentInfo
    split
    next o ho => exact (h.nested o ho).safe hstate
    next name hn => exact h.root name hn
    next =>
      cases hw : it.wireParent with
      | none => exact Nat.zero_le _
      | some p => exact h.wire p hw
  key _ _ := h.key
  content := h.content

/-- A block that is sent can be written, if the clocks can; its structs without content are no
longer than those of the document. -/
theorem Legible.sent_block (h : d.Legible) (hg : d.store.Gapless)
    (hstate : ∀ c, d.state c ≤ maxSafeInteger) {m : ℕ}
    (hgc : ∀ c id n, .gc id n ∈ d.store.structs c → n ≤ m) {sv : StateVector} {blk : ClientBlock}
    (hblk : blk ∈ (d.stateAsUpdate sv).sent.clients) :
    blk.client ≤ maxSafeInteger ∧ blk.startClock ≤ maxSafeInteger ∧
      blk.structs.length ≤ maxSafeInteger ∧ Contig blk.client blk.startClock blk.structs ∧
      ∀ st ∈ blk.structs, st.Within m := by
  obtain ⟨blk, hmem, rfl⟩ := List.mem_map.1 hblk
  obtain ⟨c, hlt, hblk⟩ := (mem_stateAsUpdate hg).1 hmem
  obtain ⟨A, st, B, hs, hlo, hhi, heq⟩ := blockFrom_eq hg hlt
  obtain rfl := Option.some.inj (heq.symm.trans hblk)
  have hclient := h.client c (Nat.zero_lt_of_lt hlt)
  have hwithin : ∀ st ∈ d.store.structs c, st.Within m := by
    intro st hst
    cases st with
    | gc id n => exact hgc c id n hst
    | skip id n =>
      obtain ⟨A, B, hs⟩ := List.append_of_mem hst
      have hskip := (hs ▸ hg.run c).split.2.2.2.1
      cases hskip
    | item it => exact (h.items it (Stored.of_mem hg hst)).safe hstate
  have hid : st.id.client = c := hg.client_eq (by simp [hs])
  refine ⟨hclient, hlt.le.trans (hstate c), ?_, contig_renumber _ _ _, fun st' hst' => ?_⟩
  · -- a struct occupies at least one clock
    have hlen := (hg.run c).length_le
    rw [← hg.state_eq, hs, List.length_append] at hlen
    have := hstate c
    unfold state at this
    simp only [ClientBlock.sent, length_renumber, sentStructs, List.length_cons] at hlen ⊢
    omega
  · obtain ⟨st'', hst'', id, rfl⟩ := exists_of_mem_renumber hst'
    refine Struct.Within.moved ?_ id
    rcases List.mem_cons.1 hst'' with rfl | hm
    · refine (hwithin st (by simp [hs])).dropped ?_ fun j hj => ⟨hid ▸ hclient, ?_⟩
      · unfold Struct.endClock at hhi
        simp only
        omega
      · have := hstate c
        simp only at hj ⊢
        omega
    · exact hwithin st'' (by simp [hs, hm])

theorem length_sent_le (d : Doc) (sv : StateVector) :
    (d.stateAsUpdate sv).sent.clients.length ≤ d.store.keys.length := by
  rw [Update.sent, List.length_map]
  exact List.length_filterMap_le ..

/-- **What is sent can be read**, if the clocks can be written and no GC and no run of deleted
clocks is too long. -/
theorem Legible.sent_safe (h : d.Legible) (hg : d.store.Gapless)
    (hstate : ∀ c, d.state c ≤ maxSafeInteger) (hkeys : d.store.keys.length ≤ maxSafeInteger)
    (hgc : ∀ c id n, .gc id n ∈ d.store.structs c → n ≤ maxLen)
    (hds : DeleteSet.Safe d.deleteSetForUpdate) (sv : StateVector) :
    (d.stateAsUpdate sv).sent.Safe := by
  refine ⟨(length_sent_le d sv).trans hkeys, fun blk hblk => ?_, hds⟩
  obtain ⟨hclient, hstart, hlen, hcontig, hwithin⟩ := h.sent_block hg hstate hgc hblk
  exact ⟨hclient, hstart, hlen, hcontig, fun st hst => Struct.within_maxLen.1 (hwithin st hst)⟩

end Doc

end YCollab.Crdt
