import YCollab.Crdt.Wire

/-!
# Round trips of updates

* `decodeUpdate_encode` : an update in the writer's order, without floats and wide integers, is
  decoded as it was encoded;
* `encode_fixed_iff` : a decoded update is encoded in the same way again after one more round trip,
  unless it carries negative zero as a float64.
-/

namespace YCollab.Crdt

open Lib0

/-! ### The writer's order -/

theorem sortBlocks_eq {l : List ClientBlock} (h : l.Pairwise fun a b => b.client ≤ a.client) :
    sortBlocks l = l := h.insertionSort_eq

theorem sortBlocks_pairwise (l : List ClientBlock) :
    (sortBlocks l).Pairwise fun a b => b.client ≤ a.client :=
  haveI : Std.Total (fun a b : ClientBlock => b.client ≤ a.client) := ⟨fun _ _ => le_total _ _⟩
  haveI : IsTrans ClientBlock (fun a b => b.client ≤ a.client) := ⟨fun _ _ _ h h' => h'.trans h⟩
  List.pairwise_insertionSort _ l

theorem sortBlocks_wired (l : List ClientBlock) :
    sortBlocks ((sortBlocks l).map ClientBlock.wired) = (sortBlocks l).map ClientBlock.wired :=
  sortBlocks_eq (List.pairwise_map.2 (sortBlocks_pairwise l))

/-! ### Values that come back as they were -/

/-- The values of the content have no floats, and no integers beyond 31 bits. -/
def Content.Plain : Content → Prop
  | .any values => ∀ v ∈ values, v.Plain
  | .doc _ opts => opts.Plain
  | _ => True

theorem Content.Plain.wired_eq {c : Content} (h : c.Plain) : c.wired = c := by
  cases c with
  | any values =>
    simp only [wired, any.injEq]
    exact (List.map_congr_left fun v hv => (h v hv).norm_eq).trans (List.map_id' _)
  | doc guid opts => simp only [wired, Any.Plain.norm_eq h]
  | _ => rfl

theorem Struct.Decoded.wired_eq {st : Struct} (h : st.Decoded)
    (hp : ∀ it, st = .item it → it.content.Plain) : st.wired = st := by
  cases st with
  | item it =>
    rw [wired, (h.2 it rfl).wired_eq, (hp it rfl).wired_eq]
  | _ => rfl

/-- **Decoding inverts encoding.**  An update whose blocks are in descending order of their clients
and whose structs are such as the decoder produces, with values that have no floats and no integers
beyond 31 bits, is encoded, and what was encoded is decoded as the same update. -/
theorem decodeUpdate_encode (u : Update) (hsafe : u.Safe)
    (hdesc : u.clients.Pairwise fun a b => b.client < a.client)
    (hdec : ∀ blk ∈ u.clients, ∀ st ∈ blk.structs, st.Decoded)
    (hplain : ∀ blk ∈ u.clients, ∀ it, .item it ∈ blk.structs → it.content.Plain) :
    ∃ b, u.encode = .ok b ∧ decodeUpdate b = .ok u := by
  refine ⟨u.enc, Update.encode_eq hsafe.printed, ?_⟩
  rw [decodeUpdate_enc hsafe]
  have hblocks : u.clients.map ClientBlock.wired = u.clients := by
    refine (List.map_congr_left fun blk hblk => ?_).trans (List.map_id' _)
    have hstructs : blk.structs.map Struct.wired = blk.structs := by
      refine (List.map_congr_left fun st hst => ?_).trans (List.map_id' _)
      refine (hdec blk hblk st hst).wired_eq ?_
      rintro it rfl
      exact hplain blk hblk it hst
    rw [ClientBlock.wired, hstructs]
  rw [Update.wired, sortBlocks_eq (hdesc.imp le_of_lt), hblocks]

/-- Two clients: a GC, a gap and a list of values, and an entry of a map with a text in it. -/
def Sample.mixed : Bytes :=
  [2, 3, 2, 5, 0, 3, 10, 1, 0x88, 1, 0, 4, 126, 125, 0x47, 117, 2, 120, 119, 1, 97,
    122, 0, 0, 0, 0, 0, 0, 0, 9, 2, 1, 0, 0x27, 1, 1, 116, 1, 107, 2, 4, 0, 1, 0, 4,
    0xF0, 0x9F, 0x98, 0x80, 1, 1, 2, 1, 2, 0, 1]

/-- The update these bytes stand for. -/
def Sample.update : Update where
  clients := [
    ⟨2, 5, [.gc ⟨2, 5⟩ 3, .skip ⟨2, 8⟩ 1, .item ⟨⟨2, 9⟩, some ⟨1, 0⟩, none, none, false, [],
      .any [.null, .int (-7), .array [.bool true, .string [97]], .bigInt 9], none⟩]⟩,
    ⟨1, 0, [.item ⟨⟨1, 0⟩, none, none, some (.root [116]), true, [107], .type .text [], none⟩,
      .item ⟨⟨1, 1⟩, none, none, some (.item ⟨1, 0⟩), false, [], .string [0xF0, 0x9F, 0x98, 0x80],
        none⟩]⟩]
  deletes := SortedMap.ofList [(1, [⟨1, 2⟩, ⟨0, 1⟩])]

theorem Sample.update_plain : ∀ blk ∈ Sample.update.clients, ∀ it, .item it ∈ blk.structs →
    it.content.Plain := by
  have hplain : ∀ v ∈ [Any.null, .int (-7), .array [.bool true, .string [97]], .bigInt 9],
      v.Plain := by
    simp only [List.forall_mem_cons, List.not_mem_nil, false_imp_iff, implies_true, and_true]
    refine ⟨.null, .int (by decide), .array ?_, .bigInt 9⟩
    simp only [List.forall_mem_cons, List.not_mem_nil, false_imp_iff, implies_true, and_true]
    exact ⟨.bool true, .string [97]⟩
  simpa [Sample.update, Content.Plain] using hplain

theorem decodeUpdate_encode_sample :
    ∃ b, Sample.update.encode = .ok b ∧ decodeUpdate b = .ok Sample.update := by
  have hdec : decodeUpdate Sample.mixed = .ok Sample.update := rfl
  obtain ⟨hsafe, hblocks⟩ := decodeUpdate_decoded (by decide) hdec
  exact decodeUpdate_encode Sample.update hsafe (by decide)
    (fun blk hblk => (hblocks blk hblk).decoded) Sample.update_plain

/-! ### Encoding again -/

/-- One of the values of the content holds negative zero as a float64. -/
def Content.HoldsNegZero : Content → Prop
  | .any values => ∃ v ∈ values, v.HoldsNegZero
  | .doc _ opts => opts.HoldsNegZero
  | _ => False

/-- One of the items of the update carries negative zero as a float64. -/
def Update.HoldsNegZero (u : Update) : Prop :=
  ∃ blk ∈ u.clients, ∃ it, .item it ∈ blk.structs ∧ it.content.HoldsNegZero

namespace Content

variable {c : Content}

theorem Plain.not_holdsNegZero (h : c.Plain) : ¬c.HoldsNegZero := by
  cases c with
  | any values =>
    rintro ⟨v, hv, hz⟩
    exact (h v hv).not_holdsNegZero hz
  | doc guid opts => exact Any.Plain.not_holdsNegZero h
  | _ => exact id

theorem Safe.wired (h : c.Safe) : c.wired.Safe := by
  cases c with
  | any values =>
    refine ⟨by simpa using h.1, fun w hw => ?_⟩
    obtain ⟨v, hv, rfl⟩ := List.mem_map.1 hw
    exact (h.2 v hv).norm
  | doc guid opts => exact ⟨h.1, h.2.norm⟩
  | _ => exact h

theorem length_enc_wired (c : Content) : c.wired.enc.length = c.enc.length := by
  cases c with
  | any values =>
    simp only [Content.wired, enc, List.length_map, List.flatMap_map, List.length_append]
    rw [length_flatMap_eq fun v _ => v.length_enc_norm _]
  | doc guid opts => simp only [Content.wired, enc, List.length_append, opts.length_enc_norm]
  | _ => rfl

theorem enc_wired_eq_iff (h : c.Safe) : c.wired.enc = c.enc ↔ ¬c.HoldsNegZero := by
  cases c with
  | any values =>
    simp only [Content.wired, enc, List.length_map, List.flatMap_map, List.append_right_inj,
      HoldsNegZero]
    rw [flatMap_eq_iff fun v _ => v.length_enc_norm _]
    push Not
    exact forall₂_congr fun v hv => Any.enc_norm_eq_iff (h.2 v hv)
  | doc guid opts =>
    simp only [Content.wired, enc, List.append_right_inj, HoldsNegZero]
    exact Any.enc_norm_eq_iff h.2
  | _ => exact iff_of_true rfl id

end Content

namespace Item

variable {it : Item}

theorem absent_wired (it : Item) : it.wired.absent = it.absent := rfl

theorem parentInfo_wired (h : it.absent = true) : it.wired.parentInfo = it.parentInfo := by
  simp [Item.wired, Item.parentInfo, h]

theorem Safe.wired (h : it.Safe) : it.wired.Safe where
  origin := h.origin
  right := h.right
  parent ha := by
    have ha : it.absent = true := ha
    rw [parentInfo_wired ha]
    exact h.parent ha
  key ha hs := by
    have hs : it.hasParentSub = true := hs
    have ha : it.absent = true := ha
    simpa [Item.wired, ha, hs] using h.key ha hs
  content := h.content.wired

theorem parentBytes_wired (it : Item) : it.wired.parentBytes = it.parentBytes := by
  unfold parentBytes
  rw [absent_wired]
  split
  next ha =>
    have hsub : it.wired.hasParentSub = it.hasParentSub := rfl
    rw [parentInfo_wired ha, hsub]
    split
    next hs => simp [Item.wired, ha, hs]
    next => rfl
  next => rfl

theorem enc_wired (it : Item) : ∃ p : Bytes, it.enc = p ++ it.content.enc ∧
    it.wired.enc = p ++ it.content.wired.enc := by
  refine ⟨[UInt8.ofNat (infoByte it.content.ref it.origin.isSome it.rightOrigin.isSome
    it.hasParentSub)] ++ (optBytes it.origin ++ (optBytes it.rightOrigin ++ it.parentBytes)), ?_, ?_⟩
  · simp [enc]
  · have hpb := parentBytes_wired it
    simp only [enc, hpb]
    simp [Item.wired]

theorem length_enc_wired (it : Item) : it.wired.enc.length = it.enc.length := by
  obtain ⟨p, h, h'⟩ := it.enc_wired
  rw [h, h', List.length_append, List.length_append, Content.length_enc_wired]

theorem enc_wired_eq_iff (h : it.Safe) : it.wired.enc = it.enc ↔ ¬it.content.HoldsNegZero := by
  obtain ⟨p, he, he'⟩ := it.enc_wired
  rw [he, he', List.append_right_inj]
  exact Content.enc_wired_eq_iff h.content

end Item

namespace Struct

theorem Safe.wired {st : Struct} (h : st.Safe) : st.wired.Safe := by
  cases st with
  | item it => exact Item.Safe.wired h
  | _ => exact h

theorem length_enc_wired (st : Struct) : st.wired.enc.length = st.enc.length := by
  cases st with
  | item it => exact it.length_enc_wired
  | _ => rfl

theorem enc_wired_eq_iff {st : Struct} (h : st.Safe) :
    st.wired.enc = st.enc ↔ ∀ it, st = .item it → ¬it.content.HoldsNegZero := by
  cases st with
  | item it =>
    refine (Item.enc_wired_eq_iff h).trans ⟨?_, fun hz => hz it rfl⟩
    rintro hz _ ⟨⟩
    exact hz
  | _ => exact iff_of_true rfl fun _ he => by cases he

end Struct

theorem Contig.wired {c k : ℕ} {l : List Struct} (h : Contig c k l) :
    Contig c k (l.map Struct.wired) := by
  induction l generalizing k with
  | nil => exact trivial
  | cons st l ih => exact ⟨st.id_wired.trans h.1, by rw [Struct.len_wired]; exact ih h.2⟩

namespace ClientBlock

variable {blk : ClientBlock}

theorem Safe.wired (h : blk.Safe) : blk.wired.Safe where
  client := h.client
  start := h.start
  length := by simpa [ClientBlock.wired] using h.length
  contig := h.contig.wired
  structs st hst := by
    obtain ⟨st', hst', rfl⟩ := List.mem_map.1 hst
    exact (h.structs st' hst').wired

theorem length_enc_wired (blk : ClientBlock) : blk.wired.enc.length = blk.enc.length := by
  simp only [ClientBlock.wired, enc, List.length_map, List.flatMap_map, List.length_append]
  rw [length_flatMap_eq fun st _ => st.length_enc_wired]

theorem enc_wired_eq_iff (h : blk.Safe) :
    blk.wired.enc = blk.enc ↔ ∀ it, .item it ∈ blk.structs → ¬it.content.HoldsNegZero := by
  simp only [ClientBlock.wired, enc, List.length_map, List.flatMap_map, List.append_right_inj]
  rw [flatMap_eq_iff fun st _ => st.length_enc_wired]
  constructor
  · intro heq it hit
    exact (Struct.enc_wired_eq_iff (h.structs _ hit)).1 (heq _ hit) it rfl
  · intro hz st hst
    refine (Struct.enc_wired_eq_iff (h.structs st hst)).2 ?_
    rintro it rfl
    exact hz it hst

end ClientBlock

namespace Update

variable {u : Update}

theorem Safe.wired (h : u.Safe) : u.wired.Safe where
  length := by simpa [Update.wired, length_sortBlocks] using h.length
  blocks blk hblk := by
    obtain ⟨blk', hblk', rfl⟩ := List.mem_map.1 hblk
    exact (h.blocks blk' ((sortBlocks_perm _).mem_iff.1 hblk')).wired
  deletes := h.deletes

theorem enc_wired_eq_iff (h : u.Safe) : u.wired.enc = u.enc ↔ ¬u.HoldsNegZero := by
  simp only [enc, Update.wired, sortBlocks_wired, List.length_map, length_sortBlocks,
    List.append_right_inj, List.append_left_inj, List.flatMap_map]
  rw [flatMap_eq_iff fun blk _ => blk.length_enc_wired]
  simp only [HoldsNegZero, not_exists, not_and]
  refine forall_congr' fun blk => ?_
  rw [(sortBlocks_perm u.clients).mem_iff]
  exact forall_congr' fun hblk => ClientBlock.enc_wired_eq_iff (h.blocks blk hblk)

end Update

/-- **Encoding is a fixed point**, except that negative zero drifts: the encoding of a decoded
update is decoded and encoded to the same bytes exactly if no value it carries is the float64
negative zero, which is written as an integer and then read as zero. -/
theorem encode_fixed_iff {b : Bytes} {u : Update} (hb : b.length ≤ maxSafeInteger)
    (h : decodeUpdate b = .ok u) :
    (∃ b₁ u₁, u.encode = .ok b₁ ∧ decodeUpdate b₁ = .ok u₁ ∧ u₁.encode = .ok b₁) ↔
      ¬u.HoldsNegZero := by
  obtain ⟨hsafe, -⟩ := decodeUpdate_decoded hb h
  rw [← Update.enc_wired_eq_iff hsafe, Update.encode_eq hsafe.printed]
  constructor
  · rintro ⟨b₁, u₁, ⟨⟩, hdec, henc⟩
    rw [decodeUpdate_enc hsafe] at hdec
    cases hdec
    rw [Update.encode_eq hsafe.wired.printed] at henc
    exact Except.ok.inj henc
  · intro heq
    exact ⟨_, _, rfl, decodeUpdate_enc hsafe, by rw [Update.encode_eq hsafe.wired.printed, heq]⟩

/-- An array with the float64 negative zero. -/
def Sample.negZero : Bytes :=
  [1, 1, 1, 0, 8, 1, 1, 116, 1, 123, 128, 0, 0, 0, 0, 0, 0, 0, 0]

/-- Negative zero is encoded as `7d 40`, and after one more round trip as `7d 00`. -/
theorem negZero_drifts : ∃ u b₁ u₁ b₂, decodeUpdate Sample.negZero = .ok u ∧ u.encode = .ok b₁ ∧
    decodeUpdate b₁ = .ok u₁ ∧ u₁.encode = .ok b₂ ∧ b₁ ≠ b₂ :=
  ⟨_, [1, 1, 1, 0, 8, 1, 1, 116, 1, 125, 0x40, 0], _, [1, 1, 1, 0, 8, 1, 1, 116, 1, 125, 0, 0],
    rfl, by decide +kernel, rfl, by decide +kernel, by decide⟩

/-- Where there is no negative zero, nothing drifts. -/
theorem encode_fixed_mixed : ∃ b₁ u₁, Sample.update.encode = .ok b₁ ∧ decodeUpdate b₁ = .ok u₁ ∧
    u₁.encode = .ok b₁ := by
  refine (encode_fixed_iff (b := Sample.mixed) (by decide) rfl).2 ?_
  rintro ⟨blk, hblk, it, hit, hz⟩
  exact (Sample.update_plain blk hblk it hit).not_holdsNegZero hz

end YCollab.Crdt
