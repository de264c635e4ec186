import YCollab.Crdt.Decoded
import YCollab.Lib0.Canonical

/-!
# The wire format of updates

What each part of an update is written as (`enc`), when it can be written (`Printed`) and also read
(`Safe`), and what is read back (`wired`). A part that is `Printed` is written as `enc`; if it is
`Safe`, `enc` is read as `wired`, and otherwise refused; everything that was read is `Safe`. The
update as a whole:

* `Update.encode_eq` : an update whose numbers can be written is encoded;
* `decodeUpdate_enc` : what was encoded is decoded, as the update that is `wired`;
* `decodeUpdate_refuses` : what is not safe is not decoded;
* `decodeUpdate_decoded` : a decoded update is safe.

An item that was integrated is written with the parent it was resolved to, and read back as an
unresolved one.
-/

namespace YCollab.Crdt

open Lib0

/-! ### Content -/

/-- A string with its length in front. -/
def strBytes (s : Bytes) : Bytes := Encoder.varUint s.length ++ s

theorem readSafeVarUint_reads {n : ℕ} (h : n ≤ maxSafeInteger) :
    Reads readSafeVarUint (Encoder.varUint n) n := by
  intro rest
  rw [readSafeVarUint, Read.bind_run_ok (readVarUint_reads h rest), if_neg (Nat.not_lt.2 h)]
  rfl

theorem readSafeVarUint_ensures : Ensures readSafeVarUint fun n => n ≤ maxSafeInteger :=
  readVarUint_ensures.bind fun _ _ => .ite (fun _ => .fail _) fun h => .pure (Nat.not_lt.1 h)

theorem maxLen_le : maxLen ≤ maxSafeInteger := by decide

theorem readLen_reads {n : ℕ} (h : n ≤ maxLen) : Reads readLen (Encoder.varUint n) n := by
  intro rest
  rw [readLen, Read.bind_run_ok (readVarUint_reads (h.trans maxLen_le) rest),
    if_neg (Nat.not_lt.2 h)]
  rfl

theorem readLen_refuses {n : ℕ} (h : n ≤ maxSafeInteger) (hn : maxLen < n) :
    Refuses readLen (Encoder.varUint n) := by
  intro rest
  exact ⟨_, by rw [readLen, Read.bind_run_ok (readVarUint_reads h rest), if_pos hn]; rfl⟩

theorem readLen_ensures : Ensures readLen fun n => n ≤ maxLen :=
  readVarUint_ensures.bind fun _ _ => .ite (fun _ => .fail _) fun h => .pure (Nat.not_lt.1 h)

namespace Content

/-- The content can be written and read. -/
def Safe : Content → Prop
  | deleted n => n ≤ maxLen
  | json values => values.length ≤ maxLen ∧ ∀ s ∈ values, s.length ≤ maxSafeInteger
  | binary data => data.length ≤ maxSafeInteger
  | string s => s.length ≤ maxSafeInteger
  | embed j => j.length ≤ maxSafeInteger
  | format key value => key.length ≤ maxSafeInteger ∧ value.length ≤ maxSafeInteger
  | type r name => name.length ≤ maxSafeInteger ∧ (r.hasName = false → name = [])
  | any values => values.length ≤ maxLen ∧ ∀ v ∈ values, v.Fits (maxAnyDepth + 1)
  | doc guid opts => guid.length ≤ maxSafeInteger ∧ opts.Fits (maxAnyDepth + 1)

/-- The bytes of the content. -/
def enc : Content → Bytes
  | deleted n => Encoder.varUint n
  | json values => Encoder.varUint values.length ++ values.flatMap strBytes
  | binary data => strBytes data
  | string s => strBytes s
  | embed j => strBytes j
  | format key value => strBytes key ++ strBytes value
  | type r name => Encoder.varUint r.toNat ++ if r.hasName then strBytes name else []
  | any values => Encoder.varUint values.length ++ values.flatMap (Any.enc (maxAnyDepth + 1))
  | doc guid opts => strBytes guid ++ opts.enc (maxAnyDepth + 1)

/-- The content that is read back. -/
def wired : Content → Content
  | any values => any (values.map (Any.norm (maxAnyDepth + 1)))
  | doc guid opts => doc guid (opts.norm (maxAnyDepth + 1))
  | c => c

@[simp] theorem len_wired (c : Content) : c.wired.len = c.len := by
  cases c <;> simp [wired, len]

@[simp] theorem ref_wired (c : Content) : c.wired.ref = c.ref := by cases c <;> rfl

theorem ref_lt (c : Content) : 0 < c.ref ∧ c.ref < 10 := by cases c <;> simp [ref]

variable {c : Content}

theorem write_writes (h : c.Safe) : Writes (c.write · 0) c.enc := by
  cases c with
  | deleted n => exact writeVarUint_writes (h.trans maxLen_le)
  | json values =>
    exact (writeVarUint_writes (h.1.trans maxLen_le)).comp
      (foldl_writes fun s hs => writeVarString_writes (h.2 s hs))
  | binary data => exact writeVarUint8Array_writes h
  | string s => exact writeVarString_writes h
  | embed j => exact writeVarString_writes h
  | format key value => exact (writeVarString_writes h.1).comp (writeVarString_writes h.2)
  | type r name =>
    have hr := writeVarUint_writes (v := r.toNat) (r.toNat_le.trans (by decide))
    simp only [write, enc]
    split
    · exact hr.comp (writeVarString_writes h.1)
    · rw [List.append_nil]
      exact hr
  | any values =>
    exact (writeVarUint_writes (h.1.trans maxLen_le)).comp
      (foldl_writes fun v hv => writeAny_writes (h.2 v hv))
  | doc guid opts => exact (writeVarString_writes h.1).comp (writeAny_writes h.2)

theorem readContent_reads (h : c.Safe) : Reads (readContent c.ref) c.enc c.wired := by
  cases c with
  | deleted n => exact (readLen_reads h).map
  | json values =>
    refine (readLen_reads h.1).bind (Reads.checkRemaining ?_ (.map ?_))
    · exact length_le_flatMap fun s _ => varUint_append_pos s.length s
    · exact Reads.times_self fun s hs => readVarString_reads (h.2 s hs)
  | binary data => exact (readVarUint8Array_reads h).map
  | string s => exact (readVarString_reads h).map
  | embed j => exact (readVarString_reads h).map
  | format key value => exact (readVarString_reads h.1).bind (readVarString_reads h.2).map
  | type r name =>
    refine (readVarUint_reads (r.toNat_le.trans (by decide))).bind ?_
    simp only [TypeRef.ofNat?_toNat]
    split
    · exact (readVarString_reads h.1).map
    next hn =>
      rw [show name = [] from h.2 (by simpa using hn)]
      exact Reads.pure _
  | any values =>
    refine (readLen_reads h.1).bind (Reads.checkRemaining ?_ (.map ?_))
    · exact length_le_flatMap fun v hv => Any.enc_length_pos (h.2 v hv)
    · exact Reads.times fun v hv => readAny_reads (h.2 v hv)
  | doc guid opts => exact (readVarString_reads h.1).bind (readAny_reads h.2).map

theorem readContent_ensures (ref : ℕ) : Ensures (readContent ref) fun c => c.Safe ∧ c.ref = ref := by
  unfold readContent
  split
  · exact readLen_ensures.bind fun n h => .pure ⟨h, rfl⟩
  · exact readLen_ensures.bind fun n h => (Ensures.checkRemaining n).bind fun _ _ =>
      (readVarString_ensures.times n).bind fun l hl => .pure ⟨⟨hl.1 ▸ h, hl.2⟩, rfl⟩
  · exact readVarUint8Array_ensures.bind fun _ h => .pure ⟨h, rfl⟩
  · exact readVarString_ensures.bind fun _ h => .pure ⟨h, rfl⟩
  · exact readVarString_ensures.bind fun _ h => .pure ⟨h, rfl⟩
  · exact readVarString_ensures.bind fun _ h => readVarString_ensures.bind fun _ h' =>
      .pure ⟨⟨h, h'⟩, rfl⟩
  · refine readVarUint_ensures.bind fun n _ => ?_
    split
    · exact .fail _
    next r _ =>
      refine .ite (fun _ => readVarString_ensures.bind fun _ h => .pure ⟨⟨h, ?_⟩, rfl⟩) fun _ =>
        .pure ⟨⟨Nat.zero_le _, fun _ => rfl⟩, rfl⟩
      simp_all
  · exact readLen_ensures.bind fun n h => (Ensures.checkRemaining n).bind fun _ _ =>
      (readAny_ensures.times n).bind fun l hl => .pure ⟨⟨hl.1 ▸ h, hl.2⟩, rfl⟩
  · exact readVarString_ensures.bind fun _ h => readAny_ensures.bind fun _ h' => .pure ⟨⟨h, h'⟩, rfl⟩
  · exact .fail _

end Content

/-! ### Items -/

/-- The client and the clock can be written. -/
def ID.Safe (id : ID) : Prop := id.client ≤ maxSafeInteger ∧ id.clock ≤ maxSafeInteger

/-- The bytes of an identifier. -/
def ID.enc (id : ID) : Bytes := Encoder.varUint id.client ++ Encoder.varUint id.clock

theorem writeID_writes {id : ID} (h : id.Safe) : Writes (writeID · id) id.enc :=
  (writeVarUint_writes h.1).comp (writeVarUint_writes h.2)

theorem readID_reads {id : ID} (h : id.Safe) : Reads readID id.enc id :=
  (readSafeVarUint_reads h.1).bind (readSafeVarUint_reads h.2).map

theorem readID_ensures : Ensures readID ID.Safe :=
  readSafeVarUint_ensures.bind fun _ h => readSafeVarUint_ensures.bind fun _ h' => .pure ⟨h, h'⟩

/-- The bytes of an ID that may be absent. -/
def optBytes : Option ID → Bytes
  | none => []
  | some id => id.enc

theorem writeOptionID_writes {o : Option ID} (h : ∀ id, o = some id → id.Safe) :
    Writes (writeOptionID · o) (optBytes o) := by
  cases o with
  | none => exact Writes.id
  | some id => exact writeID_writes (h id rfl)

theorem readOptionID_reads {o : Option ID} (h : ∀ id, o = some id → id.Safe) :
    Reads (readOptionID o.isSome) (optBytes o) o := by
  cases o with
  | none => exact Reads.pure none
  | some id => exact (readID_reads (h id rfl)).map

theorem readOptionID_ensures (present : Bool) :
    Ensures (readOptionID present) fun o => (∀ id, o = some id → id.Safe) ∧ o.isSome = present := by
  refine .ite (fun h => readID_ensures.bind fun id hid => .pure ⟨?_, h.symm⟩) fun h =>
    .pure ⟨by simp, by simpa using h⟩
  rintro _ ⟨⟩
  exact hid

namespace ParentInfo

/-- The writer can write the parent. -/
def Safe : ParentInfo → Prop
  | root name => name.length ≤ maxSafeInteger
  | item id => id.Safe

/-- The bytes of a parent. -/
def enc : ParentInfo → Bytes
  | root name => Encoder.varUint 1 ++ strBytes name
  | item id => Encoder.varUint 0 ++ id.enc

end ParentInfo

theorem readParentInfo_reads {p : ParentInfo} (h : p.Safe) : Reads readParentInfo p.enc p := by
  cases p with
  | root name =>
    exact (readVarUint_reads (v := 1) (by decide)).bind (readVarString_reads h).map
  | item id =>
    exact (readVarUint_reads (v := 0) (by decide)).bind (readID_reads h).map

theorem readParentInfo_ensures : Ensures readParentInfo ParentInfo.Safe :=
  readVarUint_ensures.bind fun _ _ =>
    .ite (fun _ => readVarString_ensures.bind fun _ h => .pure h) fun _ =>
      .ite (fun _ => readID_ensures.bind fun _ h => .pure h) fun _ => .fail _

namespace Item

/-- The parent an item is written with: the one it was resolved to, or what the wire said. -/
def parentInfo (it : Item) : ParentInfo :=
  match it.parent with
  | some (.nested owner) => .item owner
  | some (.root name) => .root name
  | none => it.wireParent.getD (.root [])

/-- The item has no neighbour that could tell its parent. -/
def absent (it : Item) : Bool := it.origin.isNone && it.rightOrigin.isNone

/-- The item can be written and read. -/
structure Safe (it : Item) : Prop where
  origin : ∀ id, it.origin = some id → id.Safe
  right : ∀ id, it.rightOrigin = some id → id.Safe
  parent : it.absent = true → it.parentInfo.Safe
  key : it.absent = true → it.hasParentSub = true → it.parentSub.length ≤ maxSafeInteger
  content : it.content.Safe

/-- The bytes of the parent and the key. -/
def parentBytes (it : Item) : Bytes :=
  if it.absent then it.parentInfo.enc ++ if it.hasParentSub then strBytes it.parentSub else []
  else []

/-- The bytes of the item. -/
def enc (it : Item) : Bytes :=
  [UInt8.ofNat (infoByte it.content.ref it.origin.isSome it.rightOrigin.isSome it.hasParentSub)] ++
    (optBytes it.origin ++ (optBytes it.rightOrigin ++ (it.parentBytes ++ it.content.enc)))

/-- The item that is read back: unresolved, and without a parent where a neighbour tells it. -/
def wired (it : Item) : Item :=
  { it with
    wireParent := if it.absent then some it.parentInfo else none
    parentSub := if it.absent && it.hasParentSub then it.parentSub else []
    content := it.content.wired
    parent := none }

variable {it : Item}

@[simp] theorem len_wired (it : Item) : it.wired.len = it.len := it.content.len_wired

@[simp] theorem id_wired (it : Item) : it.wired.id = it.id := rfl

theorem writeParentInfo_writes (h : it.parentInfo.Safe) :
    Writes (it.writeParentInfo ·) it.parentInfo.enc := by
  have hroot : ∀ {name : Bytes}, name.length ≤ maxSafeInteger →
      Writes (fun e : Encoder => (e.writeVarUint 1).writeVarString name)
        (ParentInfo.root name).enc := fun hn =>
    (writeVarUint_writes (by decide)).comp (writeVarString_writes hn)
  have hitem : ∀ {id : ID}, id.Safe →
      Writes (fun e : Encoder => writeID (e.writeVarUint 0) id) (ParentInfo.item id).enc := fun hid =>
    (writeVarUint_writes (by decide)).comp (writeID_writes hid)
  unfold writeParentInfo
  unfold parentInfo at h ⊢
  cases hp : it.parent with
  | some p =>
    rw [hp] at h
    cases p with
    | root name => exact hroot h
    | nested owner => exact hitem h
  | none =>
    rw [hp] at h
    cases hw : it.wireParent with
    | none => exact hroot (Nat.zero_le _)
    | some p =>
      rw [hw] at h
      cases p with
      | root name => exact hroot h
      | item id => exact hitem h

theorem write_writes (h : it.Safe) : Writes (it.write · 0) it.enc := by
  have hparent : Writes (fun e => if it.origin.isNone ∧ it.rightOrigin.isNone then
      if it.hasParentSub then (it.writeParentInfo e).writeVarString it.parentSub
        else it.writeParentInfo e
      else e) it.parentBytes := by
    unfold parentBytes
    by_cases ha : it.absent = true
    · have ha' : it.origin.isNone = true ∧ it.rightOrigin.isNone = true := by
        simpa [absent] using ha
      simp only [ha, ha', and_self, if_true]
      have hp := writeParentInfo_writes (h.parent ha)
      split
      next hs => exact hp.comp (writeVarString_writes (h.key ha hs))
      next =>
        rw [List.append_nil]
        exact hp
    · have ha' : ¬(it.origin.isNone = true ∧ it.rightOrigin.isNone = true) := by
        simpa [absent] using ha
      simp only [if_neg ha, if_neg ha']
      exact Writes.id
  exact (writeUint8_writes _).comp ((writeOptionID_writes h.origin).comp
    ((writeOptionID_writes h.right).comp (hparent.comp (Content.write_writes h.content))))

theorem infoByte_lt (c : Content) (o r s : Bool) : infoByte c.ref o r s < 256 := by
  have := c.ref_lt
  unfold infoByte
  cases o <;> cases r <;> cases s <;> simp <;> omega

theorem infoByte_fields (c : Content) (o r s : Bool) :
    infoByte c.ref o r s % 0x20 = c.ref ∧ decide (infoByte c.ref o r s / 0x20 % 2 = 1) = s ∧
      decide (infoByte c.ref o r s / 0x40 % 2 = 1) = r ∧
      decide (infoByte c.ref o r s / 0x80 % 2 = 1) = o := by
  have := c.ref_lt
  unfold infoByte
  cases o <;> cases r <;> cases s <;> simp <;> omega

theorem readParent_reads (h : it.Safe) :
    Reads (readParent it.absent it.hasParentSub) it.parentBytes
      (it.wired.wireParent, it.wired.parentSub) := by
  unfold readParent parentBytes wired
  cases ha : it.absent with
  | false => exact Reads.pure _
  | true =>
    refine (readParentInfo_reads (h.parent ha)).bind ?_
    cases hs : it.hasParentSub with
    | false => exact Reads.pure _
    | true => exact (readVarString_reads (h.key ha hs)).map

theorem readStruct_reads (h : it.Safe) :
    Reads (readStruct it.id.client it.id.clock) it.enc (.item it.wired) := by
  refine (readUint8_reads _).bind ?_
  have hlt := infoByte_lt it.content it.origin.isSome it.rightOrigin.isSome it.hasParentSub
  obtain ⟨href, hs, hr, ho⟩ :=
    infoByte_fields it.content it.origin.isSome it.rightOrigin.isSome it.hasParentSub
  have hpos := it.content.ref_lt
  simp only [toNat_ofNat_of_lt hlt, href]
  rw [if_neg (by omega), if_neg (by omega)]
  unfold readItem
  simp only [href, hs, hr, ho]
  refine (readOptionID_reads h.origin).bind ((readOptionID_reads h.right).bind
    ((readParent_reads h).bind ?_))
  exact (Content.readContent_reads h.content).map

end Item

theorem readParent_ensures (absent hasParentSub : Bool) :
    Ensures (readParent absent hasParentSub) fun p =>
      (∀ q, p.1 = some q → q.Safe) ∧ p.1.isSome = absent ∧ p.2.length ≤ maxSafeInteger ∧
        ((absent && hasParentSub) = false → p.2 = []) := by
  cases absent with
  | false => exact .pure (by simp)
  | true =>
    refine readParentInfo_ensures.bind fun q hq => ?_
    cases hasParentSub with
    | false => exact .pure (by simpa using hq)
    | true => exact readVarString_ensures.bind fun s hs => .pure (by simpa using ⟨hq, hs⟩)

/-- An item as it comes from the wire is what is read back when it is written. -/
structure Item.Decoded (it : Item) : Prop extends it.Safe, it.Wire where
  sub : (it.absent && it.hasParentSub) = false → it.parentSub = []

theorem Item.Decoded.wired_eq {it : Item} (h : it.Decoded) :
    it.wired = { it with content := it.content.wired } := by
  have hparent : (if it.absent then some it.parentInfo else none) = it.wireParent := by
    cases ha : it.absent with
    | false =>
      cases hw : it.wireParent with
      | none => rfl
      | some p =>
        obtain ⟨ho, hr⟩ := h.alone.1 (by simp [hw])
        simp [Item.absent, ho, hr] at ha
    | true =>
      have hne : it.wireParent ≠ none := h.alone.2 (by simpa [Item.absent] using ha)
      obtain ⟨p, hp⟩ := Option.ne_none_iff_exists'.1 hne
      simp [Item.parentInfo, h.fresh, hp]
  have hsub : (if it.absent && it.hasParentSub then it.parentSub else []) = it.parentSub := by
    cases hb : it.absent && it.hasParentSub with
    | false => exact (h.sub hb).symm
    | true => rfl
  unfold Item.wired
  rw [hparent, hsub, ← h.fresh]

theorem readItem_ensures (id : ID) (info : ℕ) :
    Ensures (readItem id info) fun st => ∃ it, st = .item it ∧ it.id = id ∧ it.Decoded := by
  refine (readOptionID_ensures _).bind fun o ho => (readOptionID_ensures _).bind fun r hr =>
    (readParent_ensures _ _).bind fun p hp => (Content.readContent_ensures _).bind fun c hc =>
      .pure ⟨_, rfl, rfl, ?_⟩
  obtain ⟨hsafe, hsome, hlen, hsub⟩ := hp
  refine ⟨⟨ho.1, hr.1, fun ha => ?_, fun _ _ => hlen, hc.1⟩, ⟨rfl, ?_⟩, hsub⟩
  · obtain ⟨q, hq⟩ := Option.isSome_iff_exists.1 (hsome.trans ha)
    simpa [Item.parentInfo, hq] using hsafe q hq
  · rw [← Option.isSome_iff_ne_none, hsome]
    simp

/-! ### Structs -/

namespace Struct

/-- The struct can be written and read. -/
def Safe : Struct → Prop
  | gc _ n => n ≤ maxLen
  | skip _ n => n ≤ maxLen
  | item it => it.Safe

/-- The struct can be written, and stands for at most `m` clocks if it has no content. -/
def Within (m : ℕ) : Struct → Prop
  | gc _ n => n ≤ m
  | skip _ n => n ≤ m
  | item it => it.Safe

theorem within_maxLen {st : Struct} : st.Within maxLen ↔ st.Safe := by cases st <;> rfl

/-- The struct can be written. -/
def Printed (st : Struct) : Prop := st.Within maxSafeInteger

theorem Safe.printed {st : Struct} (h : st.Safe) : st.Printed := by
  cases st with
  | gc id n => exact Nat.le_trans h maxLen_le
  | skip id n => exact Nat.le_trans h maxLen_le
  | item it => exact h

/-- The bytes of the struct. -/
def enc : Struct → Bytes
  | gc _ n => [0] ++ Encoder.varUint n
  | skip _ n => [10] ++ Encoder.varUint n
  | item it => it.enc

/-- The struct that is read back. -/
def wired : Struct → Struct
  | item it => item it.wired
  | st => st

variable {st : Struct}

@[simp] theorem id_wired (st : Struct) : st.wired.id = st.id := by cases st <;> rfl

@[simp] theorem len_wired (st : Struct) : st.wired.len = st.len := by
  cases st with
  | item it => exact it.len_wired
  | _ => rfl

theorem enc_length_pos (st : Struct) : 0 < st.enc.length := by
  cases st <;> simp [enc, Item.enc]

theorem write_writes (h : st.Printed) : Writes (st.write · 0) st.enc := by
  cases st with
  | gc id n => exact (writeUint8_writes 0).comp (writeVarUint_writes h)
  | skip id n => exact (writeUint8_writes 10).comp (writeVarUint_writes h)
  | item it => exact Item.write_writes h

theorem readStruct_reads {c k : ℕ} (h : st.Safe) (hid : st.id = ⟨c, k⟩) :
    Reads (readStruct c k) st.enc st.wired := by
  cases st with
  | gc id n =>
    obtain rfl : id = ⟨c, k⟩ := hid
    exact (readUint8_reads 0).bind (readLen_reads h).map
  | skip id n =>
    obtain rfl : id = ⟨c, k⟩ := hid
    exact (readUint8_reads 10).bind (readLen_reads h).map
  | item it =>
    have hid : it.id = ⟨c, k⟩ := hid
    have := Item.readStruct_reads h
    rwa [hid] at this

theorem readStruct_refuses {c k : ℕ} (h : st.Printed) (hs : ¬st.Safe) :
    Refuses (readStruct c k) st.enc := by
  cases st with
  | gc id n => exact (readUint8_reads 0).refuses (readLen_refuses h (Nat.lt_of_not_le hs)).bind
  | skip id n => exact (readUint8_reads 10).refuses (readLen_refuses h (Nat.lt_of_not_le hs)).bind
  | item it => exact absurd h hs

/-- A struct as it comes from the wire. -/
def Decoded (st : Struct) : Prop := st.Safe ∧ ∀ it, st = .item it → it.Decoded

end Struct

theorem readStruct_ensures (c k : ℕ) : Ensures (readStruct c k) Struct.Decoded := by
  refine readUint8_ensures.bind fun info _ => .ite (fun _ => .ite (fun _ => .fail _) fun _ => ?_)
    fun _ => .ite (fun _ => .ite (fun _ => .fail _) fun _ => ?_) fun _ => ?_
  · exact readLen_ensures.bind fun n h => .pure ⟨h, fun _ he => by cases he⟩
  · exact readLen_ensures.bind fun n h => .pure ⟨h, fun _ he => by cases he⟩
  · refine (readItem_ensures _ _).mono ?_
    rintro _ ⟨it, rfl, -, hit⟩
    exact ⟨hit.toSafe, by rintro _ ⟨⟩; exact hit⟩

theorem readStructs_reads {c k : ℕ} {l : List Struct} (hc : Contig c k l)
    (h : ∀ st ∈ l, st.Safe) :
    Reads (readStructs c l.length k) (l.flatMap Struct.enc) (l.map Struct.wired) := by
  induction l generalizing k with
  | nil => exact Reads.pure []
  | cons st l ih =>
    have hl := ih hc.2 fun st' hst' => h st' (List.mem_cons_of_mem _ hst')
    refine (Struct.readStruct_reads (h st (List.mem_cons_self ..)) hc.1).bind ?_
    rw [Struct.len_wired]
    exact hl.map

theorem readStructs_refuses {c k : ℕ} {l : List Struct} (hc : Contig c k l)
    (h : ∀ st ∈ l, st.Printed) (hs : ¬∀ st ∈ l, st.Safe) :
    Refuses (readStructs c l.length k) (l.flatMap Struct.enc) := by
  induction l generalizing k with
  | nil => exact absurd (by simp) hs
  | cons st l ih =>
    by_cases hst : st.Safe
    · have hl := ih hc.2 (fun st' hst' => h st' (List.mem_cons_of_mem _ hst')) fun hall =>
        hs (List.forall_mem_cons.2 ⟨hst, hall⟩)
      refine (Struct.readStruct_reads hst hc.1).refuses ?_
      rw [Struct.len_wired]
      exact hl.bind
    · exact (Struct.readStruct_refuses (h st (List.mem_cons_self ..)) hst).bind.append _

theorem readStructs_ensures (c n k : ℕ) :
    Ensures (readStructs c n k) fun l => l.length = n ∧ ∀ st ∈ l, st.Decoded := by
  induction n generalizing k with
  | zero => exact .pure (by simp)
  | succ n ih =>
    refine (readStruct_ensures c k).bind fun st hst => (ih _).bind fun l hl => .pure ?_
    exact ⟨by simp [hl.1], List.forall_mem_cons.2 ⟨hst, hl.2⟩⟩

/-! ### Blocks -/

namespace ClientBlock

/-- The block is a run of structs that can be written and read. -/
structure Safe (blk : ClientBlock) : Prop where
  client : blk.client ≤ maxSafeInteger
  start : blk.startClock ≤ maxSafeInteger
  length : blk.structs.length ≤ maxSafeInteger
  contig : Contig blk.client blk.startClock blk.structs
  structs : ∀ st ∈ blk.structs, st.Safe

/-- The block is a run of structs that can be written. -/
structure Printed (blk : ClientBlock) : Prop where
  client : blk.client ≤ maxSafeInteger
  start : blk.startClock ≤ maxSafeInteger
  length : blk.structs.length ≤ maxSafeInteger
  contig : Contig blk.client blk.startClock blk.structs
  structs : ∀ st ∈ blk.structs, st.Printed

theorem safe_iff {blk : ClientBlock} : blk.Safe ↔ blk.Printed ∧ ∀ st ∈ blk.structs, st.Safe :=
  ⟨fun h => ⟨⟨h.client, h.start, h.length, h.contig, fun st hst => (h.structs st hst).printed⟩,
    h.structs⟩, fun ⟨h, hs⟩ => ⟨h.client, h.start, h.length, h.contig, hs⟩⟩

/-- The bytes of the block. -/
def enc (blk : ClientBlock) : Bytes :=
  Encoder.varUint blk.structs.length ++ (Encoder.varUint blk.client ++
    (Encoder.varUint blk.startClock ++ blk.structs.flatMap Struct.enc))

/-- The block that is read back. -/
def wired (blk : ClientBlock) : ClientBlock := { blk with structs := blk.structs.map Struct.wired }

variable {blk : ClientBlock}

theorem writeStructs_writes {c k : ℕ} {l : List Struct} (hc : Contig c k l)
    (h : ∀ st ∈ l, st.Printed) : Writes (writeStructs · k l) (l.flatMap Struct.enc) := by
  cases l with
  | nil => exact Writes.id
  | cons st l =>
    have hoffset : k - st.id.clock = 0 := by
      rw [hc.1]
      exact Nat.sub_self k
    simp only [writeStructs, hoffset, List.flatMap_cons]
    exact (Struct.write_writes (h st (List.mem_cons_self ..))).comp
      (foldl_writes fun st' hst' => Struct.write_writes (h st' (List.mem_cons_of_mem _ hst')))

theorem write_writes (h : blk.Printed) : Writes (write · blk) blk.enc :=
  (writeVarUint_writes h.length).comp ((writeVarUint_writes h.client).comp
    ((writeVarUint_writes h.start).comp (writeStructs_writes h.contig h.structs)))

theorem readClientBlock_reads (h : blk.Safe) : Reads readClientBlock blk.enc blk.wired := by
  refine (readVarUint_reads h.length).bind (Reads.checkRemaining ?_
    ((readSafeVarUint_reads h.client).bind ((readSafeVarUint_reads h.start).bind
      (readStructs_reads h.contig h.structs).map)))
  have := length_le_flatMap fun st (_ : st ∈ blk.structs) => st.enc_length_pos
  simp only [List.length_append]
  omega

theorem readClientBlock_refuses (h : blk.Printed) (hs : ¬blk.Safe) :
    Refuses readClientBlock blk.enc := by
  refine (readVarUint_reads h.length).refuses (Refuses.checkRemaining
    ((readSafeVarUint_reads h.client).refuses ((readSafeVarUint_reads h.start).refuses
      (readStructs_refuses h.contig h.structs fun hall => hs ?_).bind)))
  exact safe_iff.2 ⟨h, hall⟩

/-- A block as it comes from the wire. -/
structure Decoded (blk : ClientBlock) : Prop extends blk.Safe where
  decoded : ∀ st ∈ blk.structs, st.Decoded

end ClientBlock

theorem readClientBlock_ensures : Ensures readClientBlock ClientBlock.Decoded := by
  have hread : Ensures readClientBlock fun blk => blk.client ≤ maxSafeInteger ∧
      blk.startClock ≤ maxSafeInteger ∧ blk.structs.length ≤ maxSafeInteger ∧
      ∀ st ∈ blk.structs, st.Decoded :=
    readVarUint_ensures.bind fun n _ => (Ensures.checkRemaining n).bind fun _ hn =>
      readSafeVarUint_ensures.bind fun c hc => readSafeVarUint_ensures.bind fun k hk =>
        (readStructs_ensures c n k).bind fun l hl => .pure ⟨hc, hk, hl.1 ▸ hn, hl.2⟩
  intro b blk rest hb hr
  obtain ⟨hrest, hc, hk, hn, hl⟩ := hread b blk rest hb hr
  exact ⟨hrest, ⟨⟨hc, hk, hn, (readClientBlock_yields b blk rest hr).1,
    fun st hst => (hl st hst).1⟩, hl⟩⟩

/-! ### Delete sets and state vectors -/

namespace DeleteRange

/-- The writer can write the range. -/
def Safe (r : DeleteRange) : Prop := r.clock ≤ maxSafeInteger ∧ r.len ≤ maxLen

/-- The bytes of a range. -/
def enc (r : DeleteRange) : Bytes := Encoder.varUint r.clock ++ Encoder.varUint r.len

end DeleteRange

namespace DeleteSet

/-- The ranges of one client can be written and read. -/
def SafeClient (p : ℕ × List DeleteRange) : Prop :=
  p.1 ≤ maxSafeInteger ∧ p.2.length ≤ maxSafeInteger ∧ ∀ r ∈ p.2, r.Safe

/-- The delete set can be written and read. -/
def Safe (ds : DeleteSet) : Prop :=
  ds.entries.length ≤ maxSafeInteger ∧ ∀ p ∈ ds.entries, SafeClient p

instance (p : ℕ × List DeleteRange) : Decidable (SafeClient p) :=
  inferInstanceAs (Decidable (_ ∧ _ ∧ ∀ r ∈ p.2, _ ∧ _))

instance (ds : DeleteSet) : Decidable (Safe ds) :=
  inferInstanceAs (Decidable (_ ∧ ∀ p ∈ ds.entries, SafeClient p))

/-- The ranges of one client can be written. -/
def PrintedClient (p : ℕ × List DeleteRange) : Prop :=
  p.1 ≤ maxSafeInteger ∧ p.2.length ≤ maxSafeInteger ∧
    ∀ r ∈ p.2, r.clock ≤ maxSafeInteger ∧ r.len ≤ maxSafeInteger

/-- The delete set can be written. -/
def Printed (ds : DeleteSet) : Prop :=
  ds.entries.length ≤ maxSafeInteger ∧ ∀ p ∈ ds.entries, PrintedClient p

theorem Safe.printed {ds : DeleteSet} (h : Safe ds) : Printed ds :=
  ⟨h.1, fun p hp => ⟨(h.2 p hp).1, (h.2 p hp).2.1, fun r hr =>
    ⟨((h.2 p hp).2.2 r hr).1, ((h.2 p hp).2.2 r hr).2.trans maxLen_le⟩⟩⟩

/-- The bytes of one client. -/
def encClient (p : ℕ × List DeleteRange) : Bytes :=
  Encoder.varUint p.1 ++ (Encoder.varUint p.2.length ++ p.2.flatMap DeleteRange.enc)

/-- The bytes of the delete set. -/
def enc (ds : DeleteSet) : Bytes :=
  Encoder.varUint ds.entries.length ++ ds.entries.flatMap encClient

theorem write_writes {ds : DeleteSet} (h : Printed ds) : Writes (write · ds) (enc ds) :=
  (writeVarUint_writes h.1).comp (foldl_writes fun p hp =>
    (writeVarUint_writes (h.2 p hp).1).comp ((writeVarUint_writes (h.2 p hp).2.1).comp
      (foldl_writes fun r hr => (writeVarUint_writes ((h.2 p hp).2.2 r hr).1).comp
        (writeVarUint_writes ((h.2 p hp).2.2 r hr).2))))

theorem writeRange_appends (r : DeleteRange) : Appends (writeRange · r) :=
  (writeVarUint_appends r.clock).comp (writeVarUint_appends r.len)

theorem writeClient_appends (p : ℕ × List DeleteRange) : Appends (writeClient · p) :=
  ((writeVarUint_appends p.1).comp (writeVarUint_appends p.2.length)).comp
    (foldl_appends writeRange_appends p.2)

theorem write_appends (ds : DeleteSet) : Appends (write · ds) :=
  (writeVarUint_appends _).comp (foldl_appends writeClient_appends ds.entries)

theorem writeClient_fails {p : ℕ × List DeleteRange} (h : ¬PrintedClient p) :
    Fails (writeClient · p) := by
  have hrest := foldl_appends writeRange_appends p.2
  by_cases h1 : p.1 ≤ maxSafeInteger
  · by_cases h2 : p.2.length ≤ maxSafeInteger
    · obtain ⟨r, hr, hbad⟩ : ∃ r ∈ p.2, ¬(r.clock ≤ maxSafeInteger ∧ r.len ≤ maxSafeInteger) := by
        by_contra hall
        push Not at hall
        exact h ⟨h1, h2, hall⟩
      have hf : Fails (writeRange · r) := by
        by_cases h3 : r.clock ≤ maxSafeInteger
        · have h4 : maxSafeInteger < r.len := Nat.lt_of_not_le fun hle => hbad ⟨h3, hle⟩
          exact (writeVarUint_fails h4).after _
        · exact (writeVarUint_fails (Nat.lt_of_not_le h3)).andThen (writeVarUint_appends _)
      exact (foldl_fails hr hf writeRange_appends).after _
    · exact ((writeVarUint_fails (Nat.lt_of_not_le h2)).after _).andThen hrest
  · have hclient := writeVarUint_fails (Nat.lt_of_not_le h1)
    exact (hclient.andThen (writeVarUint_appends _)).andThen hrest

theorem write_fails {ds : DeleteSet} (h : ¬Printed ds) : Fails (write · ds) := by
  by_cases h1 : ds.entries.length ≤ maxSafeInteger
  · obtain ⟨p, hp, hbad⟩ : ∃ p ∈ ds.entries, ¬PrintedClient p := by
      by_contra hall
      push Not at hall
      exact h ⟨h1, hall⟩
    exact (foldl_fails hp (writeClient_fails hbad) writeClient_appends).after _
  · exact (writeVarUint_fails (Nat.lt_of_not_le h1)).andThen
      (foldl_appends writeClient_appends _)

end DeleteSet

theorem readDeleteRange_reads {r : DeleteRange} (h : r.Safe) : Reads readDeleteRange r.enc r :=
  (readSafeVarUint_reads h.1).bind (readLen_reads h.2).map

theorem readDeleteClient_reads {p : ℕ × List DeleteRange} (h : DeleteSet.SafeClient p) :
    Reads readDeleteClient (DeleteSet.encClient p) p := by
  refine (readSafeVarUint_reads h.1).bind ((readVarUint_reads h.2.1).bind
    (Reads.checkRemaining (length_le_flatMap fun r _ => varUint_append_pos ..) ?_))
  exact (Reads.times_self fun r hr => readDeleteRange_reads (h.2.2 r hr)).map

theorem readDeleteSet_reads {ds : DeleteSet} (h : DeleteSet.Safe ds) :
    Reads readDeleteSet (DeleteSet.enc ds) ds := by
  refine (readVarUint_reads h.1).bind
    (Reads.checkRemaining (length_le_flatMap fun p _ => varUint_append_pos ..) ?_)
  have hmap := (Reads.times_self fun p hp => readDeleteClient_reads (h.2 p hp)).map
    (g := SortedMap.ofList)
  rwa [SortedMap.ofList_entries_self] at hmap

theorem readDeleteRange_refuses {r : DeleteRange}
    (h : r.clock ≤ maxSafeInteger ∧ r.len ≤ maxSafeInteger) (hs : ¬r.Safe) :
    Refuses readDeleteRange r.enc :=
  (readSafeVarUint_reads h.1).refuses
    (readLen_refuses h.2 (Nat.lt_of_not_le fun hle => hs ⟨h.1, hle⟩)).bind

theorem readDeleteClient_refuses {p : ℕ × List DeleteRange} (h : DeleteSet.PrintedClient p)
    (hs : ¬DeleteSet.SafeClient p) : Refuses readDeleteClient (DeleteSet.encClient p) := by
  refine (readSafeVarUint_reads h.1).refuses ((readVarUint_reads h.2.1).refuses
    (Refuses.checkRemaining (Refuses.times (v := id) (fun r _ => readDeleteRange_reads)
      (fun r hr => readDeleteRange_refuses (h.2.2 r hr)) fun hall => hs ?_).bind))
  exact ⟨h.1, h.2.1, hall⟩

theorem readDeleteSet_refuses {ds : DeleteSet} (h : DeleteSet.Printed ds)
    (hs : ¬DeleteSet.Safe ds) : Refuses readDeleteSet (DeleteSet.enc ds) :=
  (readVarUint_reads h.1).refuses (Refuses.checkRemaining
    (Refuses.times (v := id) (fun _ _ => readDeleteClient_reads)
      (fun p hp => readDeleteClient_refuses (h.2 p hp)) fun hall => hs ⟨h.1, hall⟩).bind)

theorem readDeleteSet_ensures : Ensures readDeleteSet DeleteSet.Safe := by
  have hrange : Ensures readDeleteRange DeleteRange.Safe :=
    readSafeVarUint_ensures.bind fun _ h => readLen_ensures.bind fun _ h' => .pure ⟨h, h'⟩
  have hclient : Ensures readDeleteClient DeleteSet.SafeClient :=
    readSafeVarUint_ensures.bind fun c hc => readVarUint_ensures.bind fun n _ =>
      (Ensures.checkRemaining n).bind fun _ hn => (hrange.times n).bind fun l hl =>
        .pure ⟨hc, hl.1 ▸ hn, hl.2⟩
  refine readVarUint_ensures.bind fun n _ => (Ensures.checkRemaining n).bind fun _ hn =>
    (hclient.times n).bind fun l hl => .pure ?_
  obtain ⟨hmem, hlen⟩ := SortedMap.ofList_entries l
  exact ⟨hlen.trans (hl.1 ▸ hn), fun p hp => hl.2 p (hmem p hp)⟩

namespace StateVector

/-- The state vector can be written and read. -/
def Safe (sv : StateVector) : Prop :=
  sv.entries.length ≤ maxSafeInteger ∧
    ∀ p ∈ sv.entries, p.1 ≤ maxSafeInteger ∧ p.2 ≤ maxSafeInteger

/-- The bytes of an entry. -/
def encClient (p : ℕ × ℕ) : Bytes := Encoder.varUint p.1 ++ Encoder.varUint p.2

/-- The bytes of the state vector. -/
def enc (sv : StateVector) : Bytes :=
  Encoder.varUint sv.entries.length ++ sv.entries.flatMap encClient

theorem write_writes {sv : StateVector} (h : Safe sv) : Writes (write · sv) (enc sv) :=
  (writeVarUint_writes h.1).comp (foldl_writes fun p hp =>
    (writeVarUint_writes (h.2 p hp).1).comp (writeVarUint_writes (h.2 p hp).2))

end StateVector

theorem decodeAll_reads {α : Type} {r : Read α} {s : Bytes} {a : α} (h : Reads r s a) :
    decodeAll r s = .ok a := by
  rw [decodeAll, h.run]

theorem decodeAll_ensures {α : Type} {r : Read α} {P : α → Prop} {b : Bytes} {a : α}
    (h : Ensures r P) (hb : b.length ≤ maxSafeInteger) (hr : decodeAll r b = .ok a) : P a := by
  unfold decodeAll at hr
  split at hr
  next heq =>
    cases hr
    exact (h _ _ _ hb heq).2
  next => cases hr
  next => cases hr

theorem encodeStateVector_eq {sv : StateVector} (h : StateVector.Safe sv) :
    encodeStateVector sv = .ok (StateVector.enc sv) :=
  (StateVector.write_writes h).result

theorem StateVector.safe_of_encode {sv : StateVector} {b : Bytes}
    (h : encodeStateVector sv = .ok b) : StateVector.Safe sv := by
  have happends : ∀ p, Appends (StateVector.writeClient · p) := fun p =>
    (writeVarUint_appends p.1).comp (writeVarUint_appends p.2)
  refine ⟨Nat.le_of_not_lt fun hlt => ?_, fun p hp => ⟨Nat.le_of_not_lt fun hlt => ?_,
    Nat.le_of_not_lt fun hlt => ?_⟩⟩
  · exact ((writeVarUint_fails hlt).andThen (foldl_appends happends _)).result b h
  · have hf : Fails (StateVector.writeClient · p) :=
      (writeVarUint_fails hlt).andThen (writeVarUint_appends p.2)
    exact ((foldl_fails hp hf happends).after (·.writeVarUint sv.entries.length)).result b h
  · have hf : Fails (StateVector.writeClient · p) := (writeVarUint_fails hlt).after _
    exact ((foldl_fails hp hf happends).after (·.writeVarUint sv.entries.length)).result b h

theorem decodeStateVector_enc {sv : StateVector} (h : StateVector.Safe sv) :
    decodeStateVector (StateVector.enc sv) = .ok sv := by
  refine decodeAll_reads ((readVarUint_reads h.1).bind (Reads.checkRemaining ?_ ?_))
  · exact length_le_flatMap fun p _ => varUint_append_pos ..
  · have hread := Reads.times_self (r := readStateClient) (l := sv.entries) fun p hp =>
      (readSafeVarUint_reads (h.2 p hp).1).bind (readSafeVarUint_reads (h.2 p hp).2).map
    have hmap := hread.map (g := SortedMap.ofList)
    rwa [SortedMap.ofList_entries_self] at hmap

theorem encodeStateVector_inj {sv sv' : StateVector} {b : Bytes} (h : encodeStateVector sv = .ok b)
    (h' : encodeStateVector sv' = .ok b) : sv = sv' := by
  have hs := StateVector.safe_of_encode h
  have hs' := StateVector.safe_of_encode h'
  rw [encodeStateVector_eq hs] at h
  rw [encodeStateVector_eq hs', ← h] at h'
  have hd := decodeStateVector_enc hs
  have hd' := decodeStateVector_enc hs'
  rw [Except.ok.inj h', hd] at hd'
  exact Except.ok.inj hd'

/-! ### Every writer only appends -/

theorem Content.write_appends (c : Content) (offset : ℕ) : Appends (c.write · offset) := by
  cases c with
  | deleted => exact writeVarUint_appends _
  | json => exact (writeVarUint_appends _).comp (foldl_appends writeVarString_appends _)
  | binary => exact writeVarUint8Array_appends _
  | string =>
    refine .ite (writeVarString_appends _) ?_
    split <;> exact writeVarString_appends _
  | embed => exact writeVarString_appends _
  | format => exact (writeVarString_appends _).comp (writeVarString_appends _)
  | type => exact (writeVarUint_appends _).comp (.ite (writeVarString_appends _) .id)
  | any => exact (writeVarUint_appends _).comp (foldl_appends writeAny_appends _)
  | doc => exact (writeVarString_appends _).comp (writeAny_appends _)

theorem writeID_appends (id : ID) : Appends (writeID · id) :=
  (writeVarUint_appends _).comp (writeVarUint_appends _)

theorem writeOptionID_appends (o : Option ID) : Appends (writeOptionID · o) := by
  cases o with
  | none => exact .id
  | some id => exact writeID_appends id

theorem Item.writeParentInfo_appends (it : Item) : Appends it.writeParentInfo := by
  unfold writeParentInfo
  split
  · exact (writeVarUint_appends _).comp (writeID_appends _)
  · exact (writeVarUint_appends _).comp (writeVarString_appends _)
  · split
    · exact (writeVarUint_appends _).comp (writeVarString_appends _)
    · exact (writeVarUint_appends _).comp (writeVarString_appends _)
    · exact (writeVarUint_appends _).comp (writeID_appends _)

theorem Struct.write_appends (st : Struct) (offset : ℕ) : Appends (st.write · offset) := by
  cases st with
  | gc | skip => exact (writeUint8_appends _).comp (writeVarUint_appends _)
  | item it =>
    have hhead := (writeUint8_appends (UInt8.ofNat (infoByte it.content.ref
      (it.writeOrigin offset).isSome it.rightOrigin.isSome it.hasParentSub))).comp
      ((writeOptionID_appends (it.writeOrigin offset)).comp (writeOptionID_appends it.rightOrigin))
    exact (hhead.comp (.ite (it.writeParentInfo_appends.comp
      (.ite (writeVarString_appends it.parentSub) .id)) .id)).comp (it.content.write_appends offset)

theorem ClientBlock.write_appends (blk : ClientBlock) : Appends (ClientBlock.write · blk) := by
  have hstructs : Appends fun e => writeStructs e blk.startClock blk.structs := by
    cases blk.structs with
    | nil => exact .id
    | cons st l => exact (st.write_appends _).comp (foldl_appends (·.write_appends 0) l)
  have hhead := (writeVarUint_appends blk.structs.length).comp
    ((writeVarUint_appends blk.client).comp (writeVarUint_appends blk.startClock))
  exact hhead.comp hstructs

/-! ### Updates -/

namespace Update

/-- The update can be written and read. -/
structure Safe (u : Update) : Prop where
  length : u.clients.length ≤ maxSafeInteger
  blocks : ∀ blk ∈ u.clients, blk.Safe
  deletes : DeleteSet.Safe u.deletes

/-- The update can be written. -/
structure Printed (u : Update) : Prop where
  length : u.clients.length ≤ maxSafeInteger
  blocks : ∀ blk ∈ u.clients, blk.Printed
  deletes : DeleteSet.Printed u.deletes

theorem Safe.printed {u : Update} (h : u.Safe) : u.Printed :=
  ⟨h.length, fun blk hblk => (ClientBlock.safe_iff.1 (h.blocks blk hblk)).1, h.deletes.printed⟩

/-- The bytes of the update. -/
def enc (u : Update) : Bytes :=
  Encoder.varUint u.clients.length ++
    ((sortBlocks u.clients).flatMap ClientBlock.enc ++ DeleteSet.enc u.deletes)

/-- The update that is read back: the blocks in the order they are written. -/
def wired (u : Update) : Update := ⟨(sortBlocks u.clients).map ClientBlock.wired, u.deletes⟩

variable {u : Update}

theorem sortBlocks_perm (l : List ClientBlock) : (sortBlocks l).Perm l := List.perm_insertionSort _ l

theorem length_sortBlocks (l : List ClientBlock) : (sortBlocks l).length = l.length :=
  (sortBlocks_perm l).length_eq

theorem printed_of_encode {b : Bytes} (h : u.encode = .ok b) : DeleteSet.Printed u.deletes := by
  by_contra hbad
  have hfails : Fails (write · u) := (DeleteSet.write_fails hbad).after fun e =>
    (sortBlocks u.clients).foldl ClientBlock.write (e.writeVarUint (sortBlocks u.clients).length)
  exact hfails.result b h

theorem blocks_of_encode {b : Bytes} (h : u.encode = .ok b) :
    Encoder.varUint u.clients.length <+: b := by
  have hrest : Appends fun e => DeleteSet.write
      ((sortBlocks u.clients).foldl ClientBlock.write e) u.deletes :=
    (foldl_appends ClientBlock.write_appends _).comp (DeleteSet.write_appends _)
  simp only [encode, write, length_sortBlocks] at h
  by_cases hlen : u.clients.length ≤ maxSafeInteger
  · have hcount : ({} : Encoder).writeVarUint u.clients.length =
        ⟨Encoder.varUint u.clients.length, none⟩ := writeVarUint_writes hlen {} rfl
    have hgrows := hrest.grows ⟨Encoder.varUint u.clients.length, none⟩
    rw [hcount] at h
    unfold Encoder.result at h
    split at h
    · cases h
      exact hgrows
    · cases h
  · exact absurd h (((writeVarUint_fails (Nat.not_le.1 hlen)).andThen hrest).result b)

/-- **An update that can be written is encoded.** -/
theorem encode_eq (h : u.Printed) : u.encode = .ok u.enc := by
  have hlen := length_sortBlocks u.clients
  have hw : Writes (write · u) u.enc := by
    simp only [write, enc, ← hlen]
    exact (writeVarUint_writes (hlen ▸ h.length)).comp
      ((foldl_writes fun blk hblk => ClientBlock.write_writes
        (h.blocks blk ((sortBlocks_perm _).mem_iff.1 hblk))).comp (DeleteSet.write_writes h.deletes))
  exact hw.result

end Update

section Updates

variable {u : Update}

/-- **What was encoded is decoded.** -/
theorem decodeUpdate_enc (h : u.Safe) : decodeUpdate u.enc = .ok u.wired := by
  refine decodeAll_reads ((readVarUint_reads h.length).bind (Reads.checkRemaining ?_ ?_))
  · have hlen : _ ≤ ((sortBlocks u.clients).flatMap ClientBlock.enc).length :=
      length_le_flatMap fun blk _ => varUint_append_pos ..
    rw [Update.length_sortBlocks] at hlen
    rw [List.length_append]
    omega
  · rw [← Update.length_sortBlocks]
    refine (Reads.times fun blk hblk => ?_).bind (readDeleteSet_reads h.deletes).map
    exact ClientBlock.readClientBlock_reads (h.blocks blk ((Update.sortBlocks_perm _).mem_iff.1 hblk))

/-- **What cannot be read back is refused.** -/
theorem decodeUpdate_refuses (h : u.Printed) (hs : ¬u.Safe) :
    ∃ x, decodeUpdate u.enc = .error x := by
  have hread : Refuses readUpdate u.enc := by
    refine (readVarUint_reads h.length).refuses (Refuses.checkRemaining ?_)
    rw [← Update.length_sortBlocks]
    by_cases hall : ∀ blk ∈ sortBlocks u.clients, blk.Safe
    · have hds : ¬DeleteSet.Safe u.deletes := fun hds => hs ⟨h.length, fun blk hblk =>
        hall blk ((Update.sortBlocks_perm _).mem_iff.2 hblk), hds⟩
      exact (Reads.times fun blk hblk => ClientBlock.readClientBlock_reads (hall blk hblk)).refuses
        (readDeleteSet_refuses h.deletes hds).bind
    · refine (Refuses.times (fun _ _ => ClientBlock.readClientBlock_reads) (fun blk hblk => ?_)
        hall).bind.append _
      exact ClientBlock.readClientBlock_refuses
        (h.blocks blk ((Update.sortBlocks_perm _).mem_iff.1 hblk))
  obtain ⟨x, hx⟩ := hread []
  rw [List.append_nil] at hx
  exact ⟨x, by rw [decodeUpdate, decodeAll, hx]⟩

/-- **A decoded update can be encoded.** -/
theorem decodeUpdate_decoded {b : Bytes} (hb : b.length ≤ maxSafeInteger)
    (h : decodeUpdate b = .ok u) : u.Safe ∧ ∀ blk ∈ u.clients, blk.Decoded := by
  refine decodeAll_ensures (P := fun u : Update => u.Safe ∧ ∀ blk ∈ u.clients, blk.Decoded) ?_ hb h
  refine readVarUint_ensures.bind fun n _ => (Ensures.checkRemaining n).bind fun _ hn =>
    (readClientBlock_ensures.times n).bind fun l hl => readDeleteSet_ensures.bind fun ds hds =>
      .pure ⟨⟨hl.1 ▸ hn, fun blk hblk => (hl.2 blk hblk).toSafe, hds⟩, hl.2⟩

end Updates

end YCollab.Crdt
