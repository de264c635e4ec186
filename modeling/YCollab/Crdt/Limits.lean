import YCollab.Crdt.Snapshot

/-!
# Documents that can be written and read back

The numbers of an update are bounded when it is decoded: a clock by `2 ^ 53 - 1`, the length of a GC
or of a deleted range by `2 ^ 31`.  What a document makes of several updates is not: clocks add up,
and ranges that touch become one.  `Doc.Limits` says which documents stay within what can be written
and read, and `Doc.readable_iff` that these are exactly the documents whose state vector and updates
the decoder accepts.
-/

namespace YCollab.Crdt

open Lib0

namespace Doc

variable {d : Doc} {x : ID} {bs : List Bytes} {sv : StateVector}

/-- The unit is deleted, or will be once it is received. -/
def Doomed (d : Doc) (x : ID) : Prop := d.Gone x ∨ d.pendingDeletes.Names x

/-- The document is within the limits of the wire format. -/
structure Limits (d : Doc) : Prop where
  /-- Clocks can be written. -/
  state : ∀ c, d.state c ≤ maxSafeInteger
  /-- Clients can be counted. -/
  clients : ∃ cs : List ℕ, cs.length ≤ maxSafeInteger ∧ ∀ c, 0 < d.state c → c ∈ cs
  /-- No GC is too long to be read. -/
  gcs : ∀ c id n, .gc id n ∈ d.store.structs c → n ≤ maxLen
  /-- No clocks in a row, all of them deleted or to be deleted, are too many to be read. -/
  runs : ∀ c k, ¬∀ i ≤ maxLen, d.Doomed ⟨c, k + i⟩
  /-- Clients with deletions can be counted. -/
  doomed : ∃ cs : List ℕ, cs.length ≤ maxSafeInteger ∧ ∀ x, d.Doomed x → x.client ∈ cs

/-- What the document encodes is decoded. -/
def Readable (d : Doc) (sv : StateVector) : Prop :=
  (∃ b v, d.encodeStateVector = .ok b ∧ decodeStateVector b = .ok v) ∧
    ∃ b u, d.encodeStateAsUpdate sv = .ok b ∧ decodeUpdate b = .ok u

/-- The deletions can be written and read exactly if no run of them is too long. -/
theorem replay_printable_iff (hbs : ∀ b ∈ bs, b.length ≤ maxSafeInteger)
    (hstate : ∀ c, (replay bs).state c ≤ maxSafeInteger) :
    DeleteSet.Safe (replay bs).deleteSetForUpdate ↔
      (∀ c k, ¬∀ i ≤ maxLen, (replay bs).Doomed ⟨c, k + i⟩) ∧
        ∃ cs : List ℕ, cs.length ≤ maxSafeInteger ∧ ∀ x, (replay bs).Doomed x → x.client ∈ cs := by
  obtain ⟨hbuilt, hnames⟩ := deleteSetForUpdate_spec (replay bs)
  have heq : (replay bs).deleteSetForUpdate.Names = (replay bs).Doomed :=
    funext fun x => propext (hnames x)
  have hg := (replay_regular bs).gapless
  rw [hbuilt.safe_iff, heq]
  refine ⟨fun h => ⟨h.run, h.clients⟩, fun ⟨hrun, hclients⟩ => ⟨?_, hclients, ?_, hrun⟩⟩
  · rintro x (hgone | hnamed)
    · exact (replay_legible hbs).1.client _ (Nat.zero_lt_of_lt (hgone.has hg))
    · exact (replay_names_spec hbs hnamed).1
  · intro c k hx hfirst
    by_contra hlarge
    have hahead : (replay bs).state c ≤ k := by
      have := hstate c
      omega
    rcases hx with hgone | hnamed
    · exact absurd (hgone.has hg) (Nat.not_lt.2 hahead)
    · -- what is named this far out was named by a range that starts before
      obtain ⟨i, rfl⟩ : ∃ i, k = i + 1 := ⟨k - 1, by omega⟩
      refine hfirst i rfl (.inr ((replay_names_spec hbs hnamed).2 i rfl (by omega) ?_))
      have := hstate c
      omega

/-- What a document sends can be written, if its clocks and deletions can and its clients can be
counted. -/
theorem Legible.sent_printed (h : d.Legible) (hg : d.store.Gapless)
    (hstate : ∀ c, d.state c ≤ maxSafeInteger) (hkeys : d.store.keys.length ≤ maxSafeInteger)
    (hds : DeleteSet.Printed d.deleteSetForUpdate) : (d.stateAsUpdate sv).sent.Printed := by
  have hgc : ∀ c id n, .gc id n ∈ d.store.structs c → n ≤ maxSafeInteger := by
    intro c id n hgc
    have hend := (hg.run c).endClock_le_end hgc
    have hle := hstate c
    rw [Doc.state, hg.state_eq] at hle
    simp only [Struct.endClock, Struct.len] at hend
    omega
  refine ⟨(length_sent_le d sv).trans hkeys, fun blk hblk => ?_, hds⟩
  obtain ⟨hclient, hstart, hlen, hcontig, hwithin⟩ := h.sent_block hg hstate hgc hblk
  exact ⟨hclient, hstart, hlen, hcontig, hwithin⟩

/-- **A document can be written and read back** exactly if it is within the limits. -/
theorem readable_iff (hbs : ∀ b ∈ bs, b.length ≤ maxSafeInteger) :
    (∀ sv, (replay bs).Readable sv) ↔ (replay bs).Limits := by
  have hg := (replay_regular bs).gapless
  have hl := (replay_legible hbs).1
  constructor
  · intro h
    obtain ⟨⟨b, v, hb, -⟩, b', u, hb', hu⟩ := h SortedMap.empty
    obtain ⟨hstate, hclients⟩ :=
      (stateVector_safe_iff hg hl.client).1 (StateVector.safe_of_encode hb)
    have hprinted : ((replay bs).stateAsUpdate SortedMap.empty).sent.Printed :=
      hl.sent_printed hg hstate (length_keys_le_of_clients hg hclients)
        (Update.printed_of_encode hb')
    have hsafe : ((replay bs).stateAsUpdate SortedMap.empty).sent.Safe := by
      by_contra hbad
      obtain ⟨x, hx⟩ := decodeUpdate_refuses hprinted hbad
      rw [encodeStateAsUpdate, ← Update.encode_sent, Update.encode_eq hprinted] at hb'
      rw [← Except.ok.inj hb', hx] at hu
      cases hu
    obtain ⟨hruns, hdoomed⟩ := (replay_printable_iff hbs hstate).1 hsafe.deletes
    refine ⟨hstate, hclients, fun c id n hgc => ?_, hruns, hdoomed⟩
    have hpos : 0 < (replay bs).state c := by
      rw [Doc.state, hg.state_eq]
      obtain ⟨A, B, hs⟩ := List.append_of_mem hgc
      have hlen := (hs ▸ hg.run c).split.2.2.1
      rw [hs, lengthOf_append, lengthOf_cons]
      omega
    exact (hsafe.blocks _ ((mem_sent hg).2 ⟨c, hpos, sent_blockFrom_zero hg hpos⟩)).structs _ hgc
  · intro h sv
    have hsv := (stateVector_safe_iff hg hl.client).2 ⟨h.state, h.clients⟩
    have hsafe := hl.sent_safe hg h.state (length_keys_le_of_clients hg h.clients) h.gcs
      ((replay_printable_iff hbs h.state).2 ⟨h.runs, h.doomed⟩) sv
    refine ⟨⟨_, _, encodeStateVector_eq hsv, decodeStateVector_enc hsv⟩, _, _, ?_,
      decodeUpdate_enc hsafe⟩
    rw [encodeStateAsUpdate, ← Update.encode_sent, Update.encode_eq hsafe.printed]

theorem Writable.limits (h : (replay bs).Writable) (hbs : ∀ b ∈ bs, b.length ≤ maxSafeInteger) :
    (replay bs).Limits := by
  have hg := (replay_regular bs).gapless
  obtain ⟨hruns, hdoomed⟩ := (replay_printable_iff hbs h.state).1 h.deletes
  refine ⟨h.state, ⟨(replay bs).store.keys, h.clients, fun c hpos => ?_⟩, h.gcs, hruns, hdoomed⟩
  have hne : (replay bs).store.state c ≠ 0 := Nat.ne_of_gt hpos
  exact SortedMap.mem_keys.2 ⟨_, by rw [hg.find?_eq, if_neg hne]⟩

end Doc

namespace Sample

/-- Client 1 types two letters and deletes the first. -/
def struck : Bytes := [1, 1, 1, 0, 4, 1, 1, 116, 2, 97, 98, 1, 1, 1, 0, 1]

/-- Two ranges of client 1 that touch, the first as long as a range can be. -/
def touching : Bytes := [0, 1, 1, 2, 0, 128, 128, 128, 128, 8, 128, 128, 128, 128, 8, 1]

end Sample

/-- A document with a deleted letter can be written and read back. -/
theorem struck_readable : (Doc.replay [Sample.struck]).Gone ⟨1, 0⟩ ∧
    ∀ sv, (Doc.replay [Sample.struck]).Readable sv := by
  have hbs : ∀ b ∈ [Sample.struck], b.length ≤ maxSafeInteger := by decide
  refine ⟨by unfold Doc.Gone; decide, (Doc.readable_iff hbs).2 ?_⟩
  exact Doc.Writable.limits (by decide) hbs

/-- **A document survives being stored.** The update that a room stores for its document, applied to
an empty document and followed by whatever else is in the log, gives a document that contains it. -/
theorem stored_document_kept {bs : List Bytes} (hbs : ∀ b ∈ bs, b.length ≤ maxSafeInteger)
    (hw : (Doc.replay bs).Writable) : ∃ b,
      (Doc.replay bs).encodeStateAsUpdate SortedMap.empty = .ok b ∧
      ∀ more, (Doc.replay (b :: more)).Contains (Doc.replay bs) := by
  obtain ⟨b, u, henc, hdec, hc⟩ := Doc.snapshot_contains (Doc.replay_regular bs)
    (Doc.replay_legible hbs).1 (Doc.replay_founded hbs) hw
  refine ⟨b, henc, fun more => ?_⟩
  rw [← Doc.receive_ok hdec] at hc
  exact ((Doc.replay_regular [b]).foldl_receive more).2.trans hc

theorem stored_document_kept_struck : ∃ b,
    (Doc.replay [Sample.struck]).encodeStateAsUpdate SortedMap.empty = .ok b ∧
      ∀ more, (Doc.replay (b :: more)).Contains (Doc.replay [Sample.struck]) :=
  stored_document_kept (by decide) (by decide)

/-- Two ranges that are accepted become one that is refused. -/
theorem touching_unreadable : (decodeUpdate Sample.touching).isOk = true ∧
    (Doc.replay [Sample.touching]).encodeStateAsUpdate SortedMap.empty =
      .ok [0, 1, 1, 1, 0, 129, 128, 128, 128, 8] ∧
    (decodeUpdate [0, 1, 1, 1, 0, 129, 128, 128, 128, 8]).isOk = false := by
  decide +kernel

end YCollab.Crdt
