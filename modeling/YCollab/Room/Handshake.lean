import YCollab.Crdt.Diff
import YCollab.Crdt.Reached
import YCollab.Room.ReadOnly

/-!
# The handshake of a client that may not write

A client opens with its state vector. The room answers with what the client is missing and with
its own state vector, and the client answers that with what the room is missing (`Handshake`). A
client that holds nothing beyond the room's state has no struct to send, but every difference a
document encodes carries *all* the deletions it knows of (`Doc.deleteSetForUpdate`). The room takes
the answer of a read-only client for an attempt to write unless it is the empty update, so it keeps
exactly those clients that hold nothing the room lacked and know of no deletion
(`readOnly_answer_kept_iff`).
-/

namespace YCollab.Crdt.Doc

variable {d : Doc}

/-- No clock is known to be deleted, whether it has been received or not. -/
def Intact (d : Doc) : Prop := ∀ x, ¬d.Gone x ∧ ¬d.pendingDeletes.Names x

theorem deleteSetForUpdate_eq_empty_iff : d.deleteSetForUpdate = SortedMap.empty ↔ d.Intact := by
  obtain ⟨hbuilt, hnames⟩ := deleteSetForUpdate_spec d
  constructor
  · intro h x
    have hx := hnames x
    rw [h] at hx
    exact not_or.1 fun hor => DeleteSet.names_empty (hx.2 hor)
  · intro h
    refine hbuilt.ext .empty fun x => ?_
    rw [hnames]
    exact iff_of_false (not_or.2 (h x)) DeleteSet.names_empty

end YCollab.Crdt.Doc

namespace YCollab.Room

open Lib0 Crdt Protocol Handler

variable {cfg : Config} {now : ℤ} {conn : Conn}

/-! ### Empty updates -/

theorem isEmptyUpdate_encode_iff {ds : DeleteSet} {b : Bytes}
    (h : (⟨[], ds⟩ : Update).encode = .ok b) : isEmptyUpdate b = true ↔ ds = SortedMap.empty := by
  constructor
  · intro hempty
    have hprinted : (⟨[], ds⟩ : Update).Printed :=
      ⟨Nat.zero_le _, nofun, Update.printed_of_encode h⟩
    rw [Update.encode_eq hprinted] at h
    have hb : b = 0 :: DeleteSet.enc ds := (Except.ok.inj h).symm
    simp only [isEmptyUpdate, hb, reduceCtorEq, decide_false, Bool.false_or,
      decide_eq_true_eq] at hempty
    have hzero := varUint_eq_zero_cons (List.cons.inj hempty).2
    exact SortedMap.ext_find fun k => by
      rw [SortedMap.find?, List.length_eq_zero_iff.1 hzero]
      rfl
  · rintro rfl
    cases h
    rfl

theorem not_isEmptyUpdate_of_blocks {u : Update} {b : Bytes} (h : u.encode = .ok b)
    (hne : u.clients ≠ []) : isEmptyUpdate b ≠ true := by
  intro hempty
  obtain ⟨rest, hb⟩ := Update.blocks_of_encode h
  simp only [isEmptyUpdate, Bool.or_eq_true, decide_eq_true_eq] at hempty
  rcases hempty with hnil | rfl
  · have hpos := varUint_length_pos u.clients.length
    rw [← hb, List.length_append] at hnil
    omega
  · exact hne (List.length_eq_zero_iff.1 (varUint_eq_zero_cons hb))

/-! ### The handshake -/

/-- A handshake of the client behind `conn` with the room `r`, from the client's state vector to
its answer. -/
structure Handshake (cfg : Config) (r : Room) (conn : Conn) where
  /-- What the client's document has received when it opens, its own edits included. -/
  received : List Bytes
  /-- The state vector the client opens with. -/
  sv : Bytes
  asked : (Doc.replay received).encodeStateVector = .ok sv
  /-- When the room handles the client's step 1, and how its calls of `Send` turn out. -/
  now : ℤ
  outcomes : List Bool
  /-- The two frames the client is sent, and what is in them. -/
  step2 : Bytes
  step1 : Bytes
  rest : List (Conn × Bytes × Bool)
  sent : (r.turn cfg ⟨.command (.frame conn (writeSyncStep1 sv)), now, outcomes⟩).sends =
    (conn, step2, true) :: (conn, step1, true) :: rest
  connected : ((r.turn cfg
    ⟨.command (.frame conn (writeSyncStep1 sv)), now, outcomes⟩).room.clientsOf conn).isSome
  diff : Bytes
  ours : Bytes
  difference : decode step2 = .ok (.syncStep2 diff)
  stateVector : decode step1 = .ok (.syncStep1 ours)
  /-- The client's document once it has applied the difference. -/
  after : Doc
  applied : (Doc.replay received).applyUpdate diff = .ok after
  /-- What the client answers. -/
  answer : Bytes
  answered : after.encodeDiff ours = .ok answer

theorem drop_gone {h : Handler} {code : ℕ} {reason : Bytes} :
    (h.drop cfg now conn code reason).room.clientsOf conn = none := clientsOf_leave conn

theorem deliver_of_send {h : Handler} {frame : Bytes} (hok : (h.send conn frame).2 = true) :
    h.deliver cfg now conn frame = ((h.send conn frame).1, true) := by
  simp [deliver, hok]

theorem deliver_of_full {h : Handler} {frame : Bytes} (hok : (h.send conn frame).2 = false) :
    h.deliver cfg now conn frame = ((h.send conn frame).1.drop cfg now conn closePolicyViolation
      (text "outbound buffer full"), false) := by
  simp [deliver, hok]

theorem sends_of_send {h : Handler} {frame : Bytes} (hok : (h.send conn frame).2 = true) :
    (h.send conn frame).1.sends = h.sends ++ [(conn, frame, true)] := by
  rw [← hok]
  rfl

theorem sendAll_of_connected {h : Handler}
    (hc : ((h.sendAll cfg now conn).room.clientsOf conn).isSome) :
    ∃ rest, (h.sendAll cfg now conn).sends = h.sends ++ rest := by
  unfold sendAll at hc ⊢
  split at hc
  next payload _ =>
    cases hok : (h.send conn (writeAwareness payload)).2 with
    | false =>
      rw [deliver_of_full hok, drop_gone] at hc
      cases hc
    | true =>
      rw [deliver_of_send hok]
      exact ⟨_, sends_of_send hok⟩
  next => exact ⟨[], (List.append_nil _).symm⟩

/-- What a client that stays connected is sent in answer to its state vector. -/
theorem syncStep1_of_connected {h : Handler} {sv : Bytes}
    (hc : ((h.syncStep1 cfg now conn sv).room.clientsOf conn).isSome) :
    ∃ diff, h.room.doc.encodeDiff sv = .ok diff ∧
      ((∃ x, h.room.doc.encodeStateVector = .error x) ∧
          (h.syncStep1 cfg now conn sv).sends = h.sends ++ [(conn, writeSyncStep2 diff, true)] ∨
        ∃ ours rest, h.room.doc.encodeStateVector = .ok ours ∧
          (h.syncStep1 cfg now conn sv).sends = h.sends ++ (conn, writeSyncStep2 diff, true) ::
            (conn, writeSyncStep1 ours, true) :: rest) := by
  unfold syncStep1 at hc ⊢
  cases hdiff : h.room.doc.encodeDiff sv with
  | error x =>
    simp only [hdiff] at hc
    rw [drop_gone] at hc
    cases hc
  | ok diff =>
    refine ⟨diff, rfl, ?_⟩
    simp only [hdiff] at hc ⊢
    cases hok₂ : (h.send conn (writeSyncStep2 diff)).2 with
    | false =>
      rw [deliver_of_full hok₂] at hc
      rw [drop_gone] at hc
      cases hc
    | true =>
      rw [deliver_of_send hok₂] at hc ⊢
      simp only [send_room] at hc ⊢
      cases hsv : h.room.doc.encodeStateVector with
      | error x => exact .inl ⟨⟨x, rfl⟩, sends_of_send hok₂⟩
      | ok ours =>
        refine .inr ⟨ours, ?_⟩
        simp only [hsv] at hc ⊢
        cases hok₁ : ((h.send conn (writeSyncStep2 diff)).1.send conn (writeSyncStep1 ours)).2 with
        | false =>
          rw [deliver_of_full hok₁, drop_gone] at hc
          cases hc
        | true =>
          have hboth := sends_of_send hok₁
          rw [sends_of_send hok₂, List.append_assoc, List.singleton_append] at hboth
          rw [deliver_of_send hok₁] at hc ⊢
          simp only at hc ⊢
          split at hc
          · obtain ⟨rest, hrest⟩ := sendAll_of_connected hc
            refine ⟨rest, trivial, ?_⟩
            rw [if_pos ‹_›, hrest, hboth, List.append_assoc]
            rfl
          · refine ⟨[], trivial, ?_⟩
            rw [if_neg ‹_›, hboth]

theorem frame_of_connected {h : Handler} {sub : ℕ} {payload : Bytes} (hsub : sub ≤ maxSafeInteger)
    (hc : ((h.frame cfg now conn (writeSync sub payload)).room.clientsOf conn).isSome) :
    (h.room.clientsOf conn).isSome ∧
      ∃ m, syncMessage sub payload = .ok m ∧ decode (writeSync sub payload) = .ok m := by
  unfold frame at hc
  cases hin : h.room.clientsOf conn with
  | none =>
    simp only [hin] at hc
    cases hc
  | some clients =>
    refine ⟨rfl, ?_⟩
    cases hdec : decode (writeSync sub payload) with
    | error x =>
      simp only [hin, hdec] at hc
      rw [drop_gone] at hc
      cases hc
    | ok m => exact ⟨m, syncMessage_of_decode hsub hdec, rfl⟩

namespace Handshake

variable {r : Room} (hs : Handshake cfg r conn)

/-- The state vector the client is sent is the room's. -/
theorem encodeStateVector_eq : r.doc.encodeStateVector = .ok hs.ours := by
  have hconn := hs.connected
  have hsent := hs.sent
  change ((({ room := r, outcomes := hs.outcomes } : Handler).frame cfg hs.now conn
    (writeSync 0 hs.sv)).room.clientsOf conn).isSome at hconn
  change (({ room := r, outcomes := hs.outcomes } : Handler).frame cfg hs.now conn
    (writeSync 0 hs.sv)).sends = _ at hsent
  obtain ⟨hin, m, hm, hdec⟩ := frame_of_connected (Nat.zero_le _) hconn
  cases hm
  obtain ⟨clients, hin⟩ := Option.isSome_iff_exists.1 hin
  have hframe : ({ room := r, outcomes := hs.outcomes } : Handler).frame cfg hs.now conn
      (writeSync 0 hs.sv) =
      ({ room := r, outcomes := hs.outcomes } : Handler).syncStep1 cfg hs.now conn hs.sv := by
    simp only [frame, hin, hdec]
  rw [hframe] at hconn hsent
  obtain ⟨diff, -, ⟨-, hsends⟩ | ⟨ours, rest, hours, hsends⟩⟩ := syncStep1_of_connected hconn
  · rw [hsent] at hsends
    simp at hsends
  · rw [hsent] at hsends
    have hstep1 : hs.step1 = writeSync 0 ours := by
      simp only [List.nil_append, List.cons.injEq, Prod.mk.injEq, true_and] at hsends
      exact hsends.2.1.1
    have hmsg := hs.stateVector
    rw [hstep1] at hmsg
    cases syncMessage_of_decode (Nat.zero_le _) hmsg
    exact hours

theorem after_gapless : hs.after.store.Gapless := by
  have hafter : (Doc.replay hs.received).receive hs.diff = hs.after := by
    rw [Doc.receive, hs.applied]
  exact hafter ▸ ((Doc.replay_regular hs.received).receive hs.diff).gapless

/-- The answer of a client is empty if it holds nothing that the room lacks and knows of no
deletion. -/
theorem answer_empty_iff : isEmptyUpdate hs.answer = true ↔
    (∀ c, hs.after.state c ≤ r.doc.state c) ∧ hs.after.Intact := by
  have hans := hs.answered
  by_cases hle : ∀ c, hs.after.state c ≤ r.doc.state c
  · rw [Doc.encodeDiff_of_le hs.encodeStateVector_eq hle] at hans
    rw [isEmptyUpdate_encode_iff hans, Doc.deleteSetForUpdate_eq_empty_iff, and_iff_right hle]
  · refine iff_of_false ?_ fun h => hle h.1
    obtain ⟨c, hlt⟩ := not_forall.1 hle
    rw [Doc.encodeDiff_eq hs.encodeStateVector_eq] at hans
    have hahead : r.doc.stateVector.get c < hs.after.state c := by
      rw [Doc.stateVector_get]
      exact Nat.not_le.1 hlt
    exact not_isEmptyUpdate_of_blocks hans (Doc.stateAsUpdate_ne_nil hs.after_gapless hahead)

end Handshake

/-- **A read-only client is kept exactly when it holds nothing that the room lacked and knows of no
deletion.** The client has synchronised with the room `r`; `r'` is the room, with more updates or
the same, when the client's answer is handled. -/
theorem readOnly_answer_kept_iff {r r' : Room} (hs : Handshake cfg r conn)
    (hro : conn.canWrite = false) (hin : (r'.clientsOf conn).isSome) (now : ℤ)
    (outcomes : List Bool) :
    let h := r'.turn cfg ⟨.command (.frame conn (writeSyncStep2 hs.answer)), now, outcomes⟩
    ((h.room.clientsOf conn).isSome ∧ h.closes = []) ↔
      (∀ c, hs.after.state c ≤ r.doc.state c) ∧ hs.after.Intact := by
  intro h
  have hturn : h = ({ room := r', outcomes := outcomes } : Handler).frame cfg now conn
      (writeSync 1 hs.answer) := rfl
  rw [← hs.answer_empty_iff]
  obtain ⟨clients, hin⟩ := Option.isSome_iff_exists.1 hin
  constructor
  · rintro ⟨hconn, -⟩
    rw [hturn] at hconn
    obtain ⟨-, m, hm, hdec⟩ := frame_of_connected (by decide) hconn
    cases hm
    by_contra hne
    have hne : isEmptyUpdate hs.answer = false := by simpa using hne
    have hdrop : (({ room := r', outcomes := outcomes } : Handler).frame cfg now conn
        (writeSync 1 hs.answer)).room.clientsOf conn = none := by
      simp only [frame, hin, hdec, update, hro, hne, if_true, Bool.false_eq_true, if_false]
      exact drop_gone
    rw [hdrop] at hconn
    cases hconn
  · intro hempty
    have hshort : hs.answer.length ≤ maxSafeInteger := by
      simp only [isEmptyUpdate, Bool.or_eq_true, decide_eq_true_eq] at hempty
      rcases hempty with hnil | htwo
      · rw [hnil]; exact Nat.zero_le _
      · rw [htwo]; decide
    have hdec : decode (writeSync 1 hs.answer) = .ok (.syncStep2 hs.answer) :=
      decode_writeSyncStep2 hshort
    have hsame : h = { room := r', outcomes := outcomes } := by
      rw [hturn]
      simp only [frame, hin, hdec, update, hro, hempty, if_true]
    rw [hsame]
    exact ⟨by simp [hin], rfl⟩

namespace Sample

/-- Somebody who may write. -/
def writer : Conn := ⟨1, true⟩

/-- Somebody who may not. -/
def reader : Conn := ⟨2, false⟩

/-- A room in which `writer` has sent updates and `reader` has joined. -/
def served (updates : List Bytes) : Room :=
  (Room.new {} 0).run {} ({ event := .command (.join writer) } ::
    updates.map (fun u => { event := .command (.frame writer (writeUpdate u)) }) ++
    [{ event := .command (.join reader) }])

/-- The handshake of `reader` with an empty document. -/
def fresh (r : Room) (diff ours answer : Bytes)
    (hsent : (r.turn {} ⟨.command (.frame reader (writeSyncStep1 [0])), 0, []⟩).sends =
      [(reader, writeSyncStep2 diff, true), (reader, writeSyncStep1 ours, true)])
    (hconn : ((r.turn {} ⟨.command (.frame reader (writeSyncStep1 [0])), 0, []⟩).room.clientsOf
      reader).isSome)
    (hlen : diff.length ≤ maxSafeInteger ∧ ours.length ≤ maxSafeInteger)
    (happ : (Doc.empty.applyUpdate diff).toBool)
    (hans : (Doc.empty.receive diff).encodeDiff ours = .ok answer) :
    Handshake {} r reader where
  received := []
  sv := [0]
  asked := rfl
  now := 0
  outcomes := []
  step2 := writeSyncStep2 diff
  step1 := writeSyncStep1 ours
  rest := []
  sent := hsent
  connected := hconn
  diff := diff
  ours := ours
  difference := decode_writeSyncStep2 hlen.1
  stateVector := decode_writeSyncStep1 hlen.2
  after := Doc.empty.receive diff
  applied := by
    unfold Doc.receive
    change Doc.empty.applyUpdate diff = _
    cases h : Doc.empty.applyUpdate diff with
    | ok d => rfl
    | error x => rw [h] at happ; cases happ
  answer := answer
  answered := hans

/-- The text `ab` of client 1. -/
def letters : Bytes := [1, 1, 1, 0, 4, 1, 1, 116, 2, 97, 98, 0]

/-- The deletion of its first letter. -/
def deletion : Bytes := [0, 1, 1, 1, 0, 1]

end Sample

open Sample

/-- A reader of a document nothing was ever deleted from is kept. -/
theorem reader_kept : ∃ hs : Handshake {} (served [letters]) reader, hs.received = [] ∧
    (∀ c, hs.after.state c ≤ (served [letters]).doc.state c) ∧ hs.after.Intact ∧
    let h := (served [letters]).turn {} ⟨.command (.frame reader (writeSyncStep2 hs.answer)), 0, []⟩
    (h.room.clientsOf reader).isSome ∧ h.closes = [] := by
  refine ⟨fresh _ letters [1, 1, 2] [0, 0] (by decide) (by decide) (by decide) (by decide)
    (by decide), rfl, ?_⟩
  have hle : ∀ c, (Doc.empty.receive letters).state c ≤ (served [letters]).doc.state c := by
    have hsv : (Doc.empty.receive letters).stateVector.entries =
        (served [letters]).doc.stateVector.entries := by decide
    intro c
    rw [← Doc.stateVector_get, ← Doc.stateVector_get, StateVector.get, StateVector.get,
      SortedMap.find?, SortedMap.find?, hsv]
  have hintact : (Doc.empty.receive letters).Intact := by
    rw [← Doc.deleteSetForUpdate_eq_empty_iff]
    have hnil : (Doc.empty.receive letters).deleteSetForUpdate.entries = [] := by decide
    exact SortedMap.ext_find fun k => by rw [SortedMap.find?, hnil]; rfl
  exact ⟨hle, hintact, (readOnly_answer_kept_iff _ rfl (by decide) 0 []).2 ⟨hle, hintact⟩⟩

/-- **A read-only client of a document with one deletion is refused** for answering as the
protocol asks. -/
theorem reader_refused : ∃ hs : Handshake {} (served [letters, deletion]) reader,
    hs.received = [] ∧
    let h := (served [letters, deletion]).turn {}
      ⟨.command (.frame reader (writeSyncStep2 hs.answer)), 0, []⟩
    h.room.clientsOf reader = none ∧
      h.closes = [(reader, closePolicyViolation, text "read-only")] :=
  ⟨fresh _ [1, 2, 1, 0, 4, 1, 1, 116, 1, 97, 132, 1, 0, 1, 98, 1, 1, 1, 0, 1] [1, 1, 2]
    [0, 1, 1, 1, 0, 1] (by decide) (by decide) (by decide) (by decide) (by decide),
    rfl, by decide, rfl⟩

end YCollab.Room
