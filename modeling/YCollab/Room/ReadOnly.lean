import YCollab.Room.Conns

/-!
# Connections that may not write

A connection without write access is refused when it sends an update (`Handler.update`). This
module compares a run of the room with the run in which such a frame is not sent at all: the
connection just leaves, or nothing happens if the update was empty (`withoutReadOnlyWrites`).
The refusal makes one call of `Send` that the other run does not make, so the other run's results
start with the second one. The rooms are the same after every turn (`run_withoutReadOnlyWrites`),
hence so are the document, the log and what is published (`readOnly_no_influence`).

The proof needs only that what the room becomes does not depend on what it has already said to
its connections: two handlers that agree in the room and in the results to come (`Twin`) still
agree after a departure (`leave_twin`).
-/

namespace YCollab.Room

open Lib0 Crdt Protocol

namespace Handler

variable {cfg : Config} {now : ℤ} {h h' : Handler}

/-- The two handlers have the same room and will see the same results of `Send`. -/
structure Twin (h h' : Handler) : Prop where
  room : h.room = h'.room
  outcomes : h.outcomes = h'.outcomes

namespace Twin

theorem sendEach (ht : Twin h h') (frame : Bytes) (l : List Conn) :
    Twin (sendEach frame h l).1 (sendEach frame h' l).1 ∧
      (Handler.sendEach frame h l).2 = (Handler.sendEach frame h' l).2 := by
  induction l generalizing h h' with
  | nil => exact ⟨ht, rfl⟩
  | cons c l ih =>
    have hsend : Twin (h.send c frame).1 (h'.send c frame).1 :=
      ⟨ht.room, by simp only [send, ht.outcomes]⟩
    have hok : (h.send c frame).2 = (h'.send c frame).2 := by simp only [send, ht.outcomes]
    obtain ⟨htwin, hslow⟩ := ih hsend
    refine ⟨htwin, ?_⟩
    rw [sendEach_cons, sendEach_cons, hslow, hok]

theorem foldl_drop {leave : Handler → Conn → Handler} {code : ℕ} {reason : Bytes}
    (hleave : ∀ h h' c, Twin h h' → Twin (leave h c) (leave h' c)) (slow : List Conn)
    (ht : Twin h h') :
    Twin (slow.foldl (fun h c => (leave h c).close c code reason) h)
      (slow.foldl (fun h c => (leave h c).close c code reason) h') := by
  induction slow generalizing h h' with
  | nil => exact ht
  | cons c slow ih =>
    rw [List.foldl_cons, List.foldl_cons]
    have hc := hleave h h' c ht
    exact ih ⟨hc.room, hc.outcomes⟩

theorem broadcastWith {leave : Handler → Conn → Handler} (ht : Twin h h')
    (hleave : ∀ h h' c, Twin h h' → Twin (leave h c) (leave h' c)) (frame : Bytes)
    (except : Option Conn) :
    Twin (h.broadcastWith leave frame except) (h'.broadcastWith leave frame except) := by
  have hothers : h.others except = h'.others except := by rw [others, others, ht.room]
  obtain ⟨htwin, hslow⟩ := ht.sendEach frame (h'.others except)
  unfold Handler.broadcastWith
  rw [hothers]
  simp only [hslow]
  exact foldl_drop hleave _ htwin

theorem publish (ht : Twin h h') (kind : Kind) (payload : Bytes) :
    Twin (h.publish cfg kind payload) (h'.publish cfg kind payload) := by
  unfold Handler.publish
  split
  · exact ⟨by simp only [ht.room], ht.outcomes⟩
  · exact ht

theorem retract {leave : Handler → Conn → Handler} (ht : Twin h h')
    (hleave : ∀ h h' c, Twin h h' → Twin (leave h c) (leave h' c)) (clients : List ℕ) :
    Twin (h.retract cfg now leave clients) (h'.retract cfg now leave clients) := by
  unfold Handler.retract
  rw [ht.room]
  split
  next aw payload _ =>
    have haw : Twin { h with room := { h'.room with aw } } { h' with room := { h'.room with aw } } :=
      ⟨rfl, ht.outcomes⟩
    exact (haw.broadcastWith hleave _ _).publish _ _
  next => exact ⟨rfl, ht.outcomes⟩

theorem leaveLoop (ht : Twin h h') (n : ℕ) (conn : Conn) :
    Twin (leaveLoop cfg now n h conn) (leaveLoop cfg now n h' conn) := by
  induction n generalizing h h' conn with
  | zero => exact ht
  | succ n ih =>
    have hforget : Twin (h.forgetConn now conn) (h'.forgetConn now conn) :=
      ⟨by simp only [forgetConn, ht.room], ht.outcomes⟩
    unfold Handler.leaveLoop
    rw [ht.room]
    split
    · exact ht
    · exact hforget
    · exact hforget.retract (fun h h' c ht => ih ht c) _

end Twin

theorem leave_twin (ht : Twin h h') (conn : Conn) :
    Twin (h.leave cfg now conn) (h'.leave cfg now conn) := by
  unfold leave
  rw [ht.room]
  exact ht.leaveLoop _ conn

end Handler

open Handler

variable {cfg : Config}

/-- The document update in a frame, if it carries one. -/
def updateOf (frame : Bytes) : Option Bytes :=
  match decode frame with
  | .ok (.syncStep2 update) => some update
  | .ok (.update update) => some update
  | _ => none

/-- The turn with an update frame of a read-only connection replaced: by nothing if the update is
empty, by the departure of the connection otherwise. -/
def withoutReadOnlyWrites (i : Input) : Option Input :=
  match i.event with
  | .command (.frame conn frame) =>
    match updateOf frame with
    | some update =>
      if conn.canWrite then some i
      else if isEmptyUpdate update then none
      else some { i with event := .command (.leave conn), outcomes := i.outcomes.tail }
    | none => some i
  | _ => some i

theorem frame_of_updateOf {h : Handler} {now : ℤ} {conn : Conn} {frame update : Bytes}
    (hf : updateOf frame = some update) :
    h.frame cfg now conn frame =
      if (h.room.clientsOf conn).isSome then h.update cfg now conn update else h := by
  unfold updateOf at hf
  unfold Handler.frame
  cases hc : h.room.clientsOf conn with
  | none => rfl
  | some clients =>
    split at hf
    next heq => cases hf; rw [heq]; rfl
    next heq => cases hf; rw [heq]; rfl
    next => cases hf

theorem refused_room {r : Room} {now : ℤ} {outcomes : List Bool} {conn : Conn} {update : Bytes}
    (hro : conn.canWrite = false) (hne : isEmptyUpdate update = false) :
    (({ room := r, outcomes := outcomes } : Handler).update cfg now conn update).room =
      (({ room := r, outcomes := outcomes.tail } : Handler).leave cfg now conn).room := by
  have htwin : Twin (({ room := r, outcomes := outcomes } : Handler).send conn
      (writePermissionDenied (text "read-only: this token does not grant write access"))).1
      { room := r, outcomes := outcomes.tail } := ⟨rfl, rfl⟩
  rw [Handler.update, if_pos hro, hne]
  exact (leave_twin htwin conn).room

/-- One turn: what replaces a frame makes the same room. -/
theorem turn_withoutReadOnlyWrites (r : Room) (i : Input) :
    (withoutReadOnlyWrites i).elim r (fun i' => (r.turn cfg i').room) = (r.turn cfg i).room := by
  unfold withoutReadOnlyWrites
  split
  next conn frame hev =>
    split
    next update hf =>
      have hturn : r.turn cfg i =
          ({ room := r, outcomes := i.outcomes } : Handler).frame cfg i.now conn frame := by
        simp only [turn, hev, handle]
      rw [hturn, frame_of_updateOf hf]
      by_cases hw : conn.canWrite = true
      · rw [if_pos hw, ← frame_of_updateOf hf, ← hturn]
        rfl
      · have hro : conn.canWrite = false := by simpa using hw
        rw [if_neg hw]
        cases hempty : isEmptyUpdate update with
        | true =>
          rw [Handler.update, if_pos hro, hempty, if_pos rfl, if_pos rfl, ite_self]
          rfl
        | false =>
          show (({ room := r, outcomes := i.outcomes.tail } : Handler).leave cfg i.now conn).room = _
          split
          · exact (refused_room hro hempty).symm
          next hc =>
            have hnone : r.clientsOf conn = none := by simpa using hc
            rw [leave_eq, hnone]
    next => rfl
  next => rfl

/-- **The two runs have the same room**, whatever was sent. -/
theorem run_withoutReadOnlyWrites (r : Room) (inputs : List Input) :
    r.run cfg inputs = r.run cfg (inputs.filterMap withoutReadOnlyWrites) := by
  induction inputs generalizing r with
  | nil => rfl
  | cons i inputs ih =>
    have hrun : ∀ (r : Room) i l,
        r.run cfg (i :: l) = (if r.stopped then r else (r.turn cfg i).room).run cfg l :=
      fun _ _ _ => rfl
    rw [hrun, ih, ← turn_withoutReadOnlyWrites]
    cases hcut : withoutReadOnlyWrites i with
    | none => rw [List.filterMap_cons_none hcut, Option.elim_none, ite_self]
    | some i' => rw [List.filterMap_cons_some hcut, hrun, Option.elim_some]

/-- **Read-only connections have no influence.** A run of the room and the run without their
updates have, after every number of turns, the same document, the same updates handed to the
writer and the same updates published. -/
theorem readOnly_no_influence (r : Room) (inputs : List Input) (n : ℕ) :
    let r₁ := r.run cfg (inputs.take n)
    let r₂ := r.run cfg ((inputs.take n).filterMap withoutReadOnlyWrites)
    r₁.doc = r₂.doc ∧ r₁.recorded = r₂.recorded ∧
      r₁.published.filter (·.kind = .update) = r₂.published.filter (·.kind = .update) := by
  intro r₁ r₂
  have hsame : r₁ = r₂ := run_withoutReadOnlyWrites r _
  rw [hsame]
  exact ⟨rfl, rfl, rfl⟩

end YCollab.Room
