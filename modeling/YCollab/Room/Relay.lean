import YCollab.Room.Turns

/-!
# What a room sends

What a room does to its connections sends cursors and refusals, which no document listens to
(`Quiet`, `Hushed`). Only two frames make it send anything else: an update of a connection that may
write is relayed to everybody else as it came, and a state vector is answered with what its sender
is missing and with the room's own (`Relays`, `frame_relays`). This is for a room none of whose
sends fails.
-/

namespace YCollab.Protocol

open Lib0

/-- The message is about the document. -/
def Message.isSync : Message → Bool
  | syncStep1 _ => true
  | syncStep2 _ => true
  | update _ => true
  | _ => false

/-- The frame does not hold a message about the document. -/
def Quiet (frame : Bytes) : Prop := ∀ m, decode frame = .ok m → m.isSync = false

/-- What is not a sync message by its first byte is quiet. -/
theorem quiet_of_type (typ : ℕ) {frame rest : Bytes} (htyp : typ ≤ maxSafeInteger) (h0 : typ ≠ 0)
    (hf : frame = Encoder.varUint typ ++ rest) : Quiet frame := by
  intro m hm
  rw [decode, hf, reading_of_reads (readVarUint_reads htyp)] at hm
  simp only [bind, Except.bind] at hm
  unfold decodeTyped decodeAuth at hm
  split at hm
  · cases hm
  next p hp =>
    have hm : p.1 = m := by
      split at hm
      · exact Except.ok.inj hm
      · cases hm
    rw [← hm]
    split at hp
    · exact absurd rfl h0
    · simp only [bind, Except.bind] at hp
      split at hp
      · cases hp
      · rw [← Except.ok.inj hp]
        rfl
    · simp only [bind, Except.bind] at hp
      split at hp
      · cases hp
      · split at hp
        · cases hp
        · split at hp
          · cases hp
          · rw [← Except.ok.inj hp]
            rfl
    · rw [← Except.ok.inj hp]
      rfl
    · cases hp

theorem quiet_writeAwareness (payload : Bytes) : Quiet (writeAwareness payload) := by
  obtain ⟨rest, hrest⟩ := (writeVarUint8Array_appends payload).grows
    (({} : Encoder).writeVarUint 1)
  exact quiet_of_type 1 (by decide) (by decide) hrest.symm

theorem quiet_writePermissionDenied (reason : Bytes) : Quiet (writePermissionDenied reason) := by
  obtain ⟨rest, hrest⟩ := ((writeVarUint_appends 0).comp
    (writeVarUint8Array_appends reason)).grows (({} : Encoder).writeVarUint 2)
  exact quiet_of_type 2 (by decide) (by decide) hrest.symm

end YCollab.Protocol

namespace YCollab.Room.Handler

open Lib0 Crdt Protocol

variable {cfg : Config} {now : ℤ} {h h' h'' : Handler} {conn : Conn} {frame : Bytes}

/-- `h'` follows from `h` by sends of quiet frames. -/
structure Hushed (h h' : Handler) : Prop where
  outcomes : h.outcomes = [] → h'.outcomes = []
  sends : ∃ l, h'.sends = h.sends ++ l ∧ ∀ s ∈ l, Quiet s.2.1

namespace Hushed

theorem of_eq (ho : h'.outcomes = h.outcomes) (hs : h'.sends = h.sends) : Hushed h h' :=
  ⟨fun he => ho.trans he, [], by rw [hs, List.append_nil], by simp⟩

theorem refl (h : Handler) : Hushed h h := of_eq rfl rfl

theorem trans (h₁ : Hushed h h') (h₂ : Hushed h' h'') : Hushed h h'' := by
  obtain ⟨l₁, hl₁, hq₁⟩ := h₁.sends
  obtain ⟨l₂, hl₂, hq₂⟩ := h₂.sends
  refine ⟨fun he => h₂.outcomes (h₁.outcomes he), l₁ ++ l₂, ?_, fun s hs => ?_⟩
  · rw [hl₂, hl₁, List.append_assoc]
  · exact (List.mem_append.1 hs).elim (hq₁ s) (hq₂ s)

end Hushed

theorem send_hushed (hq : Quiet frame) (conn : Conn) : Hushed h (h.send conn frame).1 := by
  refine ⟨fun he => ?_, _, rfl, fun s hs => ?_⟩
  · simp [send, he]
  · rw [List.mem_singleton.1 hs]
    exact hq

theorem publish_hushed (kind : Kind) (payload : Bytes) : Hushed h (h.publish cfg kind payload) := by
  unfold publish
  split <;> exact .of_eq rfl rfl

theorem departed_hushed (conn : Conn) (clients : List ℕ) : Hushed h (h.departed now conn clients) :=
  .of_eq rfl rfl

theorem hushed_traffic : Traffic cfg now Quiet Hushed where
  refl := .refl
  trans := .trans
  send _ conn _ hq := send_hushed hq conn
  close _ _ _ _ := .of_eq rfl rfl
  cursors := quiet_writeAwareness
  depart _ := departed_hushed ..
  publish payload _ hd := ((departed_hushed ..).trans hd).trans (publish_hushed .awareness payload)

theorem leave_hushed (conn : Conn) : Hushed h (h.leave cfg now conn) := hushed_traffic.leave conn h

theorem drop_hushed (conn : Conn) (code : ℕ) (reason : Bytes) :
    Hushed h (h.drop cfg now conn code reason) := hushed_traffic.drop conn code reason h

theorem broadcast_hushed (hq : Quiet frame) (except : Option Conn) :
    Hushed h (h.broadcast cfg now frame except) := hushed_traffic.broadcast hq except h

theorem sendAll_hushed (conn : Conn) : Hushed h (h.sendAll cfg now conn) :=
  hushed_traffic.sendAll conn h

theorem awareness_hushed (payload : Bytes) : Hushed h (h.awareness cfg now conn payload) := by
  unfold awareness
  split
  next aw _ err _ =>
    have haw : Hushed h { h with room := { h.room with aw } } := .of_eq rfl rfl
    simp only
    split
    · exact (haw.trans (send_hushed (quiet_writePermissionDenied _) conn)).trans (drop_hushed ..)
    · exact haw.trans (drop_hushed ..)
  next => exact .of_eq rfl rfl
  next aw changed _ _ =>
    simp only
    split
    · exact .of_eq rfl rfl
    · refine .trans ?_ (publish_hushed _ _)
      refine .trans ?_ (broadcast_hushed (quiet_writeAwareness _) _)
      exact .of_eq rfl rfl

/-! ### A room none of whose sends fails -/

theorem sendEach_of_calm (ho : h.outcomes = []) (frame : Bytes) (l : List Conn) :
    sendEach frame h l =
      ({ h with sends := h.sends ++ l.map fun c => (c, frame, true) }, []) := by
  induction l generalizing h with
  | nil => simp [sendEach]
  | cons c l ih =>
    have hsend : h.send c frame = ({ h with sends := h.sends ++ [(c, frame, true)] }, true) := by
      simp [send, ho]
    have hrest := ih (h := { h with sends := h.sends ++ [(c, frame, true)] }) ho
    rw [sendEach_cons, hsend]
    simp only [hrest, if_true, List.append_assoc, List.map_cons, List.singleton_append]

theorem broadcast_of_calm (ho : h.outcomes = []) (frame : Bytes) (except : Option Conn) :
    h.broadcast cfg now frame except =
      { h with sends := h.sends ++ (h.others except).map fun c => (c, frame, true) } := by
  unfold broadcast broadcastWith
  rw [sendEach_of_calm ho]
  rfl

theorem deliver_of_calm (ho : h.outcomes = []) (conn : Conn) (frame : Bytes) :
    h.deliver cfg now conn frame =
      ({ h with sends := h.sends ++ [(conn, frame, true)] }, true) := by
  simp [deliver, send, ho]

/-- What the frame of a connection makes a room send, and what it does to the document. -/
inductive Relays (r : Room) (conn : Conn) (frame : Bytes) (h : Handler) : Prop
  /-- The document stays as it is, and nobody is told anything about it; the sender of a state
  vector that could not be answered is not connected. -/
  | quiet : h.room.doc = r.doc → (∀ s ∈ h.sends, Quiet s.2.1) →
      (∀ sv, decode frame = .ok (.syncStep1 sv) → h.room.clientsOf conn = none) →
      Relays r conn frame h
  /-- An update is applied and relayed to everybody else. -/
  | update {update : Bytes} : decode frame = .ok (.syncStep2 update) ∨
      decode frame = .ok (.update update) → r.doc.applyUpdate update = .ok h.room.doc →
      h.sends = (Handler.others { room := r } (some conn)).map
        (fun c => (c, writeUpdate update, true)) → Relays r conn frame h
  /-- The state vector of somebody who is connected is answered. -/
  | answer {sv diff : Bytes} {rest : List (Conn × Bytes × Bool)} : (r.clientsOf conn).isSome →
      decode frame = .ok (.syncStep1 sv) → r.doc.encodeDiff sv = .ok diff →
      h.room.doc = r.doc → h.sends = (conn, writeSyncStep2 diff, true) :: rest →
      (∀ s ∈ rest, Quiet s.2.1 ∨
        ∃ ours, s.2.1 = writeSyncStep1 ours ∧ r.doc.encodeStateVector = .ok ours) →
      Relays r conn frame h

theorem Hushed.quiet_sends (hq : Hushed h h') (hs : h.sends = []) :
    ∀ s ∈ h'.sends, Quiet s.2.1 := by
  obtain ⟨l, hl, hquiet⟩ := hq.sends
  rw [hl, hs]
  exact hquiet

theorem syncStep1_relays {r : Room} {sv : Bytes} (hin : (r.clientsOf conn).isSome)
    (hdec : decode frame = .ok (.syncStep1 sv)) :
    Relays r conn frame (({ room := r } : Handler).syncStep1 cfg now conn sv) := by
  unfold syncStep1
  cases hdiff : r.doc.encodeDiff sv with
  | error x =>
    exact .quiet (drop_aside conn _ _).doc ((drop_hushed conn _ _).quiet_sends rfl)
      fun _ _ => clientsOf_leave conn
  | ok diff =>
    simp only [deliver_of_calm (h := { room := r }) rfl]
    cases hsv : r.doc.encodeStateVector with
    | error x => exact .answer hin hdec hdiff rfl rfl (by simp)
    | ok ours =>
      simp only [deliver_of_calm]
      set h₂ : Handler := { room := r, sends := [] ++ [(conn, writeSyncStep2 diff, true)] ++
        [(conn, writeSyncStep1 ours, true)] }
      have hours : Quiet (writeSyncStep1 ours) ∨
          ∃ o, writeSyncStep1 ours = writeSyncStep1 o ∧ r.doc.encodeStateVector = .ok o :=
        .inr ⟨ours, rfl, hsv⟩
      split
      · obtain ⟨l, hl, hq⟩ : ∃ l, (h₂.sendAll cfg now conn).sends = h₂.sends ++ l ∧
            ∀ s ∈ l, Quiet s.2.1 := (sendAll_hushed conn).sends
        refine .answer hin hdec hdiff (sendAll_aside (h := h₂) conn).doc hl ?_
        rintro s (_ | ⟨_, hs⟩)
        · exact hours
        · exact .inl (hq s hs)
      · exact .answer hin hdec hdiff rfl rfl (by simpa using hours)

theorem update_relays {r : Room} {update : Bytes}
    (hdec : decode frame = .ok (.syncStep2 update) ∨ decode frame = .ok (.update update)) :
    Relays r conn frame (({ room := r } : Handler).update cfg now conn update) := by
  have hother : ∀ {sv}, decode frame ≠ .ok (.syncStep1 sv) := by
    intro sv heq
    rcases hdec with hdec | hdec <;> simp [hdec] at heq
  unfold Handler.update
  split
  · split
    · exact .quiet rfl (by simp) fun sv heq => absurd heq hother
    · refine .quiet (drop_aside conn _ _).doc ?_ fun sv heq => absurd heq hother
      exact ((send_hushed (quiet_writePermissionDenied _) conn).trans
        (drop_hushed conn _ _)).quiet_sends rfl
  · cases happ : r.doc.applyUpdate update with
    | error x =>
      exact .quiet (drop_aside conn _ _).doc ((drop_hushed conn _ _).quiet_sends rfl)
        fun sv heq => absurd heq hother
    | ok doc =>
      obtain ⟨l, n, -, heq⟩ := record_eq cfg { room := { r with doc } } update
      have hpub : ∀ k : Handler, (k.publish cfg .update update).sends = k.sends := by
        intro k
        unfold publish
        split <;> rfl
      simp only [heq]
      rw [broadcast_of_calm rfl]
      refine .update hdec ?_ ?_
      · rw [(publish_kept ..).doc, happ]
      · rw [hpub]
        rfl

/-- **What a frame makes a room send**, if no send fails. -/
theorem frame_relays (r : Room) (conn : Conn) (frame : Bytes) :
    Relays r conn frame (({ room := r } : Handler).frame cfg now conn frame) := by
  unfold Handler.frame
  cases hin : r.clientsOf conn with
  | none => exact .quiet rfl (by simp) fun _ _ => hin
  | some clients =>
    cases hdec : decode frame with
    | error x =>
      exact .quiet (drop_aside conn _ _).doc ((drop_hushed conn _ _).quiet_sends rfl)
        fun sv heq => by simp [hdec] at heq
    | ok m =>
      cases m with
      | syncStep1 sv => exact syncStep1_relays (by simp [hin]) hdec
      | syncStep2 update => exact update_relays (.inl hdec)
      | update update => exact update_relays (.inr hdec)
      | awareness payload =>
        exact .quiet (awareness_kept conn payload).doc ((awareness_hushed payload).quiet_sends rfl)
          fun sv heq => by simp [hdec] at heq
      | queryAwareness =>
        exact .quiet (sendAll_aside conn).doc ((sendAll_hushed conn).quiet_sends rfl)
          fun sv heq => by simp [hdec] at heq
      | permissionDenied reason =>
        exact .quiet rfl (by simp) fun sv heq => by simp [hdec] at heq

end YCollab.Room.Handler
