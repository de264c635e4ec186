import Mathlib.Algebra.Group.Pi.Basic
import Mathlib.Algebra.Notation.Pi.Basic
import Mathlib.Algebra.Order.Group.Nat
import YCollab.Room.Conns

/-!
# What a room publishes

`internal/room/fanout.go`, from the side of one room: how many envelopes of each kind a turn of the
run loop hands to the publisher (`turn_emits`). An update that came from the bus is relayed to the
local connections and never published again. Relaying may drop connections that are too slow, and
each of those retracts its cursors, on the bus as well; so cursors are counted together with the
connections that may still retract some (`load`).
-/

namespace YCollab.Room

open Lib0 Crdt Protocol

variable {cfg : Config} {now : ℤ} {r r' r'' : Room} {conn : Conn}

/-- The envelopes of a kind that the room has published. -/
def count (r : Room) (k : Kind) : ℕ := r.published.countP (·.kind = k)

/-- The envelopes of a kind, and the connections whose departure may publish one more. -/
def load (r : Room) (k : Kind) : ℕ := r.count k + if k = .awareness then r.conns.length else 0

/-- `r'` follows from `r` by at most `b` more envelopes, which carry the id of this node. -/
structure Emits (cfg : Config) (r r' : Room) (b : Kind → ℕ) : Prop where
  load (k : Kind) : r'.load k ≤ r.load k + b k
  grown : ∃ l, r'.published = r.published ++ l ∧ ∀ e ∈ l, e.origin = cfg.nodeID

namespace Emits

variable {b b' : Kind → ℕ}

theorem of_eq (hp : r'.published = r.published) (hc : r'.conns.length ≤ r.conns.length) :
    Emits cfg r r' 0 where
  load k := by
    simp only [Room.load, count, hp, Pi.zero_apply]
    split <;> omega
  grown := ⟨[], by simp [hp], by simp⟩

theorem refl (r : Room) : Emits cfg r r 0 := of_eq rfl le_rfl

theorem trans (h : Emits cfg r r' b) (h' : Emits cfg r' r'' b') : Emits cfg r r'' (b + b') where
  load k := by
    have h₁ := h.load k
    have h₂ := h'.load k
    simp only [Pi.add_apply]
    omega
  grown := by
    obtain ⟨l, hl, hid⟩ := h.grown
    obtain ⟨l', hl', hid'⟩ := h'.grown
    refine ⟨l ++ l', by rw [hl', hl, List.append_assoc], fun e he => ?_⟩
    exact (List.mem_append.1 he).elim (hid e) (hid' e)

theorem mono (h : Emits cfg r r' b) (hb : ∀ k, b k ≤ b' k) : Emits cfg r r' b' where
  load k := (h.load k).trans (Nat.add_le_add_left (hb k) _)
  grown := h.grown

theorem after (h : Emits cfg r r' 0) (h' : Emits cfg r' r'' b) : Emits cfg r r'' b := by
  simpa using h.trans h'

theorem before (h : Emits cfg r r' b) (h' : Emits cfg r' r'' 0) : Emits cfg r r'' b := by
  simpa using h.trans h'

theorem kind_ne (h : Emits cfg r r' b) {k : Kind} (hk : k ≠ .awareness) (hb : b k = 0) :
    ∀ e ∈ r'.published.drop r.published.length, e.kind ≠ k := by
  obtain ⟨l, hl, -⟩ := h.grown
  have hload := h.load k
  simp only [Room.load, count, hl, List.countP_append, hb, if_neg hk] at hload
  have hnone : l.countP (·.kind = k) = 0 := by omega
  rw [hl, List.drop_left]
  simpa [List.countP_eq_zero] using hnone

end Emits

namespace Handler

variable {h h' : Handler}

theorem publish_emits (kind : Kind) (payload : Bytes) :
    Emits cfg h.room (h.publish cfg kind payload).room (Pi.single kind 1) := by
  unfold publish
  split
  · refine ⟨fun k => ?_, _, rfl, by simp⟩
    simp only [Room.load, count, List.countP_append, List.countP_singleton, decide_eq_true_eq]
    by_cases hk : kind = k
    · subst hk
      simp only [if_pos, Pi.single_eq_same]
      omega
    · simp [hk]
  · exact (Emits.refl h.room).mono fun k => Nat.zero_le _

theorem departed_load (now : ℤ) {clients : List ℕ} (hc : h.room.clientsOf conn = some clients) :
    (h.departed now conn clients).room.load .awareness + 1 ≤ h.room.load .awareness := by
  have hlt := forgetConn_length now hc
  simp only [Room.load, count, if_pos]
  change _ + (h.forgetConn now conn).room.conns.length + 1 ≤ _
  have hsame : (h.departed now conn clients).room.published = h.room.published := rfl
  rw [hsame]
  omega

theorem departed_emits {clients : List ℕ} :
    Emits cfg h.room (h.departed now conn clients).room 0 :=
  .of_eq rfl (List.length_filter_le ..)

theorem emits_traffic : Traffic cfg now (fun _ => True) fun h h' => Emits cfg h.room h'.room 0 where
  refl h := .refl h.room
  trans h₁ h₂ := h₁.after h₂
  send _ _ _ _ := .refl _
  close _ _ _ _ := .refl _
  cursors _ := trivial
  depart _ := departed_emits
  publish {h h' conn clients} payload hc hd := by
    have hpub : Emits cfg h'.room (h'.publish cfg .awareness payload).room
        (Pi.single .awareness 1) := publish_emits ..
    refine ⟨fun k => ?_, ((departed_emits.after hd).trans hpub).grown⟩
    by_cases hk : k = .awareness
    · subst hk
      have h₁ := departed_load now hc
      have h₂ := hd.load .awareness
      have h₃ := hpub.load .awareness
      simp only [Pi.zero_apply, Pi.single_eq_same] at h₂ h₃ ⊢
      omega
    · have hload := ((departed_emits.after hd).trans hpub).load k
      simpa [Pi.single_eq_of_ne hk] using hload

theorem relayed_emits {doc : Doc} {update : Bytes} {except : Option Conn} :
    let h₁ := ({ h with room := { h.room with doc } } : Handler).record cfg update
    let h₂ : Handler := { h₁ with room := { h₁.room with versionDirty := true } }
    Emits cfg h.room
      ((h₂.broadcast cfg now (writeUpdate update) except).publish cfg .update update).room
      (Pi.single .update 1) := by
  intro h₁ h₂
  obtain ⟨l, n, -, heq⟩ := record_eq cfg { h with room := { h.room with doc } } update
  have hsame : Emits cfg h.room h₂.room 0 := by
    simp only [h₂, h₁, heq]
    exact .of_eq rfl le_rfl
  have hsent : Emits cfg h₂.room (h₂.broadcast cfg now (writeUpdate update) except).room 0 :=
    emits_traffic.broadcast trivial except h₂
  exact (hsame.after hsent).after (publish_emits ..)

end Handler

/-! ### Turns -/

/-- The kind of envelope that an accepted command publishes, if it is a local update or a local
cursor. -/
def accepts (r : Room) (now : ℤ) : Command → Option Kind
  | .frame conn frame =>
    match r.clientsOf conn with
    | none => none
    | some _ =>
      match decode frame with
      | .ok (.syncStep2 update) => acceptsUpdate r conn update
      | .ok (.update update) => acceptsUpdate r conn update
      | .ok (.awareness payload) =>
        if (r.aw.applyUpdate payload now).2.2 = none then some .awareness else none
      | _ => none
  | .merge update => if (r.doc.applyUpdate update).toBool then some .update else none
  | _ => none
where
  /-- An update of a connection that may write, and that can be applied. -/
  acceptsUpdate (r : Room) (conn : Conn) (update : Bytes) : Option Kind :=
    if conn.canWrite ∧ (r.doc.applyUpdate update).toBool then some .update else none

/-- What a turn may add to the `load` of a room. -/
def allowance (r : Room) (i : Input) : Kind → ℕ :=
  match i.event with
  | .remote env => if env.kind = .stateVector then Pi.single .update 1 else 0
  | .command (.join _) => Pi.single .awareness 1
  | .command .tick => Pi.single .stateVector 1
  | .command c =>
    match r.accepts i.now c with
    | some k => Pi.single k 1
    | none => 0

namespace Handler

variable {h h' : Handler}

theorem drop_emits {r : Room} (conn : Conn) (code : ℕ) (reason : Bytes)
    (hp : h.room.published = r.published) (hc : h.room.conns = r.conns) :
    Emits cfg r (h.drop cfg now conn code reason).room 0 :=
  (Emits.of_eq hp (hc ▸ le_rfl)).after (emits_traffic.drop conn code reason h)

theorem update_emits (update : Bytes) : Emits cfg h.room (h.update cfg now conn update).room
    (match accepts.acceptsUpdate h.room conn update with
      | some k => Pi.single k 1
      | none => 0) := by
  unfold Handler.update accepts.acceptsUpdate
  cases hw : conn.canWrite with
  | false =>
    simp only [Bool.false_eq_true, false_and, if_true, if_false]
    split
    · exact .refl h.room
    · exact drop_emits conn _ _ rfl rfl
  | true =>
    simp only [Bool.true_eq_false, if_false, true_and]
    cases happ : h.room.doc.applyUpdate update with
    | error x => exact drop_emits conn _ _ rfl rfl
    | ok doc => exact relayed_emits

theorem awareness_emits (payload : Bytes) :
    Emits cfg h.room (h.awareness cfg now conn payload).room
      (if (h.room.aw.applyUpdate payload now).2.2 = none then Pi.single .awareness 1 else 0) := by
  unfold Handler.awareness
  split
  next aw changed err happ =>
    simp only [happ, reduceCtorEq, if_false]
    split
    · exact drop_emits conn _ _ rfl rfl
    · exact drop_emits conn _ _ rfl rfl
  next aw happ =>
    simp only [happ, if_true]
    have haw : Emits cfg h.room { h.room with aw } 0 := .of_eq rfl le_rfl
    exact haw.mono fun k => Nat.zero_le _
  next aw changed _ happ =>
    simp only [happ, if_true]
    set h₁ : Handler := { h with room := { h.room with aw, conns := h.room.conns.map fun p =>
      if p.1 = conn then (p.1, announced p.2 changed) else p } }
    have hrow : Emits cfg h.room h₁.room 0 := .of_eq rfl (List.length_map ..).le
    split
    · exact hrow.mono fun k => Nat.zero_le _
    · exact (hrow.after (emits_traffic.broadcast trivial _ h₁)).after (publish_emits ..)

theorem frame_emits (frame : Bytes) : Emits cfg h.room (h.frame cfg now conn frame).room
    (match h.room.accepts now (.frame conn frame) with
      | some k => Pi.single k 1
      | none => 0) := by
  unfold Handler.frame
  cases hc : h.room.clientsOf conn with
  | none =>
    simp only [accepts, hc]
    exact .refl h.room
  | some clients =>
    cases hdec : decode frame with
    | error x =>
      simp only [accepts, hc, hdec]
      exact drop_emits conn _ _ rfl rfl
    | ok m =>
      cases m with
      | awareness payload =>
        have haw : Emits cfg h.room (h.awareness cfg now conn payload).room _ :=
          awareness_emits payload
        simp only [accepts, hc, hdec]
        split at haw
        · rwa [if_pos ‹_›]
        · rwa [if_neg ‹_›]
      | syncStep1 sv =>
        simp only [accepts, hc, hdec]
        exact emits_traffic.syncStep1 conn sv h
      | syncStep2 update =>
        simp only [accepts, hc, hdec]
        exact update_emits update
      | update update =>
        simp only [accepts, hc, hdec]
        exact update_emits update
      | queryAwareness =>
        simp only [accepts, hc, hdec]
        exact emits_traffic.sendAll conn h
      | permissionDenied reason =>
        simp only [accepts, hc, hdec]
        exact .refl h.room

theorem stop_emits (code : ℕ) (reason : Bytes) :
    Emits cfg h.room (h.stop cfg code reason).room 0 := by
  obtain ⟨n, heq⟩ := stop_room cfg h code reason
  rw [heq]
  exact .of_eq rfl (Nat.zero_le _)

theorem sweepAwareness_emits : Emits cfg h.room (h.sweepAwareness cfg now).room 0 := by
  unfold sweepAwareness
  split
  next aw payload _ =>
    have haw : Emits cfg h.room { h.room with aw } 0 := .of_eq rfl le_rfl
    exact haw.after (emits_traffic.broadcast trivial none { h with room := { h.room with aw } })
  next aw _ _ _ => exact .of_eq rfl le_rfl

theorem announce_emits :
    Emits cfg h.room (h.announce cfg now).room (Pi.single .stateVector 1) := by
  have hnone : Emits cfg h.room h.room (Pi.single .stateVector 1) :=
    (Emits.refl h.room).mono fun k => Nat.zero_le _
  obtain heq | ⟨sv, -, heq⟩ := announce_eq cfg now h <;> rw [heq]
  · exact hnone
  · let h₁ : Handler := { h with room := { h.room with lastAnnounce := some now } }
    have hmark : Emits cfg h.room h₁.room 0 := .of_eq rfl le_rfl
    exact hmark.after (publish_emits (h := h₁) ..)

theorem versionTick_emits : Emits cfg h.room (h.versionTick cfg now).room 0 := by
  obtain heq | heq := versionTick_eq cfg now h <;> rw [heq]
  · exact .refl _
  · exact .of_eq rfl le_rfl

theorem tick_emits : Emits cfg h.room (h.tick cfg now).1.room (Pi.single .stateVector 1) := by
  have hticked : Emits cfg h.room
      (((h.sweepAwareness cfg now).announce cfg now).versionTick cfg now).room
      (Pi.single .stateVector 1) :=
    (sweepAwareness_emits.after announce_emits).before versionTick_emits
  obtain heq | ⟨-, heq⟩ := tick_eq cfg now h <;> rw [heq]
  · exact hticked
  · exact hticked.before (stop_emits _ _)

theorem handle_emits (c : Command) : Emits cfg h.room (h.handle cfg now c).1.room
    (h.room.allowance ⟨.command c, now, []⟩) := by
  cases c with
  | frame conn frame => exact frame_emits frame
  | leave conn => exact emits_traffic.leave conn h
  | tick => exact tick_emits
  | read sv => exact .refl h.room
  | join conn =>
    simp only [handle, join, allowance]
    split
    · exact (Emits.refl h.room).mono fun k => Nat.zero_le _
    · refine ⟨fun k => ?_, [], by simp, by simp⟩
      simp only [Room.load, count, List.length_append, List.length_singleton]
      by_cases hk : k = .awareness
      · simp [hk, Nat.add_assoc]
      · simp [hk]
  | merge update =>
    simp only [handle, merge, allowance, accepts]
    cases happ : h.room.doc.applyUpdate update with
    | error x => exact .refl h.room
    | ok doc => exact relayed_emits
  | version label =>
    simp only [handle, takeVersion, allowance, accepts]
    split
    · exact .refl h.room
    · rw [queueVersion_eq]
      exact .of_eq rfl le_rfl
  | evict =>
    simp only [handle, allowance, accepts]
    split
    · exact .refl h.room
    · exact stop_emits _ _

theorem remoteUpdate_emits (update : Bytes) :
    Emits cfg h.room (h.remoteUpdate cfg now update).room 0 := by
  unfold remoteUpdate
  split
  · exact .refl h.room
  next doc _ =>
    let h₁ : Handler := { h with room := { h.room with doc, versionDirty := true } }
    have hdoc : Emits cfg h.room h₁.room 0 := .of_eq rfl le_rfl
    exact hdoc.after (emits_traffic.broadcast trivial none h₁)

theorem remoteAwareness_emits (payload : Bytes) :
    Emits cfg h.room (h.remoteAwareness cfg now payload).room 0 := by
  unfold remoteAwareness
  split
  · exact .of_eq rfl le_rfl
  next aw changed _ _ =>
    let h₁ : Handler := { h with room := { h.room with aw } }
    have haw : Emits cfg h.room h₁.room 0 := .of_eq rfl le_rfl
    simp only
    split
    · exact haw
    · exact haw.after (emits_traffic.broadcast trivial none h₁)
  · exact .of_eq rfl le_rfl

theorem answerStateVector_emits (sv : Bytes) :
    Emits cfg h.room (h.answerStateVector cfg sv).room (Pi.single .update 1) := by
  have hnone : Emits cfg h.room h.room (Pi.single .update 1) :=
    (Emits.refl h.room).mono fun k => Nat.zero_le _
  unfold answerStateVector
  split
  · exact hnone
  · split
    · exact hnone
    · exact publish_emits ..

theorem remoteEnvelope_emits (env : Envelope) : Emits cfg h.room (h.remoteEnvelope cfg now env).room
    (h.room.allowance ⟨.remote env, now, []⟩) := by
  obtain ⟨origin, kind, payload⟩ := env
  cases kind with
  | update => exact remoteUpdate_emits payload
  | awareness => exact remoteAwareness_emits payload
  | stateVector => exact answerStateVector_emits payload

end Handler

/-- **What a turn publishes** is bounded by its `allowance`. -/
theorem turn_emits (r : Room) (i : Input) : Emits cfg r (r.turn cfg i).room (r.allowance i) := by
  obtain ⟨event, now, outcomes⟩ := i
  cases event with
  | command c => exact Handler.handle_emits (h := { room := r, outcomes }) c
  | remote env => exact Handler.remoteEnvelope_emits (h := { room := r, outcomes }) env

theorem remote_publishes (r : Room) {env : Envelope} (hkind : env.kind ≠ .stateVector) (now : ℤ)
    (outcomes : List Bool) :
    ∀ e ∈ (r.turn cfg ⟨.remote env, now, outcomes⟩).room.published.drop r.published.length,
      e.kind = .awareness := by
  have hzero : r.allowance ⟨.remote env, now, outcomes⟩ = 0 := if_neg hkind
  have hemits : Emits cfg r (r.turn cfg ⟨.remote env, now, outcomes⟩).room 0 :=
    hzero ▸ turn_emits r _
  intro e he
  have hu := hemits.kind_ne (k := .update) nofun rfl e he
  have hv := hemits.kind_ne (k := .stateVector) nofun rfl e he
  cases hk : e.kind with
  | update => exact absurd hk hu
  | awareness => rfl
  | stateVector => exact absurd hk hv

end YCollab.Room
