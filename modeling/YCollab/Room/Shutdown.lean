import YCollab.Room.Progress

/-!
# Sending to a room that shuts down

`Room.send`, `Room.Run` and `Room.stop` of `internal/room/room.go`, step by step. Any number of
goroutines call `send`, one of them at a time holds `sendMu` and waits for space in the mailbox;
the room goroutine takes commands until its context is cancelled or the room evicts itself, and
then runs `stop`: it finishes persisting, closes `done`, sets `closed` under the lock, and drains
the mailbox. The drain closes joining connections and drops every other command.

`accepted` lists the commands for which `send` returned nil, `handled` those the run loop handled.
`accepted_updates_handled_iff` says in which runs no accepted update is lost: exactly those in
which no update is queued when `stop` begins and none is accepted afterwards.
`accepted_update_lost` is a run that loses one.
-/

namespace YCollab.Room

open Lib0 Crdt Protocol

/-- Where the room goroutine is. -/
inductive Phase where
  /-- In the run loop. -/
  | running
  /-- In `stop`, up to the end of `finishPersisting`. -/
  | stopping
  /-- `done` is closed. -/
  | done
  /-- `closed` is set; the mailbox is drained. -/
  | closed
  /-- `stop` has returned. -/
  | gone
  deriving DecidableEq

/-- A room, its mailbox and the callers of `send`. -/
structure System where
  room : Room
  phase : Phase := .running
  mailbox : List Command := []
  /-- The command of the goroutine that holds `sendMu`. -/
  holder : Option Command := none
  /-- The commands for which `send` returned nil, oldest first. -/
  accepted : List Command := []
  /-- The commands for which `send` returned `ErrClosed`. -/
  refused : List Command := []
  /-- The commands the run loop handled, each with the room before it. -/
  handled : List (Room × Command) := []
  /-- The joining connections the drain closed. -/
  turnedAway : List Conn := []

namespace System

/-- What one of the goroutines does next. -/
inductive Step where
  /-- A call of `send` gets the lock. -/
  | lock (c : Command)
  /-- The holder of the lock puts its command in the mailbox and returns nil. -/
  | enqueue
  /-- The holder of the lock finds `done` closed and returns `ErrClosed`. -/
  | abort
  /-- The run loop takes a command. -/
  | take (now : ℤ) (outcomes : List Bool)
  /-- The run loop takes a tick. -/
  | tick (now : ℤ) (outcomes : List Bool)
  /-- The run loop takes an envelope of another replica. -/
  | remote (env : Envelope) (now : ℤ) (outcomes : List Bool)
  /-- The run loop takes the cancellation of its context. -/
  | cancel
  /-- The writer has finished; `stop` closes `done`. -/
  | finish
  /-- `stop` sets `closed`. -/
  | close
  /-- `stop` drains one command. -/
  | drain
  /-- `stop` finds the mailbox empty and returns. -/
  | exit
  deriving DecidableEq

variable (cfg : Config) (size : ℕ)

/-- A turn of the run loop; a room that has evicted itself is in `stop`. -/
def loop (s : System) (i : Input) : System :=
  let room := (s.room.turn cfg i).room
  { s with room, phase := if room.stopped then .stopping else .running }

/-- One step; a step that is not possible changes nothing. `size` is the capacity of the
mailbox. -/
def step (s : System) : Step → System
  | .lock c =>
    if s.holder.isSome then s
    else if s.phase = .closed ∨ s.phase = .gone then { s with refused := s.refused ++ [c] }
    else { s with holder := some c }
  | .enqueue =>
    match s.holder with
    | none => s
    | some c =>
      if s.mailbox.length < size then
        { s with mailbox := s.mailbox ++ [c], holder := none, accepted := s.accepted ++ [c] }
      else s
  | .abort =>
    match s.holder with
    | none => s
    | some c =>
      if s.phase = .done then { s with holder := none, refused := s.refused ++ [c] } else s
  | .take now outcomes =>
    match s.phase, s.mailbox with
    | .running, c :: rest =>
      { s with mailbox := rest, handled := s.handled ++ [(s.room, c)] }.loop cfg
        ⟨.command c, now, outcomes⟩
    | _, _ => s
  | .tick now outcomes =>
    if s.phase = .running then s.loop cfg ⟨.command .tick, now, outcomes⟩ else s
  | .remote env now outcomes =>
    if s.phase = .running then s.loop cfg ⟨.remote env, now, outcomes⟩ else s
  | .cancel =>
    if s.phase = .running then
      { s with
        room := (({ room := s.room } : Handler).stop cfg closeGoingAway
          (text "server shutting down")).room
        phase := .stopping }
    else s
  | .finish => if s.phase = .stopping then { s with phase := .done } else s
  | .close => if s.phase = .done ∧ s.holder = none then { s with phase := .closed } else s
  | .drain =>
    match s.phase, s.mailbox with
    | .closed, .join conn :: rest => { s with mailbox := rest, turnedAway := s.turnedAway ++ [conn] }
    | .closed, _ :: rest => { s with mailbox := rest }
    | _, _ => s
  | .exit => if s.phase = .closed ∧ s.mailbox = [] then { s with phase := .gone } else s

/-- The system after a sequence of steps. -/
def run (s : System) (steps : List Step) : System := steps.foldl (step cfg size) s

/-! ### What is promised -/

/-- An update frame of a connection that may write. -/
def owed : Command → Bool
  | .frame conn frame => conn.canWrite && (updateOf frame).isSome
  | _ => false

/-- `update`, which the room took as `before`, is in the log and in the document. -/
def Holds (before : Room) (update : Bytes) (r : Room) : Prop :=
  update ∈ r.recorded ∧
    ∃ l : List Bytes, r.doc = l.foldl Doc.receive (before.doc.receive update)

/-- The room holds every update that a connected writer sent, that was handled and that
applied. -/
def Effective (s : System) : Prop :=
  ∀ before conn frame update, (before, .frame conn frame) ∈ s.handled → conn.canWrite = true →
    (before.clientsOf conn).isSome → updateOf frame = some update →
    (before.doc.applyUpdate update).isOk → Holds before update s.room

/-- Every accepted update frame was handled, and the room holds what was handled. -/
def Honoured (s : System) : Prop :=
  s.accepted.filter owed = (s.handled.map Prod.snd).filter owed ∧ s.Effective

/-- When `stop` begins no update frame is queued, and none is accepted from then on. -/
def Allowed (s : System) (st : Step) : Prop :=
  (s.phase = .running → (s.step cfg size st).phase ≠ .running →
      ∀ c ∈ (s.step cfg size st).mailbox, owed c = false) ∧
    (s.phase ≠ .running → st = .enqueue → s.mailbox.length < size →
      ∀ c ∈ s.holder, owed c = false)

instance (s : System) (st : Step) : Decidable (s.Allowed cfg size st) := by
  unfold Allowed
  infer_instance

/-- Every step of a run is `Allowed`. -/
def Undisturbed (s : System) : List Step → Prop
  | [] => True
  | st :: steps => s.Allowed cfg size st ∧ Undisturbed (s.step cfg size st) steps

instance Undisturbed.decidable : ∀ (s : System) (steps : List Step),
    Decidable (s.Undisturbed cfg size steps)
  | _, [] => inferInstanceAs (Decidable True)
  | s, st :: steps =>
    haveI := Undisturbed.decidable (s.step cfg size st) steps
    inferInstanceAs (Decidable (s.Allowed cfg size st ∧ Undisturbed cfg size _ steps))

/-! ### What a step can do -/

variable {cfg size} {s : System}

/-- `s'` accepts the command of the holder. -/
structure Accepts (s s' : System) (c : Command) : Prop where
  mailbox : s'.mailbox = s.mailbox ++ [c]
  accepted : s'.accepted = s.accepted ++ [c]
  handled : s'.handled = s.handled
  phase : s'.phase = s.phase
  room : s'.room = s.room

variable (cfg) in
/-- `s'` has handled the first command of the mailbox. -/
structure Handles (s s' : System) (c : Command) : Prop where
  running : s.phase = .running
  mailbox : s.mailbox = c :: s'.mailbox
  accepted : s'.accepted = s.accepted
  handled : s'.handled = s.handled ++ [(s.room, c)]
  room : ∃ now outcomes, s'.room = (s.room.turn cfg ⟨.command c, now, outcomes⟩).room

/-- `s'` accepts and handles nothing; the mailbox changes only in `stop`, which nobody leaves. -/
structure Idles (s s' : System) : Prop where
  accepted : s'.accepted = s.accepted
  handled : s'.handled = s.handled
  mailbox : s.phase = .running → s'.mailbox = s.mailbox
  phase : s'.phase = .running → s.phase = .running
  room : Onward s.room s'.room

theorem Idles.refl (s : System) : Idles s s := ⟨rfl, rfl, fun _ => rfl, id, .refl _⟩

theorem idles_loop (hrun : s.phase = .running) (i : Input) : Idles s (s.loop cfg i) :=
  ⟨rfl, rfl, fun _ => rfl, fun _ => hrun, turn_onward s.room i⟩

theorem Idles.of_stopping {s' : System} (hrun : s.phase ≠ .running) (hphase : s'.phase ≠ .running)
    (ha : s'.accepted = s.accepted) (hh : s'.handled = s.handled) (hr : s'.room = s.room) :
    Idles s s' :=
  ⟨ha, hh, fun h => absurd h hrun, fun h => absurd h hphase, hr ▸ .refl _⟩

variable (cfg size) in
theorem step_cases (s : System) (st : Step) :
    (∃ c, st = .enqueue ∧ s.holder = some c ∧ s.mailbox.length < size ∧
        Accepts s (s.step cfg size st) c) ∨
      (∃ c, Handles cfg s (s.step cfg size st) c) ∨ Idles s (s.step cfg size st) := by
  cases st with
  | lock c =>
    refine .inr (.inr ?_)
    simp only [step]
    split
    · exact .refl s
    · split <;> exact ⟨rfl, rfl, fun _ => rfl, id, .refl _⟩
  | enqueue =>
    simp only [step]
    split
    · exact .inr (.inr (.refl s))
    next c hc =>
      split
      next hspace => exact .inl ⟨c, trivial, hc, hspace, rfl, rfl, rfl, rfl, rfl⟩
      next => exact .inr (.inr (.refl s))
  | abort =>
    refine .inr (.inr ?_)
    simp only [step]
    split
    · exact .refl s
    · split
      · exact ⟨rfl, rfl, fun _ => rfl, id, .refl _⟩
      · exact .refl s
  | take now outcomes =>
    simp only [step]
    split
    next c rest hrun hbox => exact .inr (.inl ⟨c, hrun, hbox, rfl, rfl, now, outcomes, rfl⟩)
    next => exact .inr (.inr (.refl s))
  | tick now outcomes =>
    refine .inr (.inr ?_)
    simp only [step]
    split
    next hrun => exact idles_loop hrun _
    next => exact .refl s
  | remote env now outcomes =>
    refine .inr (.inr ?_)
    simp only [step]
    split
    next hrun => exact idles_loop hrun _
    next => exact .refl s
  | cancel =>
    refine .inr (.inr ?_)
    simp only [step]
    split
    next hrun =>
      have hend := Handler.stop_ended cfg { room := s.room } closeGoingAway
        (text "server shutting down")
      exact ⟨rfl, rfl, fun _ => rfl, fun _ => hrun, .of_eq hend.doc hend.recorded⟩
    next => exact .refl s
  | finish =>
    refine .inr (.inr ?_)
    simp only [step]
    split
    next hphase => exact .of_stopping (by simp [hphase]) (by simp) rfl rfl rfl
    next => exact .refl s
  | close =>
    refine .inr (.inr ?_)
    simp only [step]
    split
    next hphase => exact .of_stopping (by simp [hphase.1]) (by simp) rfl rfl rfl
    next => exact .refl s
  | drain =>
    refine .inr (.inr ?_)
    simp only [step]
    split
    next hphase _ => exact .of_stopping (by simp [hphase]) (by simp [hphase]) rfl rfl rfl
    next hphase _ => exact .of_stopping (by simp [hphase]) (by simp [hphase]) rfl rfl rfl
    next => exact .refl s
  | exit =>
    refine .inr (.inr ?_)
    simp only [step]
    split
    next hphase => exact .of_stopping (by simp [hphase.1]) (by simp) rfl rfl rfl
    next => exact .refl s

/-! ### Accepted and handled commands -/

/-- While the run loop runs, what was accepted is handled or queued; in `stop`, no update has
been lost so far. -/
structure Intact (s : System) : Prop where
  running : s.phase = .running → s.accepted = s.handled.map Prod.snd ++ s.mailbox
  stopping : s.phase ≠ .running →
    s.accepted.filter owed = (s.handled.map Prod.snd).filter owed

/-- An accepted update has been lost. -/
def Lost (s : System) : Prop :=
  s.phase ≠ .running ∧
    ((s.handled.map Prod.snd).filter owed).length < (s.accepted.filter owed).length

theorem filter_owed_eq_nil {l : List Command} (h : ∀ c ∈ l, owed c = false) :
    l.filter owed = [] :=
  List.filter_eq_nil_iff.2 fun c hc => by simp [h c hc]

/-- A step that the condition allows loses nothing. -/
theorem Intact.step (h : s.Intact) {st : Step} (hok : s.Allowed cfg size st) :
    (s.step cfg size st).Intact := by
  rcases step_cases cfg size s st with ⟨c, rfl, hc, hspace, ha⟩ | ⟨c, hh⟩ | hi
  · refine ⟨fun hrun => ?_, fun hstop => ?_⟩
    · rw [ha.accepted, ha.handled, ha.mailbox, h.running (ha.phase ▸ hrun), List.append_assoc]
    · have hstop : s.phase ≠ .running := ha.phase ▸ hstop
      have hnot := hok.2 hstop rfl hspace c hc
      rw [ha.accepted, ha.handled, List.filter_append, h.stopping hstop]
      simp [hnot]
  · have hall : s.accepted = (s.handled.map Prod.snd ++ [c]) ++ (s.step cfg size st).mailbox := by
      rw [h.running hh.running, hh.mailbox, List.append_assoc]
      rfl
    refine ⟨fun _ => ?_, fun hstop => ?_⟩
    · rw [hh.accepted, hh.handled, hall, List.map_append]
      rfl
    · have hnil := filter_owed_eq_nil (hok.1 hh.running hstop)
      rw [hh.accepted, hh.handled, hall, List.filter_append, hnil, List.append_nil, List.map_append]
      rfl
  · refine ⟨fun hrun => ?_, fun hstop => ?_⟩
    · have hrun := hi.phase hrun
      rw [hi.accepted, hi.handled, hi.mailbox hrun, h.running hrun]
    · rw [hi.accepted, hi.handled]
      by_cases hrun : s.phase = .running
      · have hnil := filter_owed_eq_nil (hok.1 hrun hstop)
        rw [hi.mailbox hrun] at hnil
        rw [h.running hrun, List.filter_append, hnil, List.append_nil]
      · exact h.stopping hrun

theorem Lost.step (h : s.Lost) (st : Step) : (s.step cfg size st).Lost := by
  obtain ⟨hstop, hlt⟩ := h
  rcases step_cases cfg size s st with ⟨c, _, _, _, ha⟩ | ⟨c, hh⟩ | hi
  · refine ⟨ha.phase ▸ hstop, ?_⟩
    rw [ha.accepted, ha.handled, List.filter_append, List.length_append]
    exact Nat.lt_add_right _ hlt
  · exact absurd hh.running hstop
  · exact ⟨fun hrun => hstop (hi.phase hrun), by rw [hi.accepted, hi.handled]; exact hlt⟩

theorem length_lt_of_queued (handled : List Command) {queued : List Command} {c : Command} (hc : c ∈ queued)
    (ho : owed c = true) :
    (handled.filter owed).length < ((handled ++ queued).filter owed).length := by
  have hmem : c ∈ queued.filter owed := List.mem_filter.2 ⟨hc, ho⟩
  have hpos := List.length_pos_of_mem hmem
  rw [List.filter_append, List.length_append]
  omega

/-- A step that the condition does not allow loses an update. -/
theorem Intact.lost (h : s.Intact) {st : Step} (hbad : ¬ s.Allowed cfg size st) :
    (s.step cfg size st).Lost := by
  rcases not_and_or.1 hbad with hqueued | haccept
  · -- `stop` begins with an update in the mailbox
    push Not at hqueued
    obtain ⟨hrun, hstop, c, hc, ho⟩ := hqueued
    have ho : owed c = true := Bool.eq_true_of_not_eq_false ho
    refine ⟨hstop, ?_⟩
    rcases step_cases cfg size s st with ⟨c, _, _, _, ha⟩ | ⟨c', hh⟩ | hi
    · exact absurd (ha.phase.trans hrun) hstop
    · have hall : s.accepted =
          (s.handled.map Prod.snd ++ [c']) ++ (s.step cfg size st).mailbox := by
        rw [h.running hrun, hh.mailbox, List.append_assoc]
        rfl
      rw [hh.accepted, hh.handled, hall, List.map_append]
      exact length_lt_of_queued _ hc ho
    · rw [hi.accepted, hi.handled, h.running hrun]
      exact length_lt_of_queued _ (hi.mailbox hrun ▸ hc) ho
  · -- `send` accepts an update after `stop` has begun
    push Not at haccept
    obtain ⟨hstop, rfl, hspace, c, hc, ho⟩ := haccept
    have ho : owed c = true := Bool.eq_true_of_not_eq_false ho
    have hstep : s.step cfg size .enqueue = { s with
        mailbox := s.mailbox ++ [c], holder := none, accepted := s.accepted ++ [c] } := by
      simp only [System.step, Option.mem_def.1 hc, hspace, if_true]
    rw [hstep]
    refine ⟨hstop, ?_⟩
    have hlt := length_lt_of_queued s.accepted (List.mem_singleton_self c) ho
    rwa [h.stopping hstop] at hlt

/-! ### What handling does -/

theorem turn_frame {r : Room} {conn : Conn} {frame update : Bytes} (hw : conn.canWrite = true)
    (hin : (r.clientsOf conn).isSome) (hf : updateOf frame = some update)
    (hok : (r.doc.applyUpdate update).isOk) (now : ℤ) (outcomes : List Bool) :
    Holds r update (r.turn cfg ⟨.command (.frame conn frame), now, outcomes⟩).room := by
  cases happ : r.doc.applyUpdate update with
  | error x => simp [happ, Except.isOk, Except.toBool] at hok
  | ok doc =>
    have hturn : r.turn cfg ⟨.command (.frame conn frame), now, outcomes⟩ =
        ({ room := r, outcomes } : Handler).update cfg now conn update :=
      (frame_of_updateOf hf).trans (if_pos hin)
    obtain ⟨hrec, hdoc⟩ := Handler.update_applied (h := { room := r, outcomes }) hw happ
    rw [hturn]
    exact ⟨hrec ▸ List.mem_append_right _ (List.mem_singleton_self _), [], hdoc⟩

theorem Holds.onward {before r r' : Room} {update : Bytes} (h : Holds before update r)
    (ho : Onward r r') : Holds before update r' := by
  obtain ⟨hrec, l, hl⟩ := h
  obtain ⟨l', hl'⟩ := ho.doc
  exact ⟨ho.recorded.subset hrec, l ++ l', by rw [List.foldl_append, ← hl, hl']⟩

theorem Effective.step (h : s.Effective) (st : Step) : (s.step cfg size st).Effective := by
  intro before conn frame update hmem hw hin hf hok
  rcases step_cases cfg size s st with ⟨c, _, _, _, ha⟩ | ⟨c, hh⟩ | hi
  · rw [ha.room]
    exact h before conn frame update (ha.handled ▸ hmem) hw hin hf hok
  · obtain ⟨now, outcomes, hroom⟩ := hh.room
    rw [hroom]
    rw [hh.handled, List.mem_append, List.mem_singleton] at hmem
    rcases hmem with hmem | heq
    · exact (h before conn frame update hmem hw hin hf hok).onward (turn_onward ..)
    · obtain ⟨rfl, rfl⟩ := Prod.mk.inj heq
      exact turn_frame hw hin hf hok now outcomes
  · exact (h before conn frame update (hi.handled ▸ hmem) hw hin hf hok).onward hi.room

/-! ### Runs -/

theorem Lost.run {steps : List Step} (h : s.Lost) : (s.run cfg size steps).Lost := by
  induction steps generalizing s with
  | nil => exact h
  | cons st steps ih => exact ih (h.step st)

theorem Effective.run {steps : List Step} (h : s.Effective) :
    (s.run cfg size steps).Effective := by
  induction steps generalizing s with
  | nil => exact h
  | cons st steps ih => exact ih (h.step st)

variable (cfg size) in
theorem Intact.run (h : s.Intact) (steps : List Step) :
    (s.Undisturbed cfg size steps → (s.run cfg size steps).Intact) ∧
      (¬ s.Undisturbed cfg size steps → (s.run cfg size steps).Lost) := by
  induction steps generalizing s with
  | nil => exact ⟨fun _ => h, fun hbad => absurd trivial hbad⟩
  | cons st steps ih =>
    by_cases hok : s.Allowed cfg size st
    · obtain ⟨hkeep, hlose⟩ := ih (h.step hok)
      exact ⟨fun hall => hkeep hall.2, fun hbad => hlose fun hall => hbad ⟨hok, hall⟩⟩
    · exact ⟨fun hall => absurd hall.1 hok, fun _ => (h.lost hok).run⟩

/-- **No accepted update is lost at shutdown exactly if none was waiting.** In a run from a fresh
system that has entered `stop`, every update frame for which `send` returned nil was handled, and
what connected writers sent is in the document and was recorded, if and only if no update frame
was queued when `stop` began and none was accepted after that. -/
theorem accepted_updates_handled_iff (cfg : Config) (size : ℕ) (r : Room) (steps : List Step)
    (hstop : (run cfg size { room := r } steps).phase ≠ .running) :
    (run cfg size { room := r } steps).Honoured ↔
      Undisturbed cfg size { room := r } steps := by
  have hintact : Intact { room := r } := ⟨fun _ => rfl, fun h => absurd rfl h⟩
  have heff : Effective { room := r } := by
    intro before conn frame update hmem
    cases hmem
  obtain ⟨hkeep, hlose⟩ := hintact.run cfg size steps
  constructor
  · intro hon
    by_contra hbad
    have hlt := (hlose hbad).2
    rw [hon.1] at hlt
    exact lt_irrefl _ hlt
  · intro hall
    exact ⟨(hkeep hall).stopping hstop, heff.run⟩

namespace Closing

/-- A client that may write. -/
def writer : Conn := ⟨1, true⟩

/-- The text `ab` of client 1. -/
def letters : Bytes := [1, 1, 1, 0, 4, 1, 1, 116, 2, 97, 98, 0]

/-- `writer` joins. -/
def joining : List Step := [.lock (.join writer), .enqueue, .take 0 []]

/-- `writer` sends its letters and is told that they were accepted. -/
def sending : List Step := [.lock (.frame writer (writeUpdate letters)), .enqueue]

/-- The server shuts down. -/
def shutdown : List Step := [.cancel, .finish, .close, .drain, .exit]

/-- What becomes of a new room with a store. -/
def after (steps : List Step) : System := run { store := true } 256 { room := .new {} 0 } steps

end Closing

open Closing

/-- If the room goroutine takes the letters before it sees the cancellation, they are kept. -/
theorem letters_kept : Undisturbed { store := true } 256 { room := .new {} 0 }
      (joining ++ sending ++ [.take 0 []] ++ shutdown) ∧
    (after (joining ++ sending ++ [.take 0 []] ++ shutdown)).Honoured ∧
    (after (joining ++ sending ++ [.take 0 []] ++ shutdown)).room.recorded = [letters] := by
  have hall : Undisturbed { store := true } 256 { room := .new {} 0 }
      (joining ++ sending ++ [.take 0 []] ++ shutdown) := by decide
  exact ⟨hall, (accepted_updates_handled_iff _ _ _ _ (by decide)).2 hall, by decide⟩

/-- If the cancellation comes first, `send` has returned nil, and the letters are neither in the
document nor recorded. -/
theorem accepted_update_lost :
    .frame writer (writeUpdate letters) ∈ (after (joining ++ sending ++ shutdown)).accepted ∧
      (after (joining ++ sending ++ shutdown)).refused = [] ∧
      (after (joining ++ sending ++ shutdown)).phase = .gone ∧
      (after (joining ++ sending ++ shutdown)).room.recorded = [] ∧
      (after (joining ++ sending ++ shutdown)).room.doc.state 1 = 0 ∧
      ¬ (after (joining ++ sending ++ shutdown)).Honoured := by
  refine ⟨?_, by decide, by decide, by decide, by decide, fun hon => ?_⟩
  · exact List.mem_of_getElem? (i := 1) rfl
  · have hlen := congrArg List.length hon.1
    revert hlen
    decide

end System

end YCollab.Room
