import YCollab.Crdt.History
import YCollab.Data.Machine
import YCollab.Room.Turns
import YCollab.Store.Load

/-!
# The writer

`internal/room/persist.go`: the goroutine that writes what the room hands it. A `Session` is one
room from its load on, with its writer and the database. The room goroutine takes turns, the writer
takes jobs, and the two interleave in any way; a call to the database may fail, and it may fail
although it has been carried out.

A flush and the compaction after it are two calls, so there is a state between them
(`Writer.compacting`). The queue is not bounded here, and a room that asks for durable writes goes
on without waiting for them: both only add interleavings. Snapshots are kept in the row, which is
what a store without object storage does.

Three fields of a session are there for the proofs only: every row the log has had (`rows`), the
updates whose `Append` has reported an error since a snapshot was written (`unsaved`), and the
document as it was when an update was last recorded (`marked`).
-/

namespace YCollab.Room

open Lib0 Crdt Protocol Store

/-- How a call to the database ends. -/
inductive Outcome where
  | ok
  /-- It fails, and nothing was done. -/
  | failed
  /-- It fails, but it was carried out: the connection broke after the commit. -/
  | lost
  deriving DecidableEq

/-- `maxBatch`. -/
def maxBatch : ℕ := 256

/-- Where a room is stored, and the parts of the configuration that its writer reads. -/
structure Storage where
  id : UUID
  owner : UUID
  flate : Flate
  /-- What object storage holds, which older snapshots may be in. -/
  objects : Objects := fun _ => none
  /-- Whether every update is flushed by itself: the source has a negative `FlushInterval`. -/
  durable : Bool := false
  versionKeep : ℕ := 0

/-- The goroutine `persist`, with the field `folded` that nobody else reads. -/
structure Writer where
  /-- How many of the room's jobs it has taken. -/
  taken : ℕ := 0
  batch : List Bytes := []
  /-- The numbers of the rows that a new snapshot covers. -/
  folded : List ℕ := []
  /-- The snapshot that `compact` is called with next: the flush before it is done. -/
  compacting : Option Bytes := none
  /-- `persistDone` is closed. -/
  done : Bool := false

/-- A room, its writer and the database. -/
structure Session where
  room : Room
  writer : Writer := {}
  db : Database
  /-- The rows that the log of the document has had. -/
  rows : List UpdateRow := []
  /-- The updates whose `Append` has failed since a snapshot was written. -/
  unsaved : List Bytes := []
  /-- The document when an update was last recorded, or as it was loaded. -/
  marked : Doc := .empty

/-- Why `load` fails. -/
inductive OpenErr where
  | store (err : LoadErr)
  /-- The snapshot does not apply. -/
  | snapshot (err : Err)

/-- What a room makes of a stored document: the snapshot, then every row that is left; a row that
does not apply is skipped. -/
def restore (doc : Document) : Except Err Doc :=
  match doc.snapshot with
  | none => .ok (doc.updates.foldl Doc.receive .empty)
  | some snapshot => (Doc.empty.applyUpdate snapshot).map (doc.updates.foldl Doc.receive ·)

/-- What happens in a session. -/
inductive Action where
  /-- The room goroutine takes a turn. -/
  | turn (i : Input)
  /-- The writer takes a job, and the call it makes ends in `o`; `prune` is for the call of
  `PruneVersions` after a version. -/
  | take (now : ℕ) (o prune : Outcome)
  /-- The writer compacts. -/
  | compact (now : ℕ) (o : Outcome)
  /-- The writer's ticker fires. -/
  | tick (now : ℕ) (o : Outcome)
  /-- The writer finds its channel closed and empty. -/
  | exit (now : ℕ) (o : Outcome)
  /-- Another replica saves a version of the document. -/
  | elsewhere (now : ℕ) (payload stateVector : Bytes) (minAge : ℤ)

namespace Session

variable (p : Storage) (cfg : Config)

/-- `load`: the room before its first turn. -/
def load (limits : Limits) (db : Database) (now : ℕ) (clock : ℤ) : Except OpenErr Session :=
  match db.load p.flate p.objects p.id p.owner now with
  | .error err => .error (.store err)
  | .ok (db, doc) =>
    match restore doc with
    | .error err => .error (.snapshot err)
    | .ok d => .ok {
        room := { Room.new limits clock with doc := d, sinceSnapshot := doc.updates.length }
        writer := { folded := doc.seqs }
        db
        rows := db.logOf p.id
        marked := d }

variable (now : ℕ) (o : Outcome) (s : Session)

/-- The function `flush` of the writer. -/
def flush : Session :=
  if s.writer.batch = [] then s
  else
    match o, s.db.append p.id s.writer.batch now with
    | .ok, some (db, seqs) => { s with
        db
        writer := { s.writer with batch := [], folded := s.writer.folded ++ seqs }
        rows := s.rows ++ s.db.newRows p.id s.writer.batch now }
    | .lost, some (db, _) => { s with
        db
        writer := { s.writer with batch := [] }
        rows := s.rows ++ s.db.newRows p.id s.writer.batch now
        unsaved := s.unsaved ++ s.writer.batch }
    | _, _ => { s with
        writer := { s.writer with batch := [] }
        unsaved := s.unsaved ++ s.writer.batch }

/-- `compact`. -/
def compact (snapshot : Bytes) : Session :=
  if s.writer.folded = [] then s
  else
    match o, s.db.compact p.id (some (pack p.flate snapshot).1) (pack p.flate snapshot).2 none
      s.writer.folded now with
    | .ok, .ok db => { s with db, writer := { s.writer with folded := [] }, unsaved := [] }
    | .lost, .ok db => { s with db, unsaved := [] }
    -- a newer snapshot is there, which is taken to cover the rows
    | .ok, .error .stale => { s with writer := { s.writer with folded := [] } }
    | _, _ => s

/-- `saveVersion`: old versions go after a new one was written. -/
def saveVersion (prune : Outcome) (payload stateVector : Bytes) (minAge : ℤ) : Session :=
  if o = .failed then s
  else
    let (db, written) := s.db.saveVersion p.flate p.id now payload stateVector minAge
    if o = .ok ∧ written ∧ 0 < p.versionKeep ∧ prune ≠ .failed then
      { s with db := (db.pruneVersions p.id p.versionKeep).1 }
    else { s with db }

/-- An update joins the batch, which is flushed if it is full or somebody waits for it. -/
def add (update : Bytes) : Session :=
  let s := { s with writer := { s.writer with batch := s.writer.batch ++ [update] } }
  if maxBatch ≤ s.writer.batch.length ∨ p.durable then s.flush p now o else s

/-- One job. -/
def job (prune : Outcome) : Job → Session
  | .version payload stateVector _ minAge =>
    s.saveVersion p now o prune payload stateVector minAge
  | .snapshot snapshot =>
    -- everything queued before the snapshot has to be in the log first
    let s := s.flush p now o
    { s with writer := { s.writer with compacting := some snapshot } }
  | .payload update => s.add p now o update

/-- A turn of the room goroutine. -/
def turn (i : Input) : Session :=
  let room := (s.room.turn cfg i).room
  { s with
    room
    marked := if room.recorded.length = s.room.recorded.length then s.marked else room.doc }

/-- The writer waits for a job. -/
def Waiting : Prop := s.writer.done = false ∧ s.writer.compacting = none

instance : Decidable s.Waiting := inferInstanceAs (Decidable (_ ∧ _))

/-- One action, if it can happen. -/
def step : Action → Option Session
  | .turn i => if s.room.stopped then none else some (s.turn cfg i)
  | .take now o prune =>
    match s.room.jobs[s.writer.taken]? with
    | some job =>
      if s.Waiting then
        some ({ s with writer := { s.writer with taken := s.writer.taken + 1 } }.job p now o
          prune job)
      else none
    | none => none
  | .compact now o =>
    match s.writer.compacting with
    | some snapshot =>
      some ({ s with writer := { s.writer with compacting := none } }.compact p now o snapshot)
    | none => none
  | .tick now o => if s.Waiting then some (s.flush p now o) else none
  | .exit now o =>
    -- the room closes the channel when it stops
    if s.Waiting ∧ s.room.stopped ∧ s.room.jobs[s.writer.taken]? = none then
      let s := s.flush p now o
      some { s with writer := { s.writer with done := true } }
    else none
  | .elsewhere now payload stateVector minAge =>
    some { s with db := (s.db.saveVersion p.flate p.id now payload stateVector minAge).1 }

/-- The session after a list of actions, if they can happen. -/
def run (s : Session) (l : List Action) : Option Session := Machine.run (step p cfg) s l

/-! ### What the calls can do -/

variable {p cfg now o s} {snapshot : Bytes} {s' : Session}

theorem restore_ok {doc : Document} {d : Doc} (h : restore doc = .ok d) :
    ∃ d₀, d = doc.updates.foldl Doc.receive d₀ ∧ (doc.snapshot = none ∧ d₀ = .empty ∨
      ∃ b, doc.snapshot = some b ∧ Doc.empty.applyUpdate b = .ok d₀) := by
  unfold restore at h
  split at h
  next hs =>
    cases h
    exact ⟨_, rfl, .inl ⟨hs, rfl⟩⟩
  next b hs =>
    cases happly : Doc.empty.applyUpdate b with
    | error err =>
      rw [happly] at h
      cases h
    | ok d₀ =>
      rw [happly] at h
      cases h
      exact ⟨d₀, rfl, .inr ⟨b, hs, happly⟩⟩

theorem load_ok {limits : Limits} {db : Database} {clock : ℤ}
    (h : load p limits db now clock = .ok s) :
    ∃ db' doc d, db.load p.flate p.objects p.id p.owner now = .ok (db', doc) ∧
      restore doc = .ok d ∧ s = {
        room := { Room.new limits clock with doc := d, sinceSnapshot := doc.updates.length }
        writer := { folded := doc.seqs }
        db := db'
        rows := db'.logOf p.id
        marked := d } := by
  unfold load at h
  split at h
  · cases h
  next db' doc hdoc =>
    split at h
    · cases h
    next d hd =>
      cases h
      exact ⟨db', doc, d, hdoc, hd, rfl⟩

/-- The jobs that are still to be done, the one in hand first. -/
def ahead (s : Session) : List Job :=
  (s.writer.compacting.map Job.snapshot).toList ++ s.room.jobs.drop s.writer.taken

/-- What a flush can do. -/
theorem flush_cases (p : Storage) (now : ℕ) (o : Outcome) (s : Session) :
    (s.writer.batch = [] ∧ s.flush p now o = s) ∨
    (s.writer.batch ≠ [] ∧ o = .ok ∧ (s.db.find p.id).isSome ∧
      s.flush p now o = { s with
        db := { s.db with
          updates := s.db.updates ++ s.db.newRows p.id s.writer.batch now
          nextSeq := s.db.nextSeq + s.writer.batch.length }
        writer := { s.writer with
          batch := []
          folded := s.writer.folded ++ List.range' s.db.nextSeq s.writer.batch.length }
        rows := s.rows ++ s.db.newRows p.id s.writer.batch now }) ∨
    (s.writer.batch ≠ [] ∧ ((s.db.find p.id).isSome → o ≠ .ok) ∧
      s.flush p now o = { s with
        writer := { s.writer with batch := [] }, unsaved := s.unsaved ++ s.writer.batch }) ∨
    (s.writer.batch ≠ [] ∧ o ≠ .ok ∧
      s.flush p now o = { s with
        db := { s.db with
          updates := s.db.updates ++ s.db.newRows p.id s.writer.batch now
          nextSeq := s.db.nextSeq + s.writer.batch.length }
        writer := { s.writer with batch := [] }
        rows := s.rows ++ s.db.newRows p.id s.writer.batch now
        unsaved := s.unsaved ++ s.writer.batch }) := by
  by_cases hb : s.writer.batch = []
  · exact .inl ⟨hb, if_pos hb⟩
  · refine .inr ?_
    unfold flush
    rw [if_neg hb]
    cases hd : s.db.find p.id with
    | none =>
      have happend : s.db.append p.id s.writer.batch now = none := by
        unfold Database.append
        rw [if_neg hb, hd]
      rw [happend]
      exact .inr (.inl ⟨hb, by simp, by cases o <;> rfl⟩)
    | some d =>
      rw [Database.append_eq hd hb]
      cases o with
      | ok => exact .inl ⟨hb, rfl, rfl, rfl⟩
      | failed => exact .inr (.inl ⟨hb, by simp, rfl⟩)
      | lost => exact .inr (.inr ⟨hb, by simp, rfl⟩)

/-- What a compaction can do. -/
theorem compact_cases (p : Storage) (now : ℕ) (o : Outcome) (s : Session) (snapshot : Bytes) :
    ((o = .ok → s.writer.folded = [] ∨ s.db.find p.id = none) ∧
      s.compact p now o snapshot = s) ∨
    ((∃ d, s.db.find p.id = some d ∧ Database.watermark s.writer.folded ≤ d.snapshotSeq) ∧
      s.compact p now o snapshot = { s with writer := { s.writer with folded := [] } }) ∨
    ∃ db folded, s.db.compact p.id (some (pack p.flate snapshot).1) (pack p.flate snapshot).2 none
        s.writer.folded now = .ok db ∧ (folded = [] ∨ folded = s.writer.folded) ∧
      s.compact p now o snapshot =
        { s with db, writer := { s.writer with folded }, unsaved := [] } := by
  unfold compact
  by_cases hf : s.writer.folded = []
  · exact .inl ⟨fun _ => .inl hf, if_pos hf⟩
  · rw [if_neg hf]
    cases hc : s.db.compact p.id (some (pack p.flate snapshot).1) (pack p.flate snapshot).2 none
      s.writer.folded now with
    | ok db =>
      cases o with
      | ok => exact .inr (.inr ⟨db, [], rfl, .inl rfl, rfl⟩)
      | failed => exact .inl ⟨nofun, rfl⟩
      | lost => exact .inr (.inr ⟨db, _, rfl, .inr rfl, rfl⟩)
    | error err =>
      obtain ⟨rfl, hnone⟩ | ⟨rfl, hd⟩ := Database.newer_of_compact hc
      · exact .inl ⟨fun _ => .inr hnone, by cases o <;> rfl⟩
      · cases o with
        | ok => exact .inr (.inl ⟨hd, rfl⟩)
        | failed => exact .inl ⟨nofun, rfl⟩
        | lost => exact .inl ⟨nofun, rfl⟩

theorem saveVersion_cases (p : Storage) (now : ℕ) (o prune : Outcome) (s : Session)
    (payload sv : Bytes) (minAge : ℤ) :
    ∃ db, s.db.SameLog db ∧ s.saveVersion p now o prune payload sv minAge = { s with db } := by
  have hsame := Database.saveVersion_sameLog p.flate s.db p.id now payload sv minAge
  unfold saveVersion
  split
  · exact ⟨s.db, ⟨rfl, rfl, rfl⟩, rfl⟩
  · simp only
    split
    · refine ⟨_, ?_, rfl⟩
      exact ⟨hsame.documents, hsame.updates, hsame.nextSeq⟩
    · exact ⟨_, hsame, rfl⟩

/-! ### What the calls leave alone -/

/-- `s'` has the room of `s`, and the writer is where it was. -/
structure Beside (s s' : Session) : Prop where
  room : s'.room = s.room
  marked : s'.marked = s.marked
  taken : s'.writer.taken = s.writer.taken
  compacting : s'.writer.compacting = s.writer.compacting
  done : s'.writer.done = s.writer.done

theorem Beside.ahead (h : Beside s s') : s'.ahead = s.ahead := by
  rw [Session.ahead, Session.ahead, h.room, h.taken, h.compacting]

theorem flush_beside : Beside s (s.flush p now o) := by
  obtain ⟨-, h⟩ | ⟨-, -, -, h⟩ | ⟨-, -, h⟩ | ⟨-, -, h⟩ := flush_cases p now o s <;> rw [h] <;>
    exact ⟨rfl, rfl, rfl, rfl, rfl⟩

theorem compact_beside : Beside s (s.compact p now o snapshot) := by
  obtain ⟨-, h⟩ | ⟨-, h⟩ | ⟨_, _, -, -, h⟩ := compact_cases p now o s snapshot <;> rw [h] <;>
    exact ⟨rfl, rfl, rfl, rfl, rfl⟩

theorem flush_setTaken (p : Storage) (now : ℕ) (o : Outcome) (s : Session) (n : ℕ) :
    { s with writer := { s.writer with taken := n } }.flush p now o =
      { s.flush p now o with writer := { (s.flush p now o).writer with taken := n } } := by
  unfold flush
  simp only
  split
  · rfl
  · split <;> rfl

theorem flush_batch : (s.flush p now o).writer.batch = [] := by
  obtain ⟨hb, h⟩ | ⟨-, -, -, h⟩ | ⟨-, -, h⟩ | ⟨-, -, h⟩ := flush_cases p now o s <;> rw [h]
  exact hb

/-! ### The queue -/

theorem turn_of_recorded_eq {i : Input}
    (h : (s.room.turn cfg i).room.recorded = s.room.recorded) :
    s.turn cfg i = { s with room := (s.room.turn cfg i).room } := by
  simp [turn, h]

theorem turn_of_recorded_append {i : Input} {b : Bytes}
    (h : (s.room.turn cfg i).room.recorded = s.room.recorded ++ [b]) :
    s.turn cfg i = { s with
      room := (s.room.turn cfg i).room
      marked := (s.room.turn cfg i).room.doc } := by
  simp [turn, h]

theorem ahead_turn {r : Room} {m : Doc} {l : List Job}
    (hle : s.writer.taken ≤ s.room.jobs.length) (hjobs : r.jobs = s.room.jobs ++ l) :
    { s with room := r, marked := m }.ahead = s.ahead ++ l := by
  simp only [ahead, hjobs]
  rw [List.drop_append_of_le_length hle, List.append_assoc]

theorem ahead_take {job : Job} (hjob : s.room.jobs[s.writer.taken]? = some job)
    (hw : s.Waiting) : s.ahead =
      job :: { s with writer := { s.writer with taken := s.writer.taken + 1 } }.ahead := by
  simp only [ahead, hw.2, Option.map_none, Option.toList_none, List.nil_append]
  exact List.drop_eq_getElem?_toList_append ▸ by simp [hjob]

theorem ahead_compact (hc : s.writer.compacting = some snapshot) :
    s.ahead = .snapshot snapshot ::
      { s with writer := { s.writer with compacting := none } }.ahead := by
  simp [ahead, hc]

theorem split_append {q l pre post : List Job} {b : Bytes}
    (h : q ++ l = pre ++ .snapshot b :: post) :
    (∃ mid, q = pre ++ .snapshot b :: mid ∧ post = mid ++ l) ∨
      ∃ pre', l = pre' ++ .snapshot b :: post := by
  rcases List.append_eq_append_iff.1 h with ⟨mid, -, hl⟩ | ⟨mid, hq, hpost⟩
  · exact .inr ⟨mid, hl⟩
  · cases mid with
    | nil => exact .inr ⟨[], hpost.symm⟩
    | cons job mid =>
      rw [List.cons_append, List.cons.injEq] at hpost
      obtain ⟨rfl, hpost⟩ := hpost
      exact .inl ⟨mid, hq, hpost⟩

/-! ### The actions -/

/-- The writer has added an update to its batch. -/
def added (s : Session) (update : Bytes) : Session :=
  { s with writer := { s.writer with
    taken := s.writer.taken + 1, batch := s.writer.batch ++ [update] } }

/-- The writer has flushed, and has a snapshot in hand. -/
def inHand (p : Storage) (now : ℕ) (o : Outcome) (s : Session) (snapshot : Bytes) : Session :=
  { s.flush p now o with writer := { (s.flush p now o).writer with
    taken := s.writer.taken + 1, compacting := some snapshot } }

/-- What an action can do. -/
inductive Stepped (p : Storage) (cfg : Config) (s : Session) : Action → Session → Prop where
  | turn {i : Input} (hrun : s.room.stopped = false) :
      Stepped p cfg s (.turn i) (s.turn cfg i)
  | version {now : ℕ} {o prune : Outcome} {payload sv label : Bytes} {minAge : ℤ} (hw : s.Waiting)
      (hjob : s.room.jobs[s.writer.taken]? = some (.version payload sv label minAge)) :
      Stepped p cfg s (.take now o prune)
        ({ s with writer := { s.writer with taken := s.writer.taken + 1 } }.saveVersion p now o
          prune payload sv minAge)
  | snapshot {now : ℕ} {o prune : Outcome} {snapshot : Bytes} (hw : s.Waiting)
      (hjob : s.room.jobs[s.writer.taken]? = some (.snapshot snapshot)) :
      Stepped p cfg s (.take now o prune) (s.inHand p now o snapshot)
  /-- An update may be flushed at once. -/
  | payload {now : ℕ} {o prune : Outcome} {update : Bytes} {s' : Session} (hw : s.Waiting)
      (hjob : s.room.jobs[s.writer.taken]? = some (.payload update))
      (hs : s' = s.added update ∨ s' = (s.added update).flush p now o) :
      Stepped p cfg s (.take now o prune) s'
  | compact {now : ℕ} {o : Outcome} {snapshot : Bytes}
      (hc : s.writer.compacting = some snapshot) :
      Stepped p cfg s (.compact now o)
        ({ s with writer := { s.writer with compacting := none } }.compact p now o snapshot)
  | tick {now : ℕ} {o : Outcome} (hw : s.Waiting) :
      Stepped p cfg s (.tick now o) (s.flush p now o)
  | exit {now : ℕ} {o : Outcome} (hw : s.Waiting) (hstop : s.room.stopped = true)
      (hnone : s.room.jobs[s.writer.taken]? = none) :
      Stepped p cfg s (.exit now o) { s.flush p now o with
        writer := { (s.flush p now o).writer with done := true } }
  | elsewhere {now : ℕ} {payload sv : Bytes} {minAge : ℤ} :
      Stepped p cfg s (.elsewhere now payload sv minAge)
        { s with db := (s.db.saveVersion p.flate p.id now payload sv minAge).1 }

theorem stepped_take {job : Job} {prune : Outcome} (hw : s.Waiting)
    (hjob : s.room.jobs[s.writer.taken]? = some job) :
    Stepped p cfg s (.take now o prune)
      ({ s with writer := { s.writer with taken := s.writer.taken + 1 } }.job p now o prune
        job) := by
  cases job with
  | version payload sv label minAge => exact .version hw hjob
  | snapshot b =>
    simp only [job, flush_setTaken]
    exact .snapshot hw hjob
  | payload b =>
    refine .payload hw hjob ?_
    simp only [job, add]
    split
    · exact .inr rfl
    · exact .inl rfl

theorem stepped {a : Action} (h : s.step p cfg a = some s') : Stepped p cfg s a s' := by
  cases a with
  | turn i =>
    simp only [step] at h
    split at h
    · cases h
    next hrun =>
      cases h
      exact .turn (by simpa using hrun)
  | take now o prune =>
    simp only [step] at h
    split at h
    next job hjob =>
      split at h
      next hw =>
        cases h
        exact stepped_take hw hjob
      · cases h
    · cases h
  | compact now o =>
    simp only [step] at h
    split at h
    next snapshot hc =>
      cases h
      exact .compact hc
    · cases h
  | tick now o =>
    simp only [step] at h
    split at h
    next hw =>
      cases h
      exact .tick hw
    · cases h
  | exit now o =>
    simp only [step] at h
    split at h
    next hw =>
      cases h
      exact .exit hw.1 hw.2.1 hw.2.2
    · cases h
  | elsewhere now payload sv minAge =>
    cases h
    exact .elsewhere

/-- The writer and the other replicas leave the room alone. -/
theorem room_of_step {a : Action} (ha : ∀ i, a ≠ .turn i) (h : s.step p cfg a = some s') :
    s'.room = s.room ∧ s'.marked = s.marked := by
  cases stepped h with
  | turn => exact absurd rfl (ha _)
  | @version now o prune payload sv label minAge hw hjob =>
    obtain ⟨db, -, heq⟩ := saveVersion_cases p now o prune
      { s with writer := { s.writer with taken := s.writer.taken + 1 } } payload sv minAge
    rw [heq]
    exact ⟨rfl, rfl⟩
  | @snapshot now o prune b hw hjob =>
    have hbeside : Beside s (s.flush p now o) := flush_beside
    exact ⟨hbeside.room, hbeside.marked⟩
  | @payload now o prune update s' hw hjob hs =>
    rcases hs with rfl | rfl
    · exact ⟨rfl, rfl⟩
    · have hbeside : Beside (s.added update) ((s.added update).flush p now o) := flush_beside
      exact ⟨hbeside.room, hbeside.marked⟩
  | @compact now o snapshot hc =>
    have hbeside : Beside { s with writer := { s.writer with compacting := none } }
        ({ s with writer := { s.writer with compacting := none } }.compact p now o snapshot) :=
      compact_beside
    exact ⟨hbeside.room, hbeside.marked⟩
  | tick => exact ⟨flush_beside.room, flush_beside.marked⟩
  | exit => exact ⟨flush_beside.room, flush_beside.marked⟩
  | elsewhere => exact ⟨rfl, rfl⟩

theorem lt_of_job {job : Job} (hjob : s.room.jobs[s.writer.taken]? = some job) :
    s.writer.taken + 1 ≤ s.room.jobs.length := (List.getElem?_eq_some_iff.1 hjob).1

theorem ahead_inHand (hw : s.Waiting)
    (hjob : s.room.jobs[s.writer.taken]? = some (.snapshot snapshot)) :
    (s.inHand p now o snapshot).ahead = s.ahead := by
  have hbeside : Beside s (s.flush p now o) := flush_beside
  rw [ahead_take hjob hw]
  simp [ahead, inHand, hbeside.room, hw.2]

end Session

end YCollab.Room
