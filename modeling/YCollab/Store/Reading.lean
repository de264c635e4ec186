import YCollab.Data.Machine
import YCollab.Store.Load

/-!
# Loading while others write

`Load`, statement by statement, while other replicas append to documents and compact them.  Every
statement sees what is committed when it starts, as in a transaction of the level READ COMMITTED;
`Append` is one statement, and of `Compact` it matters when it is committed.

`Load` reads the snapshot first and the log after it.  A `Compact` that is committed in between moves
rows from the log into a snapshot that `Load` does not see any more, and `Load` returns neither
(`compacted_row_missed`).  In runs without that it returns everything that was committed when it
began (`load_consistent`).

What a snapshot contains is a parameter: each `Compact` is assumed to write a snapshot that contains
the rows it names and what the snapshot contains that it replaces.  Snapshots are stored in the row.
-/

namespace YCollab.Store

namespace Reading

/-- Where the `Load` is. -/
inductive Phase where
  | idle
  /-- It has begun its transaction. -/
  | begun
  /-- The row of the document is there. -/
  | inserted
  /-- The document belongs to the caller. -/
  | ensured
  /-- It has read the snapshot. -/
  | read (snapshot : Option Bytes)
  | returned (doc : Document)
  | failed (err : LoadErr)

/-- What happens next. -/
inductive Action where
  | begin
  /-- The statement that creates the row unless it is there. -/
  | insert
  /-- The statement that reads the owner. -/
  | owner
  /-- The statement that reads the snapshot. -/
  | snapshot
  /-- The statement that reads the log. -/
  | log
  | append (id : UUID) (payloads : List Bytes)
  /-- The transaction of a `Compact` is committed. -/
  | compact (id : UUID) (snapshot : Bytes) (folded : List ℕ)
  | tick

end Reading

open Reading

/-- The database and the `Load` that runs on it. -/
structure Reading where
  db : Database := {}
  now : ℕ := 0
  phase : Phase := .idle
  /-- What was committed when the `Load` began. -/
  began : Database := {}

namespace Reading

section

variable (flate : Flate) (id owner : UUID) (s : Reading)

/-- One action: the reader goes on, or somebody writes. -/
def step : Action → Option Reading
  | .begin =>
    match s.phase with
    | .idle => some { s with phase := .begun, began := s.db }
    | _ => none
  | .insert =>
    match s.phase with
    | .begun => some { s with db := (s.db.ensureIn id owner s.now).1, phase := .inserted }
    | _ => none
  | .owner =>
    match s.phase with
    | .inserted =>
      match s.db.find id with
      | none => some { s with phase := .failed .missing }
      | some d =>
        if d.owner = owner then some { s with phase := .ensured }
        else some { s with phase := .failed .wrongOwner }
    | _ => none
  | .snapshot =>
    match s.phase with
    | .ensured =>
      match s.db.find id with
      | none => some { s with phase := .failed .missing }
      | some d =>
        match d.readSnapshot flate fun _ => none with
        | .error err => some { s with phase := .failed (.read err) }
        | .ok snapshot => some { s with phase := .read snapshot }
    | _ => none
  | .log =>
    match s.phase with
    | .read snapshot =>
      let rows := s.db.logOf id
      some { s with phase := .returned ⟨snapshot, rows.map (·.payload), rows.map (·.seq)⟩ }
    | _ => none
  | .append id payloads =>
    match s.db.append id payloads s.now with
    | some (db, _) => some { s with db }
    | none => none
  | .compact id snapshot folded =>
    let (packed, codec) := pack flate snapshot
    match s.db.compact id (some packed) codec none folded s.now with
    | .ok db => some { s with db }
    | .error _ => none
  | .tick => some { s with now := s.now + 1 }

end

theorem run_of_load {flate : Flate} {id owner : UUID} {db db' : Database} {now : ℕ}
    {doc : Document} (h : db.load flate (fun _ => none) id owner now = .ok (db', doc)) :
    Machine.run (Reading.step flate id owner) { db, now } [.begin, .insert, .owner, .snapshot, .log] =
      some { db := db', now, phase := .returned doc, began := db } := by
  obtain ⟨d, hd, howner, hread, hupdates, hseqs⟩ := Database.exists_row_of_load h
  have hdb := Database.ensureIn_of_load h
  obtain ⟨snapshot, updates, seqs⟩ := doc
  simp only at hread hupdates hseqs
  simp only [Machine.run_cons, Machine.run_nil, step, Option.bind_some, ← hdb, hd, howner, if_true,
    hread, hupdates, hseqs]

/-! ### What is stored -/

section

variable (contains : Bytes → Bytes → Prop) (flate : Flate) (id : UUID)

/-- The update is in the snapshot of the document. -/
def InSnapshot (db : Database) (u : Bytes) : Prop :=
  ∃ d b, db.find id = some d ∧ d.readSnapshot flate (fun _ => none) = .ok (some b) ∧ contains b u

/-- The update is in the log of the document. -/
def InLog (db : Database) (u : Bytes) : Prop := ∃ r ∈ db.logOf id, r.payload = u

/-- The update is committed. -/
def Stored (db : Database) (u : Bytes) : Prop := InLog id db u ∨ InSnapshot contains flate id db u

/-- A `Compact` writes a snapshot that contains the rows it names and the snapshot it replaces. -/
def Sound (db : Database) (snapshot : Bytes) (folded : List ℕ) : Prop :=
  (∀ r ∈ db.logOf id, r.seq ∈ folded → contains snapshot r.payload) ∧
    ∀ u, InSnapshot contains flate id db u → contains snapshot u

/-- Every `Compact` of the document is sound, and none is committed between the two reads. -/
def Undisturbed (s : Reading) : Action → Prop
  | .compact id' snapshot folded => id' = id →
      Sound contains flate id s.db snapshot folded ∧ ∀ b, s.phase ≠ .read b
  | _ => True

end

variable {contains : Bytes → Bytes → Prop} {flate : Flate} {id owner : UUID} {s s' : Reading}
  {db db' : Database} {u : Bytes}

/-- The document keeps its row, and its log all rows. -/
structure Keeps (id : UUID) (db db' : Database) : Prop where
  find : ∀ d, db.find id = some d → db'.find id = some d
  log : ∀ r ∈ db.logOf id, r ∈ db'.logOf id

theorem Keeps.inLog (h : Keeps id db db') (hu : InLog id db u) : InLog id db' u := by
  obtain ⟨r, hr, rfl⟩ := hu
  exact ⟨r, h.log r hr, rfl⟩

theorem Keeps.stored (h : Keeps id db db') (hu : Stored contains flate id db u) :
    Stored contains flate id db' u := by
  rcases hu with hlog | ⟨d, b, hd, hb, hu⟩
  · exact .inl (h.inLog hlog)
  · exact .inr ⟨d, b, h.find d hd, hb, hu⟩

theorem keeps_ensureIn (db : Database) (id owner : UUID) (now : ℕ) :
    Keeps id db (db.ensureIn id owner now).1 := by
  have hgrows := Database.ensureIn_grows db id owner now
  exact ⟨hgrows.find, fun r hr => hgrows.log.subset hr⟩

theorem keeps_append {id' : UUID} {payloads : List Bytes} {now : ℕ} {seqs : List ℕ}
    (h : db.append id' payloads now = some (db', seqs)) : Keeps id db db' := by
  refine ⟨fun d hd => (Database.find_append h id).trans hd, fun r hr => ?_⟩
  rw [Database.mem_logOf] at hr ⊢
  refine ⟨?_, hr.2⟩
  unfold Database.append at h
  split at h
  · cases h
    exact hr.1
  · split at h <;> cases h
    exact List.mem_append_left _ hr.1

theorem keeps_compact {id' : UUID} {snapshot : Option Bytes} {codec : Codec} {key : Option Key}
    {folded : List ℕ} {now : ℕ} (hne : id' ≠ id)
    (h : db.compact id' snapshot codec key folded now = .ok db') : Keeps id db db' := by
  refine ⟨fun d hd => (Database.find_of_compact_of_ne hne h).trans hd, fun r hr => ?_⟩
  rw [Database.mem_logOf] at hr ⊢
  rw [Database.updates_of_compact h, List.mem_filter]
  refine ⟨⟨hr.1, decide_eq_true fun hfolded => hne ?_⟩, hr.2⟩
  exact hfolded.1.symm.trans hr.2

/-- **A sound `Compact` loses nothing** that is committed. -/
theorem Sound.stored {snapshot : Bytes} {folded : List ℕ} {now : ℕ}
    (h : Sound contains flate id db snapshot folded)
    (hc : db.compact id (some (pack flate snapshot).1) (pack flate snapshot).2 none folded now =
      .ok db') (hu : Stored contains flate id db u) : Stored contains flate id db' u := by
  obtain ⟨d, -, -, hd⟩ := Database.find_of_compact hc
  have hnew : contains snapshot u → Stored contains flate id db' u := fun hu =>
    .inr ⟨_, snapshot, hd, DocumentRow.readSnapshot_inline flate _ rfl rfl rfl, hu⟩
  rcases hu with ⟨r, hr, rfl⟩ | hold
  · by_cases hfolded : r.seq ∈ folded
    · exact hnew (h.1 r hr hfolded)
    · refine .inl ⟨r, ?_, rfl⟩
      rw [Database.mem_logOf] at hr ⊢
      rw [Database.updates_of_compact hc, List.mem_filter]
      exact ⟨⟨hr.1, decide_eq_true fun h => hfolded h.2⟩, hr.2⟩
  · exact hnew (h.2 u hold)

/-! ### The run of a `Load` -/

/-- The update is still to be read by a `Load` that is in this phase, or was. -/
def Phase.Expects (contains : Bytes → Bytes → Prop) (flate : Flate) (id : UUID) (db : Database)
    (u : Bytes) : Phase → Prop
  | .idle | .failed _ => True
  | .begun | .inserted | .ensured => Stored contains flate id db u
  | .read snapshot => InLog id db u ∨ ∃ b, snapshot = some b ∧ contains b u
  | .returned doc => u ∈ doc.updates ∨ ∃ b, doc.snapshot = some b ∧ contains b u

theorem Phase.Expects.keeps {p : Phase} (h : p.Expects contains flate id db u)
    (hk : Keeps id db db') : p.Expects contains flate id db' u := by
  cases p with
  | idle => exact trivial
  | failed err => exact trivial
  | begun => exact Keeps.stored hk h
  | inserted => exact Keeps.stored hk h
  | ensured => exact Keeps.stored hk h
  | read b => exact Or.imp_left hk.inLog h
  | returned doc => exact h

/-- The invariant: nothing is missed that was committed when the `Load` began. -/
def Complete (contains : Bytes → Bytes → Prop) (flate : Flate) (id : UUID) (s : Reading) : Prop :=
  ∀ u, Stored contains flate id s.began u → s.phase.Expects contains flate id s.db u

theorem Complete.compact (h : Complete contains flate id s) {snapshot : Bytes} {folded : List ℕ}
    {now : ℕ} (hs : Sound contains flate id s.db snapshot folded) (hp : ∀ b, s.phase ≠ .read b)
    (hc : s.db.compact id (some (pack flate snapshot).1) (pack flate snapshot).2 none folded now =
      .ok db) : Complete contains flate id { s with db } := by
  intro u hu
  have hexp := h u hu
  cases hphase : s.phase with
  | idle => exact trivial
  | failed err => exact trivial
  | begun => rw [hphase] at hexp; exact hs.stored hc hexp
  | inserted => rw [hphase] at hexp; exact hs.stored hc hexp
  | ensured => rw [hphase] at hexp; exact hs.stored hc hexp
  | read b => exact absurd hphase (hp b)
  | returned doc => rw [hphase] at hexp; exact hexp

theorem Complete.step (h : Complete contains flate id s) {a : Action}
    (ha : Undisturbed contains flate id s a) (hs' : s.step flate id owner a = some s') :
    Complete contains flate id s' := by
  cases a with
  | begin =>
    simp only [Reading.step] at hs'
    split at hs' <;> cases hs'
    exact fun u hu => hu
  | insert =>
    simp only [Reading.step] at hs'
    split at hs' <;> cases hs'
    next hp =>
      intro u hu
      have hexp := h u hu
      rw [hp] at hexp
      exact Keeps.stored (keeps_ensureIn s.db id owner s.now) hexp
  | owner =>
    simp only [Reading.step] at hs'
    split at hs'
    next hp =>
      split at hs'
      · cases hs'
        exact fun u hu => trivial
      · split at hs' <;> cases hs'
        · intro u hu
          have hexp := h u hu
          rw [hp] at hexp
          exact hexp
        · exact fun u hu => trivial
    next => cases hs'
  | snapshot =>
    simp only [Reading.step] at hs'
    split at hs'
    next hp =>
      split at hs'
      · cases hs'
        exact fun u hu => trivial
      next d hd =>
        split at hs' <;> cases hs'
        · exact fun u hu => trivial
        next snapshot hread =>
          intro u hu
          have hexp := h u hu
          rw [hp] at hexp
          refine hexp.imp_right ?_
          rintro ⟨d', b, hd', hb, hcontains⟩
          cases hd.symm.trans hd'
          cases hread.symm.trans hb
          exact ⟨b, rfl, hcontains⟩
    next => cases hs'
  | log =>
    simp only [Reading.step] at hs'
    split at hs' <;> cases hs'
    next hp =>
      intro u hu
      have hexp := h u hu
      rw [hp] at hexp
      refine hexp.imp_left ?_
      rintro ⟨r, hr, rfl⟩
      exact List.mem_map_of_mem hr
  | append id' payloads =>
    simp only [Reading.step] at hs'
    split at hs' <;> cases hs'
    next db seqs hdb => exact fun u hu => (h u hu).keeps (keeps_append hdb)
  | compact id' snapshot folded =>
    simp only [Reading.step] at hs'
    split at hs' <;> cases hs'
    next db hdb =>
      by_cases hid : id' = id
      · obtain ⟨hsound, hphase⟩ := ha hid
        subst hid
        exact h.compact hsound hphase hdb
      · exact fun u hu => (h u hu).keeps (keeps_compact hid hdb)
  | tick =>
    cases hs'
    exact h

end Reading

open Reading in
/-- **`Load` returns a consistent document** in every run in which no `Compact` of the document is
committed between the two reads: everything that was committed when it began is in the snapshot or in
the updates that it returns. -/
theorem load_consistent {contains : Bytes → Bytes → Prop} {flate : Flate} {id owner : UUID}
    {s₀ s : Reading} {l : List Action} (h₀ : s₀.phase = .idle)
    (hl : Machine.Along (Reading.step flate id owner) (Undisturbed contains flate id) s₀ l)
    (hrun : Machine.run (Reading.step flate id owner) s₀ l = some s) {doc : Document}
    (hdoc : s.phase = .returned doc) {u : Bytes} (hu : Stored contains flate id s.began u) :
    u ∈ doc.updates ∨ ∃ b, doc.snapshot = some b ∧ contains b u := by
  have hstart : Complete contains flate id s₀ := fun u _ => by rw [h₀]; exact trivial
  have hcomplete := Machine.invariant (fun h ha hs => Complete.step h ha hs) hstart hl hrun
  have hexp := hcomplete u hu
  rwa [hdoc] at hexp

namespace Reading.Sample

/-- The runs below are about one document. -/
def step : Reading → Action → Option Reading := Reading.step .verbatim nilUUID nilUUID

/-- A document with one row in its log. -/
def written : Reading where
  db := { documents := [{ id := nilUUID, owner := nilUUID, updatedAt := 0 }]
          updates := [⟨nilUUID, 1, [7], 0⟩]
          nextSeq := 2 }

/-- The row is compacted before the snapshot is read. -/
def before : List Action :=
  [.begin, .compact nilUUID [7] [1], .insert, .owner, .snapshot, .append nilUUID [[8]], .log]

/-- The row is compacted after the snapshot was read. -/
def between : List Action :=
  [.begin, .insert, .owner, .snapshot, .compact nilUUID [7] [1], .log]

end Reading.Sample

open Reading Reading.Sample in
/-- A row that is compacted before the snapshot is read is in the snapshot. -/
theorem compacted_row_read : ∃ s, Machine.run step written before = some s ∧
    ∃ doc, s.phase = .returned doc ∧ doc.updates = [[8]] ∧
      ([7] ∈ doc.updates ∨ ∃ b, doc.snapshot = some b ∧ b = [7]) := by
  have hrun : Machine.run step written before = some _ := rfl
  refine ⟨_, hrun, _, rfl, rfl, load_consistent rfl ?_ hrun rfl ?_⟩
  · refine .cons trivial rfl (.cons (fun _ => ⟨⟨?_, ?_⟩, nofun⟩) rfl (.of_forall ?_ _))
    · decide
    · rintro u ⟨d, b, ⟨⟩, ⟨⟩, -⟩
    · simp [Undisturbed]
  · exact .inl ⟨⟨nilUUID, 1, [7], 0⟩, by decide, rfl⟩

open Reading Reading.Sample in
/-- **A row that is compacted between the reads is missed**: it was committed when the `Load` began,
and `Load` returns an empty document. -/
theorem compacted_row_missed : ∃ s, Machine.run step written between = some s ∧
    ⟨nilUUID, 1, [7], 0⟩ ∈ s.began.logOf nilUUID ∧ s.phase = .returned ⟨none, [], []⟩ ∧
    ∃ d, s.db.find nilUUID = some d ∧ d.readSnapshot .verbatim (fun _ => none) = .ok (some [7]) :=
  ⟨_, rfl, by decide, rfl, _, rfl, rfl⟩

end YCollab.Store
