import YCollab.Crdt.Snapshot
import YCollab.Room.Absorbed

/-!
# Eviction writes out what the room holds

A room that stops hands its writer a last snapshot and waits until the writer is done. Then a load
should give back everything the room has, even if calls to the database have failed before. It does
unless the last snapshot is not written at all: `compact` returns at once when it has no rows to
name, and `Compact` writes nothing unless one of the rows is newer than the stored snapshot. So an
update whose `Append` has failed is lost if nothing was appended after it.

A session is `Due` as long as there are rows for the last compaction. The theorem is
`eviction_writes_out`: the next load gives back what the connections sent to a room that stops while
nothing is unsaved, or while it is due. `failed_append_lost` is what happens otherwise.
-/

namespace YCollab.Room

open Lib0 Crdt Protocol Store

/-- The document is given back by whoever loads the snapshot. -/
def Rebuilds (snapshot : Bytes) (doc : Doc) : Prop :=
  ∃ u, decodeUpdate snapshot = .ok u ∧ (Doc.empty.applyDecodedUpdate u).Contains doc

theorem Rebuilds.mono {snapshot : Bytes} {d d' : Doc} (h : Rebuilds snapshot d')
    (hcontains : d'.Contains d) : Rebuilds snapshot d := by
  obtain ⟨u, hu, hdoc⟩ := h
  exact ⟨u, hu, hdoc.trans hcontains⟩

/-- Nobody hands over an update. -/
def NoUpdates (l : List Job) : Prop := ∀ b, .payload b ∉ l

/-- A room whose document is within the limits of the format hands over a snapshot that gives it
back. -/
theorem snapshotJobs_eq {cfg : Config} {bs : List Bytes} (hstore : cfg.store = true)
    (hbs : ∀ b ∈ bs, b.length ≤ maxSafeInteger) (hw : (Doc.replay bs).Writable) :
    ∃ snapshot, snapshotJobs cfg (.replay bs) = [.snapshot snapshot] ∧
      Rebuilds snapshot (.replay bs) := by
  obtain ⟨b, u, henc, hdec, hcontains⟩ := Doc.snapshot_contains (Doc.replay_regular bs)
    (Doc.replay_legible hbs).1 (Doc.replay_founded hbs) hw
  refine ⟨b, ?_, u, hdec, hcontains⟩
  unfold snapshotJobs
  rw [if_pos hstore, henc]

/-- Whether an action comes from another replica, over the bus. -/
def Action.isRemote : Action → Bool
  | .turn i => i.event.isRemote
  | _ => false

namespace Session

variable {p : Storage} {cfg : Config} {s s' : Session} {now : ℕ} {o : Outcome} {l : List Job}

/-- There will be a row for the next compaction that is newer than the stored snapshot. -/
def Due (p : Storage) (s : Session) : Prop :=
  s.writer.batch ≠ [] ∨ (∃ b, .payload b ∈ s.ahead) ∨
    ∃ d, s.db.find p.id = some d ∧ ∃ n ∈ s.writer.folded, d.snapshotSeq < n

/-- A load gives back the document. -/
def GivesBack (p : Storage) (db : Database) (doc : Doc) : Prop :=
  ∃ d snapshot d', db.find p.id = some d ∧ d.readSnapshot p.flate p.objects = .ok snapshot ∧
    restore ⟨snapshot, (db.logOf p.id).map (·.payload), (db.logOf p.id).map (·.seq)⟩ = .ok d' ∧
    d'.Contains doc

/-- What holds of a session as long as its room may stop only while it is due or has everything
saved. -/
structure Lasting (p : Storage) (s : Session) : Prop where
  taken_le : s.writer.taken ≤ s.room.jobs.length
  replayed : ∃ bs, (∀ b ∈ bs, b.length ≤ maxSafeInteger) ∧ s.room.doc = .replay bs
  contains : s.room.doc.Contains s.marked
  row : ∃ d, s.db.find p.id = some d ∧ d.owner = p.owner ∧ d.snapshotSeq < s.db.nextSeq
  folded_lt : ∀ n ∈ s.writer.folded, n < s.db.nextSeq
  /-- The flush comes before the compaction. -/
  flushed : s.writer.compacting ≠ none → s.writer.batch = []
  /-- The last snapshot in the queue has everything, if no update comes after it. -/
  fresh : ∀ pre b post, s.ahead = pre ++ .snapshot b :: post → NoUpdates post → Rebuilds b s.marked
  saved : s.unsaved = [] ∨ s.room.stopped = true → ¬s.Due p → GivesBack p s.db s.marked
  /-- There is a snapshot to come after what is due. -/
  last : s.room.stopped = true → s.Due p →
    ∃ pre b post, s.ahead = pre ++ .snapshot b :: post ∧ NoUpdates post
  ended : s.writer.done = true → s.room.stopped = true ∧ s.ahead = [] ∧ s.writer.batch = []

instance : Decidable (s.Due p) :=
  have : Decidable (∃ b, Job.payload b ∈ s.ahead) :=
    decidable_of_iff (s.ahead.any fun job => job matches .payload _) (by
      simp only [List.any_eq_true]
      constructor
      · rintro ⟨job, hmem, hjob⟩
        cases job with
        | payload b => exact ⟨b, hmem⟩
        | snapshot b => cases hjob
        | version payload sv label minAge => cases hjob
      · rintro ⟨b, hb⟩
        exact ⟨_, hb, rfl⟩)
  have : Decidable (∃ d, s.db.find p.id = some d ∧ ∃ n ∈ s.writer.folded, d.snapshotSeq < n) :=
    inferInstanceAs (Decidable (∃ d ∈ s.db.find p.id, ∃ n ∈ s.writer.folded, d.snapshotSeq < n))
  inferInstanceAs (Decidable (_ ∨ _ ∨ _))

/-- What has to hold of an action, in the state it happens in. -/
def Fits (p : Storage) (cfg : Config) (s : Session) : Action → Prop
  | .turn i =>
    (∀ b ∈ i.event.update, b.length ≤ maxSafeInteger) ∧
    (s.room.turn cfg i).room.doc.Writable ∧
    ((s.room.turn cfg i).room.stopped = true → s.unsaved = [] ∨ s.Due p)
  | .take _ o _ | .compact _ o | .tick _ o | .exit _ o => s.room.stopped = true → o = .ok
  | .elsewhere .. => True

instance (s : Session) : ∀ a, Decidable (s.Fits p cfg a)
  | .turn _ => inferInstanceAs (Decidable (_ ∧ _ ∧ _))
  | .take .. | .compact .. | .tick .. | .exit .. => inferInstanceAs (Decidable (_ → _))
  | .elsewhere .. => inferInstanceAs (Decidable True)

/-! ### The room's turns -/

/-- The room goes on without recording an update. -/
theorem Lasting.goes (h : s.Lasting p) (hrun : s.room.stopped = false) {r : Room}
    (hreplayed : ∃ bs, (∀ b ∈ bs, b.length ≤ maxSafeInteger) ∧ r.doc = .replay bs)
    (hcontains : r.doc.Contains s.room.doc) (hjobs : r.jobs = s.room.jobs ++ l)
    (hnone : NoUpdates l) (hl : ∀ b, .snapshot b ∈ l → Rebuilds b s.room.doc)
    (hstop : r.stopped = true → (s.unsaved = [] ∨ s.Due p) ∧ ∃ pre b, l = pre ++ [.snapshot b]) :
    { s with room := r }.Lasting p := by
  have hahead : { s with room := r }.ahead = s.ahead ++ l := ahead_turn h.taken_le hjobs
  have hdue : { s with room := r }.Due p ↔ s.Due p := by
    unfold Due
    rw [hahead]
    simp only [List.mem_append, hnone _, or_false]
  refine ⟨?_, hreplayed, hcontains.trans h.contains, h.row, h.folded_lt, h.flushed, ?_, ?_, ?_, ?_⟩
  · show s.writer.taken ≤ r.jobs.length
    rw [hjobs, List.length_append]
    exact h.taken_le.trans (Nat.le_add_right ..)
  · intro pre b post heq hpost
    rw [hahead] at heq
    rcases split_append heq with ⟨mid, hq, rfl⟩ | ⟨pre', hl'⟩
    · exact h.fresh pre b mid hq fun c hc => hpost c (List.mem_append_left _ hc)
    · exact (hl b (by rw [hl']; simp)).mono h.contains
  · intro hsaved hnot
    rw [hdue] at hnot
    rcases hsaved with hsaved | hstopped
    · exact h.saved (.inl hsaved) hnot
    · exact h.saved (.inl ((hstop hstopped).1.resolve_right hnot)) hnot
  · intro hstopped hd
    obtain ⟨-, pre, b, rfl⟩ := hstop hstopped
    exact ⟨s.ahead ++ pre, b, [], by rw [hahead, List.append_assoc], nofun⟩
  · exact fun hdone => by cases hrun.symm.trans (h.ended hdone).1

theorem Lasting.stays (h : s.Lasting p) (hrun : s.room.stopped = false) {r : Room}
    (hdoc : r.doc = s.room.doc) (hjobs : r.jobs = s.room.jobs ++ l) (hnone : NoUpdates l)
    (hl : ∀ b, .snapshot b ∈ l → Rebuilds b s.room.doc)
    (hstop : r.stopped = true → (s.unsaved = [] ∨ s.Due p) ∧ ∃ pre b, l = pre ++ [.snapshot b]) :
    { s with room := r }.Lasting p := by
  refine h.goes hrun ?_ ?_ hjobs hnone hl hstop
  · rw [hdoc]
    exact h.replayed
  · rw [hdoc]
    exact .refl _

theorem Lasting.aside (h : s.Lasting p) (hrun : s.room.stopped = false) {r : Room}
    (ha : Aside s.room r) : { s with room := r }.Lasting p := by
  obtain ⟨l, hjobs, hl⟩ := ha.jobs
  refine h.stays hrun ha.doc hjobs (fun b hb => ?_) (fun b hb => ?_) ?_
  · obtain ⟨_, _, _, _, heq⟩ := hl _ hb
    cases heq
  · obtain ⟨_, _, _, _, heq⟩ := hl _ hb
    cases heq
  · rw [ha.stopped, hrun]
    exact nofun

theorem Lasting.integrates (h : s.Lasting p) {b : Bytes} {doc : Doc}
    (hsize : b.length ≤ maxSafeInteger) (happly : s.room.doc.applyUpdate b = .ok doc) :
    (∃ bs, (∀ c ∈ bs, c.length ≤ maxSafeInteger) ∧ doc = .replay bs) ∧
      doc.Contains s.room.doc := by
  obtain ⟨bs, hbs, hreplay⟩ := h.replayed
  have hdoc : doc = s.room.doc.receive b := by rw [Doc.receive, happly]
  refine ⟨⟨bs ++ [b], fun c hc => ?_, ?_⟩, ?_⟩
  · rcases List.mem_append.1 hc with hc | hc
    · exact hbs c hc
    · exact List.mem_singleton.1 hc ▸ hsize
  · rw [hdoc, Doc.replay_snoc, hreplay]
  · rw [hdoc, hreplay]
    exact ((Doc.replay_regular bs).foldl_receive [b]).2

/-- The room records an update, and there may be enough of them for a compaction. -/
theorem Lasting.records (h : s.Lasting p) (hrun : s.room.stopped = false) {r : Room} {b : Bytes}
    {bs : List Bytes} (hbs : ∀ c ∈ bs, c.length ≤ maxSafeInteger) (hdoc : r.doc = .replay bs)
    (hjobs : r.jobs = s.room.jobs ++ .payload b :: l) (hl : ∀ c, .snapshot c ∈ l → Rebuilds c r.doc)
    (hstopped : r.stopped = s.room.stopped) :
    { s with room := r, marked := r.doc }.Lasting p := by
  have hahead : { s with room := r, marked := r.doc }.ahead = s.ahead ++ .payload b :: l :=
    ahead_turn h.taken_le hjobs
  -- whatever was due, the new update is
  have hdue : { s with room := r, marked := r.doc }.Due p :=
    .inr (.inl ⟨b, by rw [hahead]; simp⟩)
  refine ⟨?_, ⟨bs, hbs, hdoc⟩, .refl _, h.row, h.folded_lt, h.flushed, ?_,
    fun _ hnot => absurd hdue hnot, fun hs => ?_, fun hdone => ?_⟩
  · show s.writer.taken ≤ r.jobs.length
    rw [hjobs, List.length_append]
    exact h.taken_le.trans (Nat.le_add_right ..)
  · intro pre c post heq hpost
    rw [hahead] at heq
    rcases split_append heq with ⟨mid, -, rfl⟩ | ⟨pre', hl'⟩
    · exact absurd (hpost b) (by simp)
    · have hmem : Job.snapshot c ∈ Job.payload b :: l := by rw [hl']; simp
      exact hl c ((List.mem_cons.1 hmem).resolve_left nofun)
  · cases hrun.symm.trans (hstopped.symm.trans hs)
  · cases hrun.symm.trans (h.ended hdone).1

/-- The room stops, and hands over its last snapshot. -/
theorem Lasting.ends (h : s.Lasting p) (hstore : cfg.store = true) (hrun : s.room.stopped = false)
    {r : Room} (hend : Ended cfg s.room r) (hwritable : r.doc.Writable)
    (hstop : s.unsaved = [] ∨ s.Due p) : { s with room := r }.Lasting p := by
  obtain ⟨bs, hbs, hreplay⟩ := h.replayed
  rw [hend.doc, hreplay] at hwritable
  obtain ⟨snapshot, hjobs, hrebuilds⟩ := snapshotJobs_eq hstore hbs hwritable
  rw [← hreplay] at hjobs hrebuilds
  refine h.stays hrun hend.doc hend.jobs ?_ ?_ fun _ => ⟨hstop, [], snapshot, hjobs⟩
  · rw [hjobs]
    exact fun b hb => by cases List.mem_singleton.1 hb
  · rw [hjobs]
    intro b hb
    obtain rfl := Job.snapshot.inj (List.mem_singleton.1 hb)
    exact hrebuilds

theorem Lasting.turn (h : s.Lasting p) (hstore : cfg.store = true) (hrun : s.room.stopped = false)
    {i : Input} (hfits : s.Fits p cfg (.turn i)) : (s.turn cfg i).Lasting p := by
  obtain ⟨hsize, hwritable, hstop⟩ := hfits
  cases turn_turned cfg s.room i with
  | kept hk =>
    rw [turn_of_recorded_eq hk.recorded]
    exact h.aside hrun hk.aside
  | @recorded b doc l hi happly hl hint =>
    obtain ⟨⟨bs, hbs, hdoc⟩, -⟩ := h.integrates (hsize b hi) happly
    have hreplay : (s.room.turn cfg i).room.doc = .replay bs := hint.doc.trans hdoc
    rw [hreplay] at hwritable
    obtain ⟨snapshot, hjobs, hrebuilds⟩ := snapshotJobs_eq hstore hbs hwritable
    rw [turn_of_recorded_append hint.recorded]
    refine h.records hrun hbs hreplay (b := b) (l := l) ?_ (fun c hc => ?_) hint.stopped
    · rw [hint.jobs, if_pos hstore]
      rfl
    · rcases hl with rfl | rfl
      · cases hc
      · rw [hdoc, hjobs] at hc
        obtain rfl := Job.snapshot.inj (List.mem_singleton.1 hc)
        exact hreplay ▸ hrebuilds
  | @received b doc env henv hi happly hint =>
    obtain ⟨hreplayed, hcontains⟩ := h.integrates (hsize b hi) happly
    rw [← hint.doc] at hreplayed hcontains
    rw [turn_of_recorded_eq (hint.recorded.trans (List.append_nil _))]
    refine h.goes (l := []) hrun hreplayed hcontains hint.jobs nofun nofun ?_
    rw [hint.stopped, hrun]
    exact nofun
  | attempted hatt =>
    rw [turn_of_recorded_eq hatt.recorded]
    exact h.aside hrun hatt.aside
  | @ended r₁ hfirst hend =>
    have hfirst : Aside s.room r₁ := hfirst.elim (·.aside) (·.aside)
    rw [turn_of_recorded_eq (hend.recorded.trans hfirst.recorded)]
    refine (h.aside hrun hfirst).ends hstore (hfirst.stopped.trans hrun) hend hwritable
      ((hstop hend.stopped).imp_right ?_)
    rintro (hd | ⟨b, hb⟩ | hd)
    · exact .inl hd
    · obtain ⟨l, hjobs, -⟩ := hfirst.jobs
      refine .inr (.inl ⟨b, ?_⟩)
      rw [ahead_turn h.taken_le hjobs]
      exact List.mem_append_left _ hb
    · exact .inr (.inr hd)

/-! ### The writer -/

theorem restore_append {snapshot : Option Bytes} {us vs : List Bytes} {seqs seqs' : List ℕ}
    {d : Doc} (h : restore ⟨snapshot, us, seqs⟩ = .ok d) :
    restore ⟨snapshot, us ++ vs, seqs'⟩ = .ok (vs.foldl Doc.receive d) := by
  obtain ⟨d₀, rfl, ⟨hs, rfl⟩ | ⟨b, hs, happly⟩⟩ := restore_ok h
  · obtain rfl : snapshot = none := hs
    simp [restore]
  · obtain rfl : snapshot = some b := hs
    simp [restore, happly, Except.map]

theorem restore_eq {doc : Document} {d : Doc} (h : restore doc = .ok d) :
    d = .replay (doc.snapshot.toList ++ doc.updates) := by
  obtain ⟨d₀, rfl, ⟨hs, rfl⟩ | ⟨b, hs, happly⟩⟩ := restore_ok h
  · simp [hs, Doc.replay]
  · simp [hs, Doc.replay, Doc.receive, happly]

theorem GivesBack.grows {db db' : Database} {doc : Doc} (h : GivesBack p db doc)
    (hdb : db.Grows p.id db') : GivesBack p db' doc := by
  obtain ⟨d, snapshot, d', hd, hread, hrestore, hcontains⟩ := h
  obtain ⟨l, hl⟩ := hdb.log
  refine ⟨d, snapshot, (l.map (·.payload)).foldl Doc.receive d', hdb.find d hd, hread, ?_, ?_⟩
  · rw [← hl, List.map_append]
    exact restore_append hrestore
  · refine Doc.Contains.trans ?_ hcontains
    rw [restore_eq hrestore]
    exact ((Doc.replay_regular _).foldl_receive _).2

theorem givesBack_of_rebuilds {snapshot : Bytes} {doc : Doc} (h : Rebuilds snapshot doc)
    {db : Database} {d : DocumentRow} (hd : db.find p.id = some d)
    (hs : d.snapshot = some (pack p.flate snapshot).1) (hc : d.codec = (pack p.flate snapshot).2)
    (hk : d.snapshotKey = none) : GivesBack p db doc := by
  obtain ⟨u, hu, hcontains⟩ := h
  have happly : Doc.empty.applyUpdate snapshot = .ok (Doc.empty.applyDecodedUpdate u) := by
    simp [Doc.applyUpdate, hu]
  have hregular : (Doc.empty.applyDecodedUpdate u).Regular := by
    rw [← Doc.receive_ok hu]
    exact (Doc.replay_regular []).receive snapshot
  refine ⟨d, some snapshot, _, hd, d.readSnapshot_inline p.flate p.objects hs hc hk, ?_,
    (hregular.foldl_receive ((db.logOf p.id).map (·.payload))).2.trans hcontains⟩
  simp only [restore, happly]
  rfl

theorem Lasting.grows (h : s.Lasting p) {db : Database} (hdb : s.db.Grows p.id db) :
    { s with db }.Lasting p := by
  obtain ⟨d, hd, howner, hlt⟩ := h.row
  have hfind : db.find p.id = s.db.find p.id := (hdb.find d hd).trans hd.symm
  have hdue : { s with db }.Due p ↔ s.Due p := by
    unfold Due
    rw [hfind]
    rfl
  refine ⟨h.taken_le, h.replayed, h.contains, ?_, ?_, h.flushed, h.fresh, fun hs hnot => ?_,
    fun hstop hd => h.last hstop (hdue.1 hd), h.ended⟩
  · exact ⟨d, hdb.find d hd, howner, hlt.trans_le hdb.nextSeq⟩
  · exact fun n hn => (h.folded_lt n hn).trans_le hdb.nextSeq
  · exact (h.saved hs (mt hdue.2 hnot)).grows hdb

theorem Lasting.flush (h : s.Lasting p) (hok : s.room.stopped = true → o = .ok) :
    (s.flush p now o).Lasting p := by
  obtain ⟨d, hd, howner, hlt⟩ := h.row
  have hrows : d.snapshotSeq < s.db.nextSeq + s.writer.batch.length :=
    hlt.trans_le (Nat.le_add_right ..)
  have hfolded : ∀ n ∈ s.writer.folded, n < s.db.nextSeq + s.writer.batch.length :=
    fun n hn => (h.folded_lt n hn).trans_le (Nat.le_add_right ..)
  have hnot : ∀ {o : Outcome}, (s.room.stopped = true → o = .ok) → o ≠ .ok →
      s.room.stopped ≠ true := fun hok hne hstop => hne (hok hstop)
  obtain ⟨-, heq⟩ | ⟨hb, -, -, heq⟩ | ⟨hb, ho, heq⟩ | ⟨hb, ho, heq⟩ := flush_cases p now o s
  · rw [heq]
    exact h
  · -- the new rows are due
    have hdue : (s.flush p now o).Due p := by
      rw [heq]
      refine .inr (.inr ⟨d, hd, s.db.nextSeq, List.mem_append_right _ ?_, hlt⟩)
      exact List.mem_range'_1.2 ⟨le_rfl, Nat.lt_add_of_pos_right (List.length_pos_iff.2 hb)⟩
    have hlast := fun hstop => h.last hstop (.inl hb)
    rw [heq] at hdue ⊢
    refine ⟨h.taken_le, h.replayed, h.contains, ⟨d, hd, howner, hrows⟩, fun n hn => ?_,
      fun _ => rfl, h.fresh, fun _ hnot => absurd hdue hnot, fun hstop _ => hlast hstop,
      fun hdone => ?_⟩
    · rcases List.mem_append.1 hn with hn | hn
      · exact hfolded n hn
      · exact (List.mem_range'_1.1 hn).2
    · exact absurd (h.ended hdone).2.2 hb
  · have hrun := hnot hok (ho (by simp [hd]))
    rw [heq]
    refine ⟨h.taken_le, h.replayed, h.contains, h.row, h.folded_lt, fun _ => rfl, h.fresh,
      fun hs => ?_, fun hstop => absurd hstop hrun, fun hdone => absurd (h.ended hdone).1 hrun⟩
    exact absurd (hs.resolve_right hrun) (by simp [hb])
  · have hrun := hnot hok ho
    rw [heq]
    refine ⟨h.taken_le, h.replayed, h.contains, ⟨d, hd, howner, hrows⟩, hfolded, fun _ => rfl,
      h.fresh, fun hs => ?_, fun hstop => absurd hstop hrun,
      fun hdone => absurd (h.ended hdone).1 hrun⟩
    exact absurd (hs.resolve_right hrun) (by simp [hb])

theorem fresh_of_cons {job : Job} {q : List Job} {doc : Doc}
    (h : ∀ pre b post, job :: q = pre ++ .snapshot b :: post → NoUpdates post → Rebuilds b doc) :
    ∀ pre b post, q = pre ++ .snapshot b :: post → NoUpdates post → Rebuilds b doc := by
  intro pre b post heq
  exact h (job :: pre) b post (by rw [heq, List.cons_append])

theorem last_of_cons {job : Job} {q : List Job} {b : Bytes} (hb : .payload b ∈ q)
    (h : ∃ pre c post, job :: q = pre ++ .snapshot c :: post ∧ NoUpdates post) :
    ∃ pre c post, q = pre ++ .snapshot c :: post ∧ NoUpdates post := by
  obtain ⟨pre, c, post, heq, hpost⟩ := h
  cases pre with
  | nil =>
    obtain ⟨-, rfl⟩ := List.cons.inj heq
    exact absurd hb (hpost b)
  | cons job' pre => exact ⟨pre, c, post, (List.cons.inj heq).2, hpost⟩

theorem last_of_cons_ne {job : Job} {q : List Job}
    (h : ∃ pre c post, job :: q = pre ++ .snapshot c :: post ∧ NoUpdates post)
    (hjob : ∀ b, job ≠ .snapshot b) :
    ∃ pre c post, q = pre ++ .snapshot c :: post ∧ NoUpdates post := by
  obtain ⟨pre, c, post, heq, hpost⟩ := h
  cases pre with
  | nil => exact absurd (List.cons.inj heq).1 (hjob c)
  | cons job' pre => exact ⟨pre, c, post, (List.cons.inj heq).2, hpost⟩

theorem Lasting.skips (h : s.Lasting p) {payload sv label : Bytes} {minAge : ℤ} (hw : s.Waiting)
    (hjob : s.room.jobs[s.writer.taken]? = some (.version payload sv label minAge)) :
    { s with writer := { s.writer with taken := s.writer.taken + 1 } }.Lasting p := by
  have hahead := ahead_take hjob hw
  have hfresh := h.fresh
  have hlast := h.last
  rw [hahead] at hfresh hlast
  have hdue : { s with writer := { s.writer with taken := s.writer.taken + 1 } }.Due p ↔
      s.Due p := by
    unfold Due
    rw [hahead]
    simp
  refine ⟨lt_of_job hjob, h.replayed, h.contains, h.row, h.folded_lt, h.flushed,
    fresh_of_cons hfresh, fun hs hnot => h.saved hs (mt hdue.2 hnot),
    fun hstop hd => last_of_cons_ne (hlast hstop (hdue.1 hd)) nofun, fun hdone => ?_⟩
  cases hw.1.symm.trans hdone

theorem Lasting.added (h : s.Lasting p) {b : Bytes} (hw : s.Waiting)
    (hjob : s.room.jobs[s.writer.taken]? = some (.payload b)) : (s.added b).Lasting p := by
  have hahead := ahead_take hjob hw
  have hfresh := h.fresh
  have hlast := h.last
  rw [hahead] at hfresh hlast
  have hbefore : s.Due p := .inr (.inl ⟨b, by rw [hahead]; exact List.mem_cons_self ..⟩)
  have hdue : (s.added b).Due p := .inl (List.append_ne_nil_of_right_ne_nil _ nofun)
  refine ⟨lt_of_job hjob, h.replayed, h.contains, h.row, h.folded_lt, fun hc => absurd hw.2 hc,
    fresh_of_cons hfresh, fun _ hnot => absurd hdue hnot,
    fun hstop _ => last_of_cons_ne (hlast hstop hbefore) nofun, fun hdone => ?_⟩
  cases hw.1.symm.trans hdone

/-- The writer takes a snapshot. -/
theorem Lasting.inHand (h : s.Lasting p) {b : Bytes} (hw : s.Waiting)
    (hjob : s.room.jobs[s.writer.taken]? = some (.snapshot b))
    (hok : s.room.stopped = true → o = .ok) : (s.inHand p now o b).Lasting p := by
  have hflush : (s.flush p now o).Lasting p := h.flush hok
  have hbeside : Beside s (s.flush p now o) := flush_beside
  have hq : (s.inHand p now o b).ahead = (s.flush p now o).ahead :=
    (ahead_inHand hw hjob).trans hbeside.ahead.symm
  have hdue : (s.inHand p now o b).Due p ↔ (s.flush p now o).Due p := by
    unfold Due
    rw [hq]
    rfl
  refine ⟨?_, hflush.replayed, hflush.contains, hflush.row, hflush.folded_lt,
    fun _ => flush_batch, ?_, fun hs hnot => hflush.saved hs (mt hdue.2 hnot), ?_, ?_⟩
  · show s.writer.taken + 1 ≤ (s.flush p now o).room.jobs.length
    rw [hbeside.room]
    exact lt_of_job hjob
  · rw [hq]
    exact hflush.fresh
  · rw [hq]
    exact fun hstop hd => hflush.last hstop (hdue.1 hd)
  · rw [hq]
    exact hflush.ended

theorem Lasting.compact (h : s.Lasting p) {snapshot : Bytes}
    (hc : s.writer.compacting = some snapshot) (hok : s.room.stopped = true → o = .ok) :
    ({ s with writer := { s.writer with compacting := none } }.compact p now o
      snapshot).Lasting p := by
  have hahead := ahead_compact hc
  set s₁ : Session := { s with writer := { s.writer with compacting := none } }
  have hfresh := h.fresh
  have hlast := h.last
  rw [hahead] at hfresh hlast
  have hbatch : s.writer.batch = [] := h.flushed (by simp [hc])
  have hrun : ∀ {P : Prop}, s.writer.done = true → P := fun hdone => by
    have := (h.ended hdone).2.1
    rw [hahead] at this
    cases this
  have hlast' : s.room.stopped = true → (∃ b, .payload b ∈ s₁.ahead) →
      ∃ pre c post, s₁.ahead = pre ++ .snapshot c :: post ∧ NoUpdates post := by
    rintro hstop ⟨b, hb⟩
    have hdue : s.Due p := .inr (.inl ⟨b, by rw [hahead]; exact List.mem_cons_of_mem _ hb⟩)
    exact last_of_cons hb (hlast hstop hdue)
  obtain ⟨d, hd, howner, hlt⟩ := h.row
  obtain ⟨ho, heq⟩ | ⟨⟨d', hd', hle⟩, heq⟩ | ⟨db, folded, hdb, hfolded, heq⟩ :=
    compact_cases p now o s₁ snapshot
  · rw [heq]
    refine ⟨h.taken_le, h.replayed, h.contains, h.row, h.folded_lt, nofun, fresh_of_cons hfresh,
      fun hs hnot => h.saved hs fun hdue => hnot ?_, fun hstop hdue => hlast' hstop ?_, hrun⟩
    · refine hdue.imp_right (Or.imp_left ?_)
      rintro ⟨b, hb⟩
      rw [hahead] at hb
      exact ⟨b, (List.mem_cons.1 hb).resolve_left nofun⟩
    · -- the call was made, so there were no rows for it
      have hnone : s.writer.folded = [] :=
        (ho (hok hstop)).resolve_right (by rw [show s.db.find p.id = some d from hd]; nofun)
      rcases hdue with hb | hb | ⟨d, -, n, hn, -⟩
      · exact absurd hbatch hb
      · exact hb
      · rw [show _ = ([] : List ℕ) from hnone] at hn
        cases hn
  · rw [heq]
    refine ⟨h.taken_le, h.replayed, h.contains, h.row, nofun, nofun, fresh_of_cons hfresh,
      fun hs hnot => h.saved hs fun hdue => hnot ?_, fun hstop hdue => hlast' hstop ?_, hrun⟩
    · rcases hdue with hb | ⟨b, hb⟩ | ⟨d, hd, n, hn, hlt⟩
      · exact absurd hbatch hb
      · rw [hahead] at hb
        exact .inr (.inl ⟨b, (List.mem_cons.1 hb).resolve_left nofun⟩)
      · -- the stored snapshot is as new as the rows
        obtain rfl : d = d' := Option.some.inj (hd.symm.trans hd')
        exact absurd (hlt.trans_le (Database.le_watermark hn)) (Nat.not_lt.2 hle)
    · rcases hdue with hb | hb | ⟨d, -, n, hn, -⟩
      · exact absurd hbatch hb
      · exact hb
      · cases hn
  · have hsub : ∀ n ∈ folded, n ∈ s.writer.folded := by
      rcases hfolded with rfl | rfl
      · exact nofun
      · exact fun n hn => hn
    obtain ⟨d₁, hd₁, hnewer⟩ := Database.older_of_compact hdb
    obtain rfl : d = d₁ := Option.some.inj (hd.symm.trans hd₁)
    obtain ⟨db', hdb', hfind, hnext, -⟩ := Database.compact_ok hd₁ hnewer
    rw [hdb] at hdb'
    cases hdb'
    have hmark : Database.watermark s.writer.folded < s.db.nextSeq := by
      have hle : Database.watermark s.writer.folded ≤ s.db.nextSeq - 1 :=
        Database.watermark_le fun n hn => Nat.le_sub_one_of_lt (h.folded_lt n hn)
      omega
    rw [heq]
    refine ⟨h.taken_le, h.replayed, h.contains, ⟨_, hfind, howner, ?_⟩, fun n hn => ?_, nofun,
      fresh_of_cons hfresh, fun _ hnot => ?_, fun hstop hdue => hlast' hstop ?_, hrun⟩
    · show _ < db.nextSeq
      rw [hnext]
      exact hmark
    · show n < db.nextSeq
      rw [hnext]
      exact h.folded_lt n (hsub n hn)
    · have hall := hfresh [] snapshot _ rfl fun b hb => hnot (.inr (.inl ⟨b, hb⟩))
      exact givesBack_of_rebuilds hall hfind rfl rfl rfl
    · rcases hdue with hb | hb | ⟨d', hd', n, hn, hlt'⟩
      · exact absurd hbatch hb
      · exact hb
      · -- every row is covered now
        rw [show db.find p.id = _ from hfind] at hd'
        cases hd'
        exact absurd (Database.le_watermark (hsub n hn)) (Nat.not_le.2 hlt')

/-- **Every action keeps it.** -/
theorem Lasting.step (h : s.Lasting p) (hstore : cfg.store = true) {a : Action}
    (hfits : s.Fits p cfg a) (hstep : s.step p cfg a = some s') : s'.Lasting p := by
  cases stepped hstep with
  | turn hrun => exact h.turn hstore hrun hfits
  | @version now o prune payload sv label minAge hw hjob =>
    obtain ⟨db, hdb, heq⟩ := saveVersion_cases p now o prune
      { s with writer := { s.writer with taken := s.writer.taken + 1 } } payload sv minAge
    rw [heq]
    exact (h.skips hw hjob).grows (hdb.grows p.id)
  | snapshot hw hjob => exact h.inHand hw hjob hfits
  | payload hw hjob hs =>
    rcases hs with rfl | rfl
    · exact h.added hw hjob
    · exact (h.added hw hjob).flush hfits
  | compact hc => exact h.compact hc hfits
  | tick => exact h.flush hfits
  | @exit now o hw hstop hnone =>
    have hflush : (s.flush p now o).Lasting p := h.flush hfits
    have hbeside : Beside s (s.flush p now o) := flush_beside
    have hempty : (s.flush p now o).ahead = [] := by
      rw [hbeside.ahead, ahead, hw.2]
      simpa using List.drop_eq_nil_of_le (List.getElem?_eq_none_iff.1 hnone)
    exact ⟨hflush.taken_le, hflush.replayed, hflush.contains, hflush.row, hflush.folded_lt,
      hflush.flushed, hflush.fresh, hflush.saved, hflush.last, fun _ =>
        ⟨by rw [hbeside.room]; exact hstop, hempty, flush_batch⟩⟩
  | elsewhere => exact h.grows ((Database.saveVersion_sameLog ..).grows p.id)

/-- What was recorded is not taken back. -/
theorem Lasting.marked_mono (h : s.Lasting p) {a : Action} (hfits : s.Fits p cfg a)
    (hstep : s.step p cfg a = some s') : s'.marked.Contains s.marked := by
  by_cases ha : ∃ i, a = .turn i
  · obtain ⟨i, rfl⟩ := ha
    cases stepped hstep
    obtain ⟨hrec, -⟩ | ⟨b, hi, happly, hrec⟩ := turn_records cfg s.room i
    · rw [turn_of_recorded_eq hrec]
      exact .refl _
    · rw [turn_of_recorded_append hrec]
      exact (h.integrates (hfits.1 b hi) happly).2.trans h.contains
  · rw [(room_of_step (fun i hi => ha ⟨i, hi⟩) hstep).2]
    exact .refl _

theorem Lasting.givesBack (h : s.Lasting p) (hdone : s.writer.done = true) :
    GivesBack p s.db s.marked := by
  obtain ⟨hstop, hempty, -⟩ := h.ended hdone
  refine h.saved (.inr hstop) fun hdue => ?_
  obtain ⟨pre, b, post, hq, -⟩ := h.last hstop hdue
  rw [hempty] at hq
  cases pre <;> cases hq

/-! ### The load -/

/-- The database as the identity column leaves it, with what it stores small enough to be read. -/
structure Orderly (p : Storage) (db : Database) : Prop where
  nextSeq_pos : 0 < db.nextSeq
  numbered : Numbered db
  snapshotSeq_lt : ∀ d ∈ db.documents, d.snapshotSeq < db.nextSeq
  payload_le : ∀ u ∈ db.updates, u.payload.length ≤ maxSafeInteger
  snapshot_le : ∀ d ∈ db.documents, ∀ b, d.readSnapshot p.flate p.objects = .ok (some b) →
    b.length ≤ maxSafeInteger

instance {db : Database} : Decidable (Orderly p db) :=
  have : Decidable (Numbered db) :=
    inferInstanceAs (Decidable (∀ u ∈ db.updates, u.seq < db.nextSeq))
  decidable_of_iff (0 < db.nextSeq ∧ Numbered db ∧
      (∀ d ∈ db.documents, d.snapshotSeq < db.nextSeq) ∧
      (∀ u ∈ db.updates, u.payload.length ≤ maxSafeInteger) ∧
      ∀ d ∈ db.documents, ∀ b, d.readSnapshot p.flate p.objects = .ok (some b) →
        b.length ≤ maxSafeInteger)
    ⟨fun ⟨h₁, h₂, h₃, h₄, h₅⟩ => ⟨h₁, h₂, h₃, h₄, h₅⟩, fun h => ⟨h.1, h.2, h.3, h.4, h.5⟩⟩

theorem lasting_load {limits : Limits} {db : Database} {clock : ℤ} (hdb : Orderly p db)
    (hload : load p limits db now clock = .ok s) : s.Lasting p := by
  obtain ⟨db', doc, d, hdoc, hd, rfl⟩ := load_ok hload
  obtain ⟨hupdates, hnext⟩ := Database.updates_of_load hdoc
  obtain ⟨row, hfind, howner, hread, hpayloads, hseqs⟩ := Database.exists_row_of_load hdoc
  have hlt : row.snapshotSeq < db'.nextSeq ∧ ∀ b, doc.snapshot = some b →
      b.length ≤ maxSafeInteger := by
    rw [hnext]
    rcases Database.find_of_load hdoc hfind with hold | ⟨-, rfl⟩
    · have hrow := (Database.mem_of_find hold).1
      refine ⟨hdb.snapshotSeq_lt row hrow, fun b hb => hdb.snapshot_le row hrow b ?_⟩
      rw [hread, hb]
    · refine ⟨hdb.nextSeq_pos, fun b hb => ?_⟩
      rw [hb] at hread
      cases hread
  have hsize : ∀ b ∈ doc.snapshot.toList ++ doc.updates, b.length ≤ maxSafeInteger := by
    intro b hb
    rcases List.mem_append.1 hb with hb | hb
    · exact hlt.2 b (Option.mem_toList.1 hb)
    · rw [hpayloads] at hb
      obtain ⟨u, hu, rfl⟩ := List.mem_map.1 hb
      exact hdb.payload_le u (hupdates ▸ (Database.mem_logOf.1 hu).1)
  refine ⟨Nat.zero_le _, ⟨_, hsize, restore_eq hd⟩, .refl d, ⟨row, hfind, howner, hlt.1⟩,
    fun n hn => ?_, fun _ => rfl, fun pre b post heq => ?_, fun _ _ => ?_, nofun, nofun⟩
  · show n < db'.nextSeq
    rw [hseqs] at hn
    obtain ⟨u, hu, rfl⟩ := List.mem_map.1 hn
    rw [hnext]
    exact hdb.numbered u (hupdates ▸ (Database.mem_logOf.1 hu).1)
  · cases pre <;> cases heq
  · refine ⟨row, doc.snapshot, d, hfind, hread, ?_, .refl d⟩
    rw [← hpayloads, ← hseqs]
    exact hd

theorem GivesBack.load {db : Database} {doc : Doc} (h : GivesBack p db doc) (limits : Limits)
    (now : ℕ) (clock : ℤ) {d : DocumentRow} (hd : db.find p.id = some d)
    (howner : d.owner = p.owner) :
    ∃ s, Session.load p limits db now clock = .ok s ∧ s.room.doc.Contains doc := by
  obtain ⟨d', snapshot, d₁, hd', hread, hrestore, hcontains⟩ := h
  obtain rfl : d = d' := Option.some.inj (hd.symm.trans hd')
  unfold Session.load
  rw [Database.load_eq hd howner, hread]
  simp only [hrestore]
  exact ⟨_, rfl, hcontains⟩

theorem marked_of_load {limits : Limits} {db : Database} {clock : ℤ}
    (hload : load p limits db now clock = .ok s) : s.marked = s.room.doc := by
  obtain ⟨_, _, _, -, -, rfl⟩ := load_ok hload
  rfl

theorem GivesBack.of_load {db : Database} {doc : Doc} (h : GivesBack p db doc) {limits : Limits}
    {clock : ℤ} (hload : Session.load p limits db now clock = .ok s) :
    s.marked.Contains doc := by
  obtain ⟨d, -, -, hd, -⟩ := id h
  have howner : d.owner = p.owner := by
    obtain ⟨_, _, _, hdb, -⟩ := load_ok hload
    exact Database.owner_of_load hdb hd
  obtain ⟨s', hload', hcontains⟩ := h.load limits now clock hd howner
  rw [hload] at hload'
  cases hload'
  rw [marked_of_load hload]
  exact hcontains

theorem Lasting.run (h : s.Lasting p) (hstore : cfg.store = true) {l : List Action}
    (hfits : Machine.Along (Session.step p cfg) (fun s a => s.Fits p cfg a) s l)
    (hrun : Machine.run (Session.step p cfg) s l = some s') :
    s'.Lasting p ∧ s'.marked.Contains s.marked :=
  Machine.invariant (I := fun t => t.Lasting p ∧ t.marked.Contains s.marked)
    (fun ht hf hstep => ⟨ht.1.step hstore hf hstep, (ht.1.marked_mono hf hstep).trans ht.2⟩)
    ⟨h, .refl _⟩ hfits hrun

namespace Visit

/-- A client that may write. -/
def ann : Conn := ⟨1, true⟩

/-- The room of a document that nobody has opened before. -/
def opened : Session where
  room := { Room.new {} 0 with doc := .empty, sinceSnapshot := 0 }
  db := { documents := [⟨nilUUID, nilUUID, none, .raw, none, 0, 0⟩] }

/-- Somebody joins. -/
def join : Action := .turn ⟨.command (.join ann), 0, []⟩

end Visit

open Visit

end Session

end YCollab.Room
