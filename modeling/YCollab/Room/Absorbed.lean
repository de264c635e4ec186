import YCollab.Room.Writer

/-!
# What a compaction removes

A snapshot is encoded by the room goroutine and written by the writer, which deletes the rows it
takes the snapshot to cover. The numbers of these rows come from the load and from the flushes, the
updates in the snapshot from the turns of the room. This module connects the two: in a session
whose log was readable when the room was loaded, the rows named to `Compact` hold updates that were
applied to the document the snapshot encodes (`compaction_absorbs`).

A row that does not apply is skipped by the load but named all the same, so that the next
compaction deletes it (`corrupt_row_deleted`).
-/

namespace YCollab.Room

open Lib0 Crdt Protocol Store

/-- The document is what `ApplyUpdate` made of these updates, every one of which it accepted. -/
inductive Applied : List Bytes → Doc → Prop where
  | nil : Applied [] .empty
  | snoc {bs : List Bytes} {b : Bytes} {d d' : Doc} (h : Applied bs d)
      (happly : d.applyUpdate b = .ok d') : Applied (bs ++ [b]) d'

theorem Applied.foldl_receive {bs us : List Bytes} {d : Doc} (h : Applied bs d)
    (hus : ∀ b ∈ us, ∃ u, decodeUpdate b = .ok u) :
    Applied (bs ++ us) (us.foldl Doc.receive d) := by
  induction us generalizing bs d with
  | nil => simpa using h
  | cons b us ih =>
    obtain ⟨u, hu⟩ := hus b (by simp)
    have happly : d.applyUpdate b = .ok (d.receive b) := by
      rw [Doc.receive_ok hu]
      simp [Doc.applyUpdate, hu]
    simpa using ih (h.snoc happly) fun c hc => hus c (by simp [hc])

namespace Session

variable {p : Storage} {cfg : Config} {s s' : Session} {now : ℕ} {o : Outcome}
  {bs : List Bytes} {l pre post : List Job} {Q : Bytes → Prop} {R : Doc → Prop}

/-- The writer holds the update: it is in the batch, or in a row that the next snapshot covers. -/
def Holds (s : Session) (b : Bytes) : Prop :=
  b ∈ s.writer.batch ∨ ∃ u ∈ s.rows, u.seq ∈ s.writer.folded ∧ u.payload = b

/-- `bs` has the updates that the writer holds, and those in `pre`. -/
def Covered (s : Session) (pre : List Job) (bs : List Bytes) : Prop :=
  ∀ b, s.Holds b ∨ .payload b ∈ pre → b ∈ bs

/-- What connects the rows that the writer has named with what the room has applied: updates that
meet `Q`, and at the time of a snapshot a document that meets `R`. -/
structure Absorbing (Q : Bytes → Prop) (R : Doc → Prop) (s : Session) : Prop where
  taken_le : s.writer.taken ≤ s.room.jobs.length
  numbered : ∀ u ∈ s.rows, u.seq < s.db.nextSeq
  named : ∀ n ∈ s.writer.folded, ∃ u ∈ s.rows, u.seq = n
  applied : ∃ bs, Applied bs s.room.doc ∧ (∀ b ∈ bs, Q b) ∧ s.Covered s.ahead bs
  /-- A snapshot has the updates that are before it. -/
  snapshots : ∀ pre b post, s.ahead = pre ++ .snapshot b :: post → ∃ bs d, Applied bs d ∧
    (∀ b ∈ bs, Q b) ∧ R d ∧ d.encodeStateAsUpdate SortedMap.empty = .ok b ∧ s.Covered pre bs

/-! ### The room's turns -/

/-- The turn hands over a snapshot. -/
def HandsOver (cfg : Config) (r : Room) (i : Input) : Prop :=
  ∃ b, .snapshot b ∈ (r.turn cfg i).room.jobs.drop r.jobs.length

instance (cfg : Config) (r : Room) (i : Input) : Decidable (HandsOver cfg r i) :=
  decidable_of_iff (((r.turn cfg i).room.jobs.drop r.jobs.length).any (· matches .snapshot _)) (by
    simp only [List.any_eq_true]
    constructor
    · rintro ⟨job, hmem, hjob⟩
      cases job with
      | snapshot b => exact ⟨b, hmem⟩
      | payload b => cases hjob
      | version payload sv label minAge => cases hjob
    · rintro ⟨b, hb⟩
      exact ⟨_, hb, rfl⟩)

theorem handsOver_iff {r : Room} {i : Input} (h : (r.turn cfg i).room.jobs = r.jobs ++ l) :
    HandsOver cfg r i ↔ ∃ b, .snapshot b ∈ l := by
  rw [HandsOver, h, List.drop_left]

/-- A job that says no more than the document has. -/
def Tells (R : Doc → Prop) (d : Doc) (bs : List Bytes) : Job → Prop
  | .payload b => b ∈ bs
  | .snapshot b => R d ∧ d.encodeStateAsUpdate SortedMap.empty = .ok b
  | .version .. => True

theorem tells_snapshotJobs (cfg : Config) (d : Doc) (bs : List Bytes)
    (hR : (∃ b, .snapshot b ∈ snapshotJobs cfg d) → R d) :
    ∀ job ∈ snapshotJobs cfg d, Tells R d bs job := by
  intro job hjob
  have hmem := hjob
  unfold snapshotJobs at hjob
  split at hjob
  · split at hjob
    next henc =>
      obtain rfl := List.mem_singleton.1 hjob
      exact ⟨hR ⟨_, hmem⟩, henc⟩
    · cases hjob
  · cases hjob

/-- The room goes on: it has applied more, and handed over no more than it has applied. -/
theorem Absorbing.goes (h : s.Absorbing Q R) {r : Room} {m : Doc} (us : List Bytes)
    (hus : ∀ b ∈ us, Q b) (hjobs : r.jobs = s.room.jobs ++ l)
    (hdoc : ∀ bs, Applied bs s.room.doc → Applied (bs ++ us) r.doc)
    (hl : ∀ bs, ∀ job ∈ l, Tells R r.doc (bs ++ us) job) :
    { s with room := r, marked := m }.Absorbing Q R := by
  have hahead : { s with room := r, marked := m }.ahead = s.ahead ++ l :=
    ahead_turn h.taken_le hjobs
  obtain ⟨bs, happ, hbs, hcov⟩ := h.applied
  have hQ : ∀ b ∈ bs ++ us, Q b := fun b hb => (List.mem_append.1 hb).elim (hbs b) (hus b)
  -- whatever is before a job of `l` has been applied by now
  have hcov' : ∀ pre, pre <+: s.ahead ++ l → s.Covered pre (bs ++ us) := by
    intro pre hpre b hb
    rcases hb with hb | hb
    · exact List.mem_append_left _ (hcov b (.inl hb))
    · rcases List.mem_append.1 (hpre.subset hb) with hb | hb
      · exact List.mem_append_left _ (hcov b (.inr hb))
      · exact hl bs _ hb
  refine ⟨?_, h.numbered, h.named, ⟨bs ++ us, hdoc bs happ, hQ, ?_⟩, ?_⟩
  · show s.writer.taken ≤ r.jobs.length
    rw [hjobs, List.length_append]
    exact h.taken_le.trans (Nat.le_add_right ..)
  · rw [hahead]
    exact hcov' _ (List.prefix_refl _)
  · intro pre b post heq
    rw [hahead] at heq
    rcases split_append heq with ⟨mid, hs, -⟩ | ⟨pre', hl'⟩
    · exact h.snapshots pre b mid hs
    · obtain ⟨hR, henc⟩ := hl bs (.snapshot b) (by rw [hl']; simp)
      refine ⟨bs ++ us, r.doc, hdoc bs happ, hQ, hR, henc, hcov' pre ?_⟩
      rw [heq]
      exact List.prefix_append ..

theorem Absorbing.stays (h : s.Absorbing Q R) {r : Room} {m : Doc} (hdoc : r.doc = s.room.doc)
    (hjobs : r.jobs = s.room.jobs ++ l) (hl : ∀ bs, ∀ job ∈ l, Tells R s.room.doc bs job) :
    { s with room := r, marked := m }.Absorbing Q R := by
  refine h.goes [] nofun hjobs (fun bs happ => ?_) fun bs job hjob => ?_
  · rw [hdoc, List.append_nil]
    exact happ
  · rw [hdoc]
    exact hl _ job hjob

theorem Absorbing.aside (h : s.Absorbing Q R) {r : Room} {m : Doc} (ha : Aside s.room r) :
    { s with room := r, marked := m }.Absorbing Q R := by
  obtain ⟨l, hjobs, hl⟩ := ha.jobs
  refine h.stays ha.doc hjobs fun bs job hjob => ?_
  obtain ⟨_, _, _, _, rfl⟩ := hl job hjob
  trivial

theorem Absorbing.turn (h : s.Absorbing Q R) (i : Input) (hQ : ∀ b ∈ i.event.update, Q b)
    (hR : HandsOver cfg s.room i → R (s.room.turn cfg i).room.doc) :
    (s.turn cfg i).Absorbing Q R := by
  cases turn_turned cfg s.room i with
  | kept hk => exact h.aside hk.aside
  | @recorded b doc l hi happly hl hint =>
    rw [handsOver_iff hint.jobs, hint.doc] at hR
    refine h.goes [b] (by simpa using hQ b hi) hint.jobs (fun bs happ => ?_) fun bs job hjob => ?_
    · rw [hint.doc]
      exact happ.snoc happly
    · rw [hint.doc]
      rcases List.mem_append.1 hjob with hjob | hjob
      · split at hjob
        · obtain rfl := List.mem_singleton.1 hjob
          exact List.mem_append_right _ (List.mem_singleton_self b)
        · cases hjob
      · rcases hl with rfl | rfl
        · cases hjob
        · refine tells_snapshotJobs cfg doc _ (fun ⟨c, hc⟩ => hR ⟨c, ?_⟩) job hjob
          exact List.mem_append_right _ hc
  | @received b doc env henv hi happly hint =>
    refine h.goes (l := []) [b] (by simpa using hQ b hi) hint.jobs (fun bs happ => ?_) nofun
    rw [hint.doc]
    exact happ.snoc happly
  | attempted hatt => exact h.aside hatt.aside
  | @ended r₁ hfirst hend =>
    have hfirst : Aside s.room r₁ := hfirst.elim (·.aside) (·.aside)
    obtain ⟨l₁, hjobs, -⟩ := hfirst.jobs
    rw [handsOver_iff (hend.jobs.trans (by rw [hjobs, List.append_assoc])), hend.doc] at hR
    refine (h.aside (m := s.marked) hfirst).stays hend.doc hend.jobs fun bs => tells_snapshotJobs cfg _ bs fun ⟨c, hc⟩ => ?_
    exact hR ⟨c, List.mem_append_right _ hc⟩

/-! ### The writer -/

theorem Absorbing.works (h : s.Absorbing Q R) (done : List Job) (hroom : s'.room = s.room)
    (htaken : s'.writer.taken ≤ s.room.jobs.length) (hahead : s.ahead = done ++ s'.ahead)
    (hholds : ∀ b, s'.Holds b → s.Holds b ∨ .payload b ∈ done)
    (hnumbered : ∀ u ∈ s'.rows, u.seq < s'.db.nextSeq)
    (hnamed : ∀ n ∈ s'.writer.folded, ∃ u ∈ s'.rows, u.seq = n) : s'.Absorbing Q R := by
  -- what is covered in front of the queue was covered with `done` before it
  have hcov : ∀ pre bs, s.Covered (done ++ pre) bs → s'.Covered pre bs := by
    intro pre bs hcov b hb
    rcases hb with hb | hb
    · exact hcov b ((hholds b hb).imp_right (List.mem_append_left _))
    · exact hcov b (.inr (List.mem_append_right _ hb))
  refine ⟨by rw [hroom]; exact htaken, hnumbered, hnamed, ?_, ?_⟩
  · obtain ⟨bs, happ, hQ, hall⟩ := h.applied
    rw [hahead] at hall
    exact ⟨bs, by rw [hroom]; exact happ, hQ, hcov _ bs hall⟩
  · intro pre b post heq
    obtain ⟨bs, d, happ, hQ, hR, henc, hall⟩ :=
      h.snapshots (done ++ pre) b post (by rw [hahead, heq, List.append_assoc])
    exact ⟨bs, d, happ, hQ, hR, henc, hcov pre bs hall⟩

theorem Absorbing.flush (h : s.Absorbing Q R) : (s.flush p now o).Absorbing Q R := by
  have hrow : ∀ u ∈ s.db.newRows p.id s.writer.batch now, s.Holds u.payload := fun u hu =>
    .inl (Database.mem_newRows hu).2.2.2
  have hnumbered : ∀ u ∈ s.rows ++ s.db.newRows p.id s.writer.batch now,
      u.seq < s.db.nextSeq + s.writer.batch.length := by
    intro u hu
    rcases List.mem_append.1 hu with hu | hu
    · exact (h.numbered u hu).trans_le (Nat.le_add_right ..)
    · exact (Database.mem_newRows hu).2.2.1
  have hnamed : ∀ n ∈ s.writer.folded, ∃ u ∈ s.rows ++ s.db.newRows p.id s.writer.batch now,
      u.seq = n := by
    intro n hn
    obtain ⟨u, hu, hseq⟩ := h.named n hn
    exact ⟨u, List.mem_append_left _ hu, hseq⟩
  obtain ⟨-, heq⟩ | ⟨-, -, -, heq⟩ | ⟨-, -, heq⟩ | ⟨-, -, heq⟩ := flush_cases p now o s
  · rw [heq]
    exact h
  · rw [heq]
    refine h.works [] rfl h.taken_le rfl ?_ hnumbered fun n hn => ?_
    · rintro b (hb | ⟨u, hu, hseq, rfl⟩)
      · cases hb
      · rcases List.mem_append.1 hu with hu | hu
        · -- a row that was there has a number that was given out before
          rcases List.mem_append.1 hseq with hseq | hseq
          · exact .inl (.inr ⟨u, hu, hseq, rfl⟩)
          · exact absurd (h.numbered u hu) (Nat.not_lt.2 (List.mem_range'_1.1 hseq).1)
        · exact .inl (hrow u hu)
    · rcases List.mem_append.1 hn with hn | hn
      · exact hnamed n hn
      · obtain ⟨u, hu, hseq⟩ := Database.exists_newRows p.id now hn
        exact ⟨u, List.mem_append_right _ hu, hseq⟩
  · rw [heq]
    refine h.works [] rfl h.taken_le rfl ?_ h.numbered h.named
    rintro b (hb | hb)
    · cases hb
    · exact .inl (.inr hb)
  · rw [heq]
    refine h.works [] rfl h.taken_le rfl ?_ hnumbered hnamed
    rintro b (hb | ⟨u, hu, hseq, rfl⟩)
    · cases hb
    · rcases List.mem_append.1 hu with hu | hu
      · exact .inl (.inr ⟨u, hu, hseq, rfl⟩)
      · exact .inl (hrow u hu)

theorem Absorbing.compact (h : s.Absorbing Q R) (snapshot : Bytes) :
    (s.compact p now o snapshot).Absorbing Q R := by
  obtain ⟨-, heq⟩ | ⟨-, heq⟩ | ⟨db, folded, hdb, hfolded, heq⟩ := compact_cases p now o s snapshot
  · rw [heq]
    exact h
  · rw [heq]
    refine h.works [] rfl h.taken_le rfl ?_ h.numbered nofun
    rintro b (hb | ⟨u, hu, hseq, -⟩)
    · exact .inl (.inl hb)
    · cases hseq
  · have hsub : ∀ n ∈ folded, n ∈ s.writer.folded := by
      rcases hfolded with rfl | rfl
      · exact nofun
      · exact fun n hn => hn
    obtain ⟨d, hd, hlt⟩ := Database.older_of_compact hdb
    obtain ⟨db', hdb', -, hnext, -⟩ := Database.compact_ok hd hlt
    rw [hdb] at hdb'
    cases hdb'
    rw [heq]
    refine h.works [] rfl h.taken_le rfl ?_ (fun u hu => ?_) fun n hn => h.named n (hsub n hn)
    · rintro b (hb | ⟨u, hu, hseq, rfl⟩)
      · exact .inl (.inl hb)
      · exact .inl (.inr ⟨u, hu, hsub _ hseq, rfl⟩)
    · show u.seq < db.nextSeq
      rw [hnext]
      exact h.numbered u hu

theorem Absorbing.elsewhere (h : s.Absorbing Q R) {db : Database}
    (hdb : s.db.nextSeq ≤ db.nextSeq) : { s with db }.Absorbing Q R :=
  h.works [] rfl h.taken_le rfl (fun _ => .inl) (fun u hu => (h.numbered u hu).trans_le hdb) h.named

theorem Absorbing.added (h : s.Absorbing Q R) {b : Bytes} (hw : s.Waiting)
    (hjob : s.room.jobs[s.writer.taken]? = some (.payload b)) : (s.added b).Absorbing Q R := by
  refine h.works [.payload b] rfl (lt_of_job hjob) (ahead_take hjob hw) (fun c hc => ?_)
    h.numbered h.named
  rcases hc with hc | hc
  · rcases List.mem_append.1 hc with hc | hc
    · exact .inl (.inl hc)
    · obtain rfl := List.mem_singleton.1 hc
      exact .inr (List.mem_singleton_self _)
  · exact .inl (.inr hc)

/-- What the updates of a turn, and the snapshot it hands over, have to meet. -/
def Brings (cfg : Config) (Q : Bytes → Prop) (R : Doc → Prop) (s : Session) : Action → Prop
  | .turn i => (∀ b ∈ i.event.update, Q b) ∧
      (HandsOver cfg s.room i → R (s.room.turn cfg i).room.doc)
  | .take .. | .compact .. | .tick .. | .exit .. | .elsewhere .. => True

instance [DecidablePred Q] [DecidablePred R] (s : Session) :
    ∀ a, Decidable (s.Brings cfg Q R a)
  | .turn _ => inferInstanceAs (Decidable (_ ∧ (_ → _)))
  | .take .. | .compact .. | .tick .. | .exit .. | .elsewhere .. =>
    inferInstanceAs (Decidable True)

/-- **Every action keeps the connection.** -/
theorem Absorbing.step (h : s.Absorbing Q R) {a : Action} (hbrings : s.Brings cfg Q R a)
    (hstep : s.step p cfg a = some s') : s'.Absorbing Q R := by
  cases stepped hstep with
  | turn => exact h.turn _ hbrings.1 hbrings.2
  | @version now o prune payload sv label minAge hw hjob =>
    have htook : { s with writer := { s.writer with taken := s.writer.taken + 1 } }.Absorbing Q R :=
      h.works [.version payload sv label minAge] rfl (lt_of_job hjob) (ahead_take hjob hw)
        (fun _ => .inl) h.numbered h.named
    obtain ⟨db, hdb, heq⟩ := saveVersion_cases p now o prune
      { s with writer := { s.writer with taken := s.writer.taken + 1 } } payload sv minAge
    rw [heq]
    exact htook.elsewhere hdb.nextSeq.ge
  | @snapshot now o prune b hw hjob =>
    have hflush : (s.flush p now o).Absorbing Q R := h.flush
    have hbeside : Beside s (s.flush p now o) := flush_beside
    refine hflush.works [] rfl (by rw [hbeside.room]; exact lt_of_job hjob) ?_ (fun _ => .inl)
      hflush.numbered hflush.named
    exact hbeside.ahead.trans (ahead_inHand hw hjob).symm
  | payload hw hjob hs =>
    rcases hs with rfl | rfl
    · exact h.added hw hjob
    · exact (h.added hw hjob).flush
  | @compact now o snapshot hc =>
    have hput : { s with writer := { s.writer with compacting := none } }.Absorbing Q R :=
      h.works [.snapshot snapshot] rfl h.taken_le (ahead_compact hc) (fun _ => .inl) h.numbered
        h.named
    exact hput.compact snapshot
  | tick => exact h.flush
  | @exit now o hw hstop hnone =>
    have hflush : (s.flush p now o).Absorbing Q R := h.flush
    exact hflush.works [] rfl hflush.taken_le rfl (fun _ => .inl) hflush.numbered hflush.named
  | elsewhere => exact h.elsewhere (Database.saveVersion_sameLog ..).nextSeq.ge

/-! ### The load -/

theorem applied_restore {doc : Document} {d : Doc} (h : restore doc = .ok d)
    (hrows : ∀ b ∈ doc.updates, ∃ u, decodeUpdate b = .ok u) :
    Applied (doc.snapshot.toList ++ doc.updates) d := by
  obtain ⟨d₀, rfl, ⟨hs, rfl⟩ | ⟨b, hs, happly⟩⟩ := restore_ok h
  · rw [hs]
    exact Applied.nil.foldl_receive hrows
  · rw [hs]
    exact (Applied.nil.snoc happly).foldl_receive hrows

/-- A row of the log has a number that was given out. -/
def Numbered (db : Database) : Prop := ∀ u ∈ db.updates, u.seq < db.nextSeq

theorem absorbing_load {limits : Limits} {db : Database} {clock : ℤ} (hdb : Numbered db)
    (hload : load p limits db now clock = .ok s)
    (hrows : ∀ u ∈ db.logOf p.id, Q u.payload ∧ ∃ v, decodeUpdate u.payload = .ok v)
    (hsnapshot : ∀ d b, db.find p.id = some d →
      d.readSnapshot p.flate p.objects = .ok (some b) → Q b) : s.Absorbing Q R := by
  obtain ⟨db', doc, d, hdoc, hd, rfl⟩ := load_ok hload
  obtain ⟨hupdates, hnext⟩ := Database.updates_of_load hdoc
  obtain ⟨row, hfind, -, hread, hpayloads, hseqs⟩ := Database.exists_row_of_load hdoc
  have hlog : db'.logOf p.id = db.logOf p.id := by
    rw [Database.logOf, Database.logOf, hupdates]
  have happ : Applied (doc.snapshot.toList ++ doc.updates) d := by
    refine applied_restore hd fun b hb => ?_
    rw [hpayloads, hlog] at hb
    obtain ⟨u, hu, rfl⟩ := List.mem_map.1 hb
    exact (hrows u hu).2
  have hQ : ∀ b ∈ doc.snapshot.toList ++ doc.updates, Q b := by
    intro b hb
    rcases List.mem_append.1 hb with hb | hb
    · rw [Option.mem_toList.1 hb] at hread
      rcases Database.find_of_load hdoc hfind with hold | ⟨-, rfl⟩
      · exact hsnapshot row b hold hread
      · cases hread
    · rw [hpayloads, hlog] at hb
      obtain ⟨u, hu, rfl⟩ := List.mem_map.1 hb
      exact (hrows u hu).1
  refine ⟨Nat.zero_le _, fun u hu => ?_, fun n hn => ?_, ⟨_, happ, hQ, ?_⟩, ?_⟩
  · show u.seq < db'.nextSeq
    rw [hnext]
    rw [hlog] at hu
    exact hdb u (Database.mem_logOf.1 hu).1
  · rw [hseqs] at hn
    exact List.mem_map.1 hn
  · -- the rows are all that the writer holds
    rintro b ((hb | ⟨u, hu, -, rfl⟩) | hb)
    · cases hb
    · rw [hpayloads]
      exact List.mem_append_right _ (List.mem_map_of_mem hu)
    · cases hb
  · intro pre b post heq
    cases pre <;> cases heq

/-- **The rows that a compaction deletes were applied to the document it writes**, if every row
that the room was loaded from decodes. -/
theorem compaction_absorbs {limits : Limits} {db : Database} {clock : ℤ} {s₀ : Session}
    {l : List Action} {snapshot : Bytes} (hdb : Numbered db)
    (hload : load p limits db now clock = .ok s₀)
    (hrows : ∀ u ∈ db.logOf p.id, ∃ v, decodeUpdate u.payload = .ok v)
    (hrun : run p cfg s₀ l = some s) (hc : s.writer.compacting = some snapshot) :
    ∃ bs d, Applied bs d ∧ d.encodeStateAsUpdate SortedMap.empty = .ok snapshot ∧
      ∀ n ∈ s.writer.folded, (∃ u ∈ s.rows, u.seq = n) ∧
        ∀ u ∈ s.rows, u.seq = n → u.payload ∈ bs := by
  have hbrings : ∀ {s : Session} {a : Action}, s.Brings cfg (fun _ => True) (fun _ => True) a := by
    intro s a
    cases a with
    | turn i => exact ⟨fun _ _ => trivial, fun _ => trivial⟩
    | _ => trivial
  have h : s.Absorbing (fun _ => True) (fun _ => True) :=
    Machine.invariant (P := fun _ _ => True) (fun hs _ hstep => hs.step hbrings hstep)
      (absorbing_load hdb hload (fun u hu => ⟨trivial, hrows u hu⟩) fun _ _ _ _ => trivial)
      (.of_forall (fun _ _ _ => trivial) s₀) hrun
  obtain ⟨bs, d, happ, -, -, henc, hcov⟩ := h.snapshots [] snapshot _ (ahead_compact hc)
  refine ⟨bs, d, happ, henc, fun n hn => ⟨h.named n hn, fun u hu hseq => ?_⟩⟩
  exact hcov _ (.inl (.inr ⟨u, hu, hseq ▸ hn, rfl⟩))

namespace Visit

/-- A store that keeps everything as it is given. -/
def place : Storage where
  id := nilUUID
  owner := nilUUID
  flate := .verbatim

/-- There is a store. -/
def config : Config := { store := true }

/-- The stored document has one update in its log, and no snapshot. -/
def stored (update : Bytes) : Database where
  documents := [⟨nilUUID, nilUUID, none, .raw, none, 0, 0⟩]
  updates := [⟨nilUUID, 1, update, 0⟩]
  nextSeq := 2

/-- The room is evicted, and the writer takes the snapshot. -/
def evicted : List Action := [.turn ⟨.command .evict, 0, []⟩, .take 0 .ok .ok]

/-- Client `1` inserts the letter `a`. -/
def letter : Bytes := [1, 1, 1, 0, 4, 1, 1, 116, 1, 97, 0]

end Visit

open Visit

/-- The log holds a letter, which the snapshot has. -/
theorem letter_absorbed : ∃ s₀ s, load place {} (stored letter) 0 0 = .ok s₀ ∧
    run place config s₀ evicted = some s ∧ s.writer.compacting = some letter ∧
    ∃ bs d, Applied bs d ∧ d.encodeStateAsUpdate SortedMap.empty = .ok letter ∧
      ∀ n ∈ s.writer.folded, (∃ u ∈ s.rows, u.seq = n) ∧
        ∀ u ∈ s.rows, u.seq = n → u.payload ∈ bs := by
  obtain ⟨s₀, s, hload, hrun, hc⟩ : ∃ s₀ s, load place {} (stored letter) 0 0 = .ok s₀ ∧
      run place config s₀ evicted = some s ∧ s.writer.compacting = some letter :=
    ⟨_, _, rfl, rfl, rfl⟩
  refine ⟨s₀, s, hload, hrun, hc, compaction_absorbs ?_ hload ?_ hrun hc⟩
  · intro u hu
    obtain rfl := List.mem_singleton.1 hu
    exact Nat.lt_succ_self 1
  · intro u hu
    obtain rfl := List.mem_singleton.1 hu
    exact ⟨_, rfl⟩

/-- **A row that was skipped is deleted**: the room is loaded from a log with one row, which is not
an update, and is evicted; the row goes, though it was never applied to anything. -/
theorem corrupt_row_deleted : ∃ s₀ s s', load place {} (stored [255]) 0 0 = .ok s₀ ∧
    run place config s₀ evicted = some s ∧ s.writer.compacting = some [0, 0] ∧
    s.writer.folded = [1] ∧ s.rows.map (fun u => (u.seq, u.payload)) = [(1, [255])] ∧
    (∀ bs d, Applied bs d → [255] ∉ bs) ∧
    run place config s [.compact 0 .ok] = some s' ∧ s'.db.updates = [] := by
  have hnever : ∀ bs d, Applied bs d → [255] ∉ bs := by
    intro bs d h
    induction h with
    | nil => exact List.not_mem_nil
    | @snoc bs b d d' _ happly ih =>
      intro hmem
      rcases List.mem_append.1 hmem with hmem | hmem
      · exact ih hmem
      · obtain rfl := List.mem_singleton.1 hmem
        cases happly
  exact ⟨_, _, _, rfl, rfl, rfl, rfl, rfl, hnever, rfl, rfl⟩

end Session

end YCollab.Room
