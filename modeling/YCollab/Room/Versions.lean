import YCollab.Room.Absorbed
import YCollab.Room.Handshake
import YCollab.Store.Spacing

/-!
# Versions that are due

On its tick a room takes a version if the interval has passed since its last attempt and something
has changed since then. What has changed is told by a flag that the attempt clears, though whether
a version is written is decided later, by the writer and the database.

`due_version_attempted` says when a version that is due is attempted: in a session in which every
version the writer takes is saved unless it says nothing new, and in which no other replica leaves
a version behind that this room would not have written. An attempt that is refused or fails is not
made again, though the version stays due (`failed_version_forgotten`).
-/

namespace YCollab.Room

open Lib0 Crdt Protocol Store

theorem ne_nil_of_encode {u : Update} {b : Bytes} (h : u.encode = .ok b) : b ≠ [] := by
  rintro rfl
  have hpos := varUint_length_pos u.clients.length
  rw [List.prefix_nil.1 (Update.blocks_of_encode h)] at hpos
  cases hpos

/-! ### The queue -/

/-- The state vector of a job that is a version. -/
def Job.stateVector : Job → Option Bytes
  | .version _ sv _ _ => some sv
  | _ => none

/-- The state vector of the last version in a queue. -/
def lastQueued (l : List Job) : Option Bytes := (l.filterMap Job.stateVector).getLast?

theorem lastQueued_append (l l' : List Job) :
    lastQueued (l ++ l') = (lastQueued l').or (lastQueued l) := by
  rw [lastQueued, List.filterMap_append, List.getLast?_append]
  rfl

theorem lastQueued_snapshotJobs (cfg : Config) (d : Doc) :
    lastQueued (snapshotJobs cfg d) = none := by
  unfold snapshotJobs
  split
  · split <;> rfl
  · rfl

theorem versionJobs_eq {cfg : Config} {d : Doc} {payload sv : Bytes} (hstore : cfg.store = true)
    (hpayload : d.encodeStateAsUpdate SortedMap.empty = .ok payload)
    (hsv : d.encodeStateVector = .ok sv) (label : Bytes) (minAge : ℤ) :
    versionJobs cfg d label minAge = [.version payload sv label minAge] := by
  simp only [versionJobs, hpayload, hsv, hstore, if_true]

namespace Session

variable {p : Storage} {cfg : Config} {s s' : Session} {now : ℕ} {o prune : Outcome} {l : List Job}

/-- The state vector that the newest version will have when the queue is worked off. -/
def Upcoming (p : Storage) (s : Session) (sv : Bytes) : Prop :=
  lastQueued s.ahead = some sv ∨
    lastQueued s.ahead = none ∧ ∃ v, s.db.newest p.id = some v ∧ v.stateVector = sv

/-- What the flag of a room says about the versions of its document. -/
structure Current (p : Storage) (s : Session) : Prop where
  taken_le : s.writer.taken ≤ s.room.jobs.length
  ids : ∀ v ∈ s.db.versions, v.id < s.db.nextVersion
  full : ∀ payload sv label minAge, .version payload sv label minAge ∈ s.ahead → payload ≠ []
  /-- Nothing has changed since the version that is or will be the newest. -/
  current : s.room.versionDirty = false → ∀ sv, s.Upcoming p sv →
    s.room.doc.encodeStateVector = .ok sv

/-- The document can be encoded. -/
def Encodes (d : Doc) : Prop :=
  (d.encodeStateAsUpdate SortedMap.empty).isOk ∧ d.encodeStateVector.isOk

/-- If the job is a version, it is saved unless it says nothing new. -/
def Saves (p : Storage) (s : Session) (now : ℕ) (o : Outcome) : Option Job → Prop
  | some (.version _ sv _ minAge) =>
    o ≠ .failed ∧ (s.db.find p.id).isSome ∧
      ∀ v ∈ s.db.newest p.id, (v.createdAt : ℤ) + minAge ≤ now ∨ v.stateVector = sv
  | _ => True

/-- What has to hold of an action, in the state it happens in: versions are taken of documents that
can be encoded and are written unless they say nothing new, the writer keeps up with the ticks, and
another replica leaves the version that this room would leave. -/
def Undisturbed (p : Storage) (s : Session) : Action → Prop
  | .turn i => Encodes s.room.doc ∧ (i.event = .command .tick → lastQueued s.ahead = none)
  | .take now o _ => s.Saves p now o s.room.jobs[s.writer.taken]?
  | .elsewhere _ _ sv _ => s.room.versionDirty = true ∨ s.room.doc.encodeStateVector = .ok sv
  | _ => True

instance (d : Doc) : Decidable (Encodes d) := inferInstanceAs (Decidable (_ ∧ _))

instance (s : Session) : ∀ job, Decidable (s.Saves p now o job)
  | some (.version ..) => inferInstanceAs (Decidable (_ ∧ _ ∧ _))
  | some (.payload _) | some (.snapshot _) | none => inferInstanceAs (Decidable True)

instance (s : Session) : ∀ a, Decidable (s.Undisturbed p a)
  | .turn _ => inferInstanceAs (Decidable (_ ∧ (_ → _)))
  | .take .. => inferInstanceAs (Decidable (s.Saves p _ _ _))
  | .elsewhere .. => inferInstanceAs (Decidable (_ ∨ _))
  | .compact .. | .tick .. | .exit .. => inferInstanceAs (Decidable True)

theorem Encodes.exists {d : Doc} (h : Encodes d) : ∃ payload sv,
    d.encodeStateAsUpdate SortedMap.empty = .ok payload ∧ d.encodeStateVector = .ok sv := by
  obtain ⟨hpayload, hsv⟩ := h
  cases hp : d.encodeStateAsUpdate SortedMap.empty with
  | error err => simp [hp, Except.isOk, Except.toBool] at hpayload
  | ok payload =>
    cases hs : d.encodeStateVector with
    | error err => simp [hs, Except.isOk, Except.toBool] at hsv
    | ok sv => exact ⟨payload, sv, rfl, rfl⟩

/-! ### The room's turns -/

/-- The room goes on; if it has nothing to version, it had nothing before, or has just handed over
a version. -/
theorem Current.goes (h : s.Current p) {r : Room} {m : Doc} (hjobs : r.jobs = s.room.jobs ++ l)
    (hfull : ∀ payload sv label minAge, .version payload sv label minAge ∈ l → payload ≠ [])
    (hsome : r.versionDirty = false → ∀ sv, lastQueued l = some sv →
      r.doc.encodeStateVector = .ok sv)
    (hnone : r.versionDirty = false → lastQueued l = none →
      s.room.versionDirty = false ∧ r.doc = s.room.doc) :
    { s with room := r, marked := m }.Current p := by
  have hahead : { s with room := r, marked := m }.ahead = s.ahead ++ l :=
    ahead_turn h.taken_le hjobs
  refine ⟨?_, h.ids, ?_, fun hdirty sv hup => ?_⟩
  · show s.writer.taken ≤ r.jobs.length
    rw [hjobs, List.length_append]
    exact h.taken_le.trans (Nat.le_add_right ..)
  · intro payload sv label minAge hmem
    rw [hahead] at hmem
    exact (List.mem_append.1 hmem).elim (h.full payload sv label minAge)
      (hfull payload sv label minAge)
  · unfold Upcoming at hup
    rw [hahead, lastQueued_append] at hup
    cases hl : lastQueued l with
    | some sv' =>
      rw [hl, Option.some_or] at hup
      rcases hup with heq | ⟨heq, -⟩
      · cases heq
        exact hsome hdirty _ hl
      · cases heq
    | none =>
      rw [hl, Option.none_or] at hup
      obtain ⟨hclean, hdoc⟩ := hnone hdirty hl
      show r.doc.encodeStateVector = .ok sv
      rw [hdoc]
      exact h.current hclean sv hup

theorem Current.kept (h : s.Current p) {r : Room} {m : Doc} (hk : Kept s.room r) :
    { s with room := r, marked := m }.Current p :=
  h.goes (l := []) (by rw [hk.jobs, List.append_nil]) nofun (fun _ => nofun)
    fun hdirty _ => ⟨hk.versionDirty.symm.trans hdirty, hk.doc⟩

theorem Current.attempted (h : s.Current p) (hstore : cfg.store = true)
    (henc : Encodes s.room.doc) {clock : ℤ} {r : Room} {m : Doc}
    (hatt : Attempted cfg clock s.room r) :
    { s with room := r, marked := m }.Current p := by
  obtain ⟨payload, sv, hpayload, hsv⟩ := henc.exists
  obtain ⟨label, minAge, hjobs⟩ := hatt.jobs
  rw [versionJobs_eq hstore hpayload hsv] at hjobs
  refine h.goes hjobs ?_ (fun _ sv' hsv' => ?_) fun _ => nofun
  · intro payload' sv' label' minAge' hmem
    obtain ⟨⟩ := List.mem_singleton.1 hmem
    exact ne_nil_of_encode hpayload
  · have hlast : lastQueued [.version payload sv label minAge] = some sv := rfl
    rw [hlast] at hsv'
    cases hsv'
    rw [hatt.doc, hsv]

theorem Current.turn (h : s.Current p) (hstore : cfg.store = true) (i : Input)
    (henc : Encodes s.room.doc) : (s.turn cfg i).Current p := by
  have hsnapshots : ∀ {d payload sv label minAge},
      .version payload sv label minAge ∈ snapshotJobs cfg d → payload ≠ [] := by
    intro d payload sv label minAge hmem
    unfold snapshotJobs at hmem
    rw [if_pos hstore] at hmem
    split at hmem
    · cases List.mem_singleton.1 hmem
    · cases hmem
  have hintegrated : ∀ {doc : Doc} {bs : List Bytes} {l : List Job},
      Integrated s.room (s.room.turn cfg i).room doc bs l →
      (∀ payload sv label minAge, .version payload sv label minAge ∈ l → payload ≠ []) →
      (s.turn cfg i).Current p := by
    intro doc bs l hint hfull
    have hdirty : ∀ {P : Prop}, (s.room.turn cfg i).room.versionDirty = false → P := by
      intro P hfalse
      rw [hint.versionDirty] at hfalse
      cases hfalse
    exact h.goes hint.jobs hfull (fun hd => hdirty hd) fun hd => hdirty hd
  cases turn_turned cfg s.room i with
  | kept hk => exact h.kept hk
  | @recorded b doc l hi happly hl hint =>
    refine hintegrated hint fun payload sv label minAge hmem => ?_
    rw [if_pos hstore] at hmem
    rcases List.mem_append.1 hmem with hmem | hmem
    · cases List.mem_singleton.1 hmem
    · rcases hl with rfl | rfl
      · cases hmem
      · exact hsnapshots hmem
  | received henv hi happly hint => exact hintegrated hint nofun
  | attempted hatt => exact h.attempted hstore henc hatt
  | @ended r₁ hfirst hend =>
    have h₁ : { s with room := r₁ }.Current p := hfirst.elim h.kept (h.attempted hstore henc)
    refine h₁.goes hend.jobs (fun _ _ _ _ => hsnapshots) (fun _ sv hsv => ?_)
      fun hdirty _ => ⟨hend.versionDirty.symm.trans hdirty, hend.doc⟩
    rw [lastQueued_snapshotJobs] at hsv
    cases hsv

/-! ### The writer -/

theorem Current.works (h : s.Current p) (done : List Job) (hroom : s'.room = s.room)
    (htaken : s'.writer.taken ≤ s.room.jobs.length) (hahead : s.ahead = done ++ s'.ahead)
    (hdone : lastQueued done = none) (hversions : s'.db.versions = s.db.versions)
    (hnext : s'.db.nextVersion = s.db.nextVersion) : s'.Current p := by
  refine ⟨by rw [hroom]; exact htaken, by rw [hversions, hnext]; exact h.ids, ?_, ?_⟩
  · intro payload sv label minAge hmem
    exact h.full payload sv label minAge (by rw [hahead]; exact List.mem_append_right _ hmem)
  · rw [hroom]
    intro hdirty sv hup
    refine h.current hdirty sv ?_
    unfold Upcoming at hup ⊢
    rw [Database.newest, hversions] at hup
    rw [hahead, lastQueued_append, hdone, Option.or_none]
    exact hup

theorem flush_versions : (s.flush p now o).db.versions = s.db.versions ∧
    (s.flush p now o).db.nextVersion = s.db.nextVersion := by
  obtain ⟨-, h⟩ | ⟨-, -, -, h⟩ | ⟨-, -, h⟩ | ⟨-, -, h⟩ := flush_cases p now o s <;> rw [h] <;>
    exact ⟨rfl, rfl⟩

theorem Current.flush (h : s.Current p) : (s.flush p now o).Current p := by
  have hbeside : Beside s (s.flush p now o) := flush_beside
  refine h.works [] hbeside.room ?_ hbeside.ahead.symm rfl flush_versions.1 flush_versions.2
  rw [hbeside.taken]
  exact h.taken_le

theorem compact_versions {snapshot : Bytes} :
    (s.compact p now o snapshot).db.versions = s.db.versions ∧
      (s.compact p now o snapshot).db.nextVersion = s.db.nextVersion := by
  obtain ⟨-, h⟩ | ⟨-, h⟩ | ⟨db, folded, hdb, -, h⟩ := compact_cases p now o s snapshot
  · rw [h]
    exact ⟨rfl, rfl⟩
  · rw [h]
    exact ⟨rfl, rfl⟩
  · rw [h]
    exact ⟨Database.versions_compact hdb, Database.nextVersion_compact hdb⟩

theorem newest_saved {db : Database} {row v : VersionRow} (hids : ∀ v ∈ db.versions, v.id < row.id)
    (hdoc : row.doc = p.id) (hv : Newest (row :: db.versions) p.id v) : v = row := by
  rcases List.mem_cons.1 hv.1 with rfl | hmem
  · rfl
  · exact absurd (hv.2.2 row (List.mem_cons_self ..) hdoc) (Nat.not_le.2 (hids v hmem))

/-- What `SaveVersion` makes of the newest version. -/
theorem newest_saveVersion {db db' : Database} {payload sv : Bytes} {minAge : ℤ} {written : Bool}
    (hsave : db.saveVersion p.flate p.id now payload sv minAge = (db', written))
    (hids : ∀ v ∈ db.versions, v.id < db.nextVersion) :
    (∀ v ∈ db'.versions, v.id < db'.nextVersion) ∧
      ((∀ v, Newest db'.versions p.id v → v.stateVector = sv) ∨
        written = false ∧ db' = db ∧ (payload ≠ [] → (db.find p.id).isSome →
          ∃ v, db.newest p.id = some v ∧
            ((now : ℤ) < v.createdAt + minAge ∨ v.stateVector = sv))) := by
  unfold Database.saveVersion at hsave
  split at hsave
  next hnew =>
    cases hsave
    refine ⟨?_, .inl fun v hv => ?_⟩
    · intro v hv
      rcases List.mem_cons.1 hv with rfl | hv
      · exact Nat.lt_succ_self _
      · exact Nat.lt_succ_of_lt (hids v hv)
    · rw [newest_saved hids rfl hv]
  next hold =>
    cases hsave
    refine ⟨hids, .inr ⟨rfl, rfl, fun hne hfound => ?_⟩⟩
    have hsays : (db.newest p.id).any fun v =>
        (v.createdAt : ℤ) > now - minAge ∨ v.stateVector = sv := by
      by_contra hnot
      exact hold ⟨hne, by simp only [Database.saysNew, hfound, hnot]; rfl⟩
    obtain ⟨v, hv, hsays⟩ := (Option.any_eq_true _ _).1 hsays
    refine ⟨v, hv, ?_⟩
    simp only [decide_eq_true_eq] at hsays
    exact hsays.imp_left fun hlt => by omega

/-- The writer saves a version. -/
theorem Current.saves (h : s.Current p) {payload sv label : Bytes} {minAge : ℤ} (hw : s.Waiting)
    (hjob : s.room.jobs[s.writer.taken]? = some (.version payload sv label minAge))
    (ho : o ≠ .failed) (hfound : (s.db.find p.id).isSome)
    (hage : ∀ v, s.db.newest p.id = some v →
      (v.createdAt : ℤ) + minAge ≤ now ∨ v.stateVector = sv) :
    ({ s with writer := { s.writer with taken := s.writer.taken + 1 } }.saveVersion p now o prune
      payload sv minAge).Current p := by
  have hlt : s.writer.taken + 1 ≤ s.room.jobs.length := (List.getElem?_eq_some_iff.1 hjob).1
  have hahead := ahead_take hjob hw
  have hfull : payload ≠ [] :=
    h.full payload sv label minAge (by rw [hahead]; exact List.mem_cons_self ..)
  -- whatever the database holds now, its newest version has the state vector of the job
  have hput : ∀ db, (∀ v ∈ db.versions, v.id < db.nextVersion) →
      (∀ v, db.newest p.id = some v → v.stateVector = sv) →
      { s with db, writer := { s.writer with taken := s.writer.taken + 1 } }.Current p := by
    intro db hids hnewest
    refine ⟨hlt, hids, ?_, fun hdirty sv' hup => h.current hdirty sv' ?_⟩
    · intro payload' sv' label' minAge' hmem
      refine h.full payload' sv' label' minAge' ?_
      rw [hahead]
      exact List.mem_cons_of_mem _ hmem
    · have hq : lastQueued s.ahead = (lastQueued { s with db, writer := { s.writer with
          taken := s.writer.taken + 1 } }.ahead).or (some sv) := by
        rw [hahead, ← List.singleton_append, lastQueued_append]
        rfl
      refine .inl ?_
      rcases hup with hsome | ⟨hnone, v, hv, rfl⟩
      · rw [hq, hsome, Option.some_or]
      · rw [hq, hnone, Option.none_or, hnewest v hv]
  rcases hsave : s.db.saveVersion p.flate p.id now payload sv minAge with ⟨db, written⟩
  obtain ⟨hids, hnewest⟩ := newest_saveVersion hsave h.ids
  unfold Session.saveVersion
  rw [if_neg ho]
  simp only [hsave]
  rcases hnewest with hnewest | ⟨rfl, rfl, hrefused⟩
  · split
    next hprune =>
      refine hput _ (fun v hv => hids v (Database.mem_versions_of_pruneVersions hv)) fun v hv => ?_
      have htrims : Trims db.versions (db.pruneVersions p.id p.versionKeep).1.versions :=
        Database.trims_pruneVersions (Nat.pos_iff_ne_zero.1 hprune.2.2.1)
      exact hnewest v (htrims.newest (Database.newest_spec hv))
    next => exact hput _ hids fun v hv => hnewest v (Database.newest_spec hv)
  · rw [if_neg (by simp)]
    refine hput _ hids fun v hv => ?_
    obtain ⟨v', hv', hwhy⟩ := hrefused hfull hfound
    obtain rfl : v = v' := Option.some.inj (hv.symm.trans hv')
    rcases hage v hv with hle | hsv
    · exact hwhy.resolve_left (by omega)
    · exact hsv

/-- **Every action that disturbs nothing keeps it.** -/
theorem Current.step (h : s.Current p) (hstore : cfg.store = true) {a : Action}
    (ha : s.Undisturbed p a) (hstep : s.step p cfg a = some s') : s'.Current p := by
  cases stepped hstep with
  | turn hrun => exact h.turn hstore _ ha.1
  | version hw hjob =>
    simp only [Undisturbed, hjob] at ha
    obtain ⟨ho, hfound, hage⟩ := ha
    exact h.saves hw hjob ho hfound hage
  | @snapshot now o prune b hw hjob =>
    have hflush : (s.flush p now o).Current p := h.flush
    have hbeside : Beside s (s.flush p now o) := flush_beside
    refine hflush.works [] rfl (by rw [hbeside.room]; exact lt_of_job hjob) ?_ rfl rfl rfl
    exact hbeside.ahead.trans (ahead_inHand hw hjob).symm
  | @payload now o prune b s' hw hjob hs =>
    have hadd : (s.added b).Current p :=
      h.works [.payload b] rfl (lt_of_job hjob) (ahead_take hjob hw) rfl rfl rfl
    rcases hs with rfl | rfl
    · exact hadd
    · exact hadd.flush
  | @compact now o snapshot hc =>
    have hput : { s with writer := { s.writer with compacting := none } }.Current p :=
      h.works [.snapshot snapshot] rfl h.taken_le (ahead_compact hc) rfl rfl rfl
    have hbeside : Beside { s with writer := { s.writer with compacting := none } }
      ({ s with writer := { s.writer with compacting := none } }.compact p now o snapshot) :=
        compact_beside
    refine hput.works [] hbeside.room ?_ hbeside.ahead.symm rfl compact_versions.1
      compact_versions.2
    rw [hbeside.taken]
    exact h.taken_le
  | tick => exact h.flush
  | @exit now o hw hstop hnone =>
    have hflush : (s.flush p now o).Current p := h.flush
    exact hflush.works [] rfl hflush.taken_le rfl rfl rfl rfl
  | @elsewhere now payload sv minAge =>
    rcases hsave : s.db.saveVersion p.flate p.id now payload sv minAge with ⟨db, written⟩
    obtain ⟨hids, hnewest | ⟨-, rfl, -⟩⟩ := newest_saveVersion hsave h.ids
    · refine ⟨h.taken_le, hids, h.full, fun hdirty sv' hup => ?_⟩
      rcases hup with hsome | ⟨hnone, v, hv, rfl⟩
      · exact h.current hdirty sv' (.inl hsome)
      · -- the other replica's version is the newest now
        rw [hnewest v (Database.newest_spec hv)]
        exact ha.resolve_left (by rw [hdirty]; nofun)
    · exact h

/-! ### The tick -/

theorem current_load {limits : Limits} {db : Database} {clock : ℤ}
    (hids : ∀ v ∈ db.versions, v.id < db.nextVersion) (hload : load p limits db now clock = .ok s)
    (hnewest : ∀ v, db.newest p.id = some v → s.room.doc.encodeStateVector = .ok v.stateVector) :
    s.Current p := by
  obtain ⟨db', doc, d, hdoc, hd, rfl⟩ := load_ok hload
  obtain ⟨hversions, hnext⟩ := Database.versions_of_load hdoc
  refine ⟨Nat.zero_le _, ?_, nofun, fun _ sv hup => ?_⟩
  · rw [hversions, hnext]
    exact hids
  · rcases hup with hsome | ⟨-, v, hv, rfl⟩
    · cases hsome
    · rw [Database.newest, hversions] at hv
      exact hnewest v hv

/-- **A version that is due is attempted**, if nothing has disturbed the session: the room was
loaded as it was last versioned, and versions are written unless they say nothing new. The age of
the newest version does not matter. -/
theorem due_version_attempted {limits : Limits} {db : Database} {clock : ℤ} {s₀ : Session}
    {l : List Action} {i : Input} {v : VersionRow} {sv : Bytes} (hstore : cfg.store = true)
    (hversions : cfg.versions = true) (hinterval : 0 < cfg.versionInterval)
    (hids : ∀ v ∈ db.versions, v.id < db.nextVersion)
    (hload : load p limits db now clock = .ok s₀)
    (hnewest : ∀ v, db.newest p.id = some v →
      s₀.room.doc.encodeStateVector = .ok v.stateVector)
    (halong : Machine.Along (step p cfg) (Undisturbed p) s₀ (l ++ [.turn i]))
    (hrun : run p cfg s₀ l = some s) (hi : i.event = .command .tick)
    (hv : s.db.newest p.id = some v)
    (hlast : ∀ last ∈ s.room.lastVersion, last + cfg.versionInterval ≤ i.now)
    (hsv : s.room.doc.encodeStateVector = .ok sv) (hnew : sv ≠ v.stateVector) :
    ∃ payload rest, (s.room.turn cfg i).room.jobs =
      s.room.jobs ++ .version payload sv [] cfg.versionInterval :: rest := by
  obtain ⟨hbefore, htick⟩ := halong.split
  have h : s.Current p := Machine.invariant (fun hs ha hstep => hs.step hstore ha hstep)
    (current_load hids hload hnewest) hbefore hrun
  obtain ⟨henc, hqueue⟩ := (htick s hrun).1
  obtain ⟨payload, sv', hpayload, -⟩ := henc.exists
  -- nothing is on its way to the database, so the flag tells that the newest version is old
  have hdirty : s.room.versionDirty = true := by
    by_contra hclean
    have hsame := h.current (by simpa using hclean) v.stateVector (.inr ⟨hqueue hi, v, hv, rfl⟩)
    rw [hsv] at hsame
    cases hsame
    exact hnew rfl
  obtain ⟨rest, hjobs⟩ := Handler.tick_jobs (h := { room := s.room, outcomes := i.outcomes })
    hversions hinterval hdirty fun last hmem => le_sub_iff_add_le'.2 (hlast last hmem)
  refine ⟨payload, rest, ?_⟩
  unfold Room.turn
  rw [hi]
  refine hjobs.trans ?_
  rw [versionJobs_eq hstore hpayload hsv, List.append_assoc]
  rfl

namespace Hourly

open Visit

/-- There are versions, at least ten ticks of the clock apart. -/
def versioning : Config := { store := true, versions := true, versionInterval := 10 }

/-- The document is empty, and there is a version that says so. -/
def blank : Database where
  documents := [⟨nilUUID, nilUUID, none, .raw, none, 0, 0⟩]
  versions := [⟨nilUUID, 1, 0, [0], [0, 0], .raw, none⟩]
  nextVersion := 2

/-- The room of this document. -/
def blankRoom : Session where
  room := { Room.new {} 0 with doc := .empty, sinceSnapshot := 0 }
  db := blank

/-- A client that may write. -/
def bob : Conn := ⟨2, true⟩

/-- Somebody types, and the room ticks. -/
def types (update : Bytes) : Action := .turn ⟨.command (.frame bob (writeUpdate update)), 0, []⟩

/-- The room ticks. -/
def ticks (now : ℤ) : Action := .turn ⟨.command .tick, now, []⟩

/-- Client `1` inserts a second letter. -/
def letter₂ : Bytes := [1, 1, 1, 1, 132, 1, 0, 1, 98, 0]

/-- The first letter is typed, and the attempt to take a version ends in `o`. -/
def attempt (o : Outcome) : List Action :=
  [.turn ⟨.command (.join bob), 0, []⟩, types letter, ticks 100, .take 100 .ok .ok, .take 100 o .ok]

end Hourly

open Visit Hourly

/-- The version after the first letter is written, and that after the second is attempted. -/
theorem second_version_attempted :
    load place {} blank 0 0 = .ok blankRoom ∧
    ∃ s, run place versioning blankRoom (attempt .ok ++ [types letter₂]) = some s ∧
      s.db.versions.map (·.stateVector) = [[1, 1, 1], [0]] ∧
      ∃ payload rest, (s.room.turn versioning ⟨.command .tick, 200, []⟩).room.jobs =
        s.room.jobs ++ .version payload [1, 1, 2] [] 10 :: rest := by
  have hrun : (run place versioning blankRoom (attempt .ok ++ [types letter₂])).map (fun s =>
      (s.db.versions.map (·.stateVector), (s.db.newest nilUUID).map (·.stateVector),
        s.room.lastVersion, s.room.doc.encodeStateVector.toOption)) =
      some ([[1, 1, 1], [0]], some [1, 1, 1], some 100, some [1, 1, 2]) := by decide +kernel
  obtain ⟨s, hs, hfacts⟩ := Option.map_eq_some_iff.1 hrun
  simp only [Prod.mk.injEq] at hfacts
  obtain ⟨hrows, hnewest, hlast, hsv⟩ := hfacts
  obtain ⟨v, hv, hvsv⟩ := Option.map_eq_some_iff.1 hnewest
  have hload : load place {} blank 0 0 = .ok blankRoom := rfl
  have hids : ∀ v ∈ blank.versions, v.id < blank.nextVersion := by
    intro v hv
    obtain rfl := List.mem_singleton.1 hv
    exact Nat.lt_succ_self 1
  have halong : Machine.Along (step place versioning) (Undisturbed place) blankRoom
      ((attempt .ok ++ [types letter₂]) ++ [ticks 200]) := by decide +kernel
  refine ⟨hload, s, hs, hrows, due_version_attempted rfl rfl (by decide) hids hload ?_ halong hs rfl
    hv ?_ ?_ ?_⟩
  · rintro v ⟨⟩
    rfl
  · rw [hlast]
    rintro last ⟨⟩
    decide
  · cases henc : s.room.doc.encodeStateVector with
    | error err => simp [henc, Except.toOption] at hsv
    | ok sv =>
      rw [henc] at hsv
      exact congrArg _ (Option.some.inj hsv)
  · rw [hvsv]
    decide

/-- **An attempt that has failed is not made again**: the letter is typed, the version of it is not
written, and the next tick hands over nothing, though the newest version is still the first. -/
theorem failed_version_forgotten :
    load place {} blank 0 0 = .ok blankRoom ∧
    ∃ s, run place versioning blankRoom (attempt .failed) = some s ∧
      (s.db.newest nilUUID).map (fun v => (v.createdAt, v.stateVector)) = some (0, [0]) ∧
      s.room.lastVersion = some 100 ∧ s.room.doc.encodeStateVector = .ok [1, 1, 1] ∧
      (s.room.turn versioning ⟨.command .tick, 200, []⟩).room.jobs = s.room.jobs :=
  ⟨rfl, _, rfl, rfl, rfl, rfl, rfl⟩

end Session

end YCollab.Room
