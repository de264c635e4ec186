import YCollab.Room.ReadOnly

/-!
# What a turn hands to the writer

The room goroutine never talks to the database: it hands jobs to the writer and goes on. This
module says once what a turn of the run loop can do to the document, to the queue of jobs and to
the fields that time the versions (`Turned`), and that every turn is of that form (`turn_turned`).
Whatever follows about the writer is derived from these cases.
-/

namespace YCollab.Room

open Lib0 Crdt Protocol

/-- The update that an event brings, if it brings one. -/
def Event.update : Event → Option Bytes
  | .command (.frame _ frame) => updateOf frame
  | .command (.merge update) => some update
  | .remote env => if env.kind = .update then some env.payload else none
  | .command _ => none

/-- Whether an event comes from another replica. -/
def Event.isRemote : Event → Bool
  | .remote _ => true
  | .command _ => false

/-- `r'` has the document of `r`, its queue, and what it knows of its versions. -/
structure Kept (r r' : Room) : Prop where
  doc : r'.doc = r.doc
  recorded : r'.recorded = r.recorded
  jobs : r'.jobs = r.jobs
  versionDirty : r'.versionDirty = r.versionDirty
  lastVersion : r'.lastVersion = r.lastVersion
  stopped : r'.stopped = r.stopped

/-- `r'` is `r` after it has tried to take a version. -/
structure Attempted (cfg : Config) (now : ℤ) (r r' : Room) : Prop where
  doc : r'.doc = r.doc
  recorded : r'.recorded = r.recorded
  jobs : ∃ label minAge, r'.jobs = r.jobs ++ versionJobs cfg r.doc label minAge
  versionDirty : r'.versionDirty = false
  lastVersion : r'.lastVersion = some now
  stopped : r'.stopped = r.stopped

/-- `r'` is `r` after it has stopped. -/
structure Ended (cfg : Config) (r r' : Room) : Prop where
  doc : r'.doc = r.doc
  recorded : r'.recorded = r.recorded
  jobs : r'.jobs = r.jobs ++ snapshotJobs cfg r.doc
  versionDirty : r'.versionDirty = r.versionDirty
  stopped : r'.stopped = true

/-- `r'` is `r` after it has integrated an update into `doc`, recorded `bs` and handed over `l`. -/
structure Integrated (r r' : Room) (doc : Doc) (bs : List Bytes) (l : List Job) : Prop where
  doc : r'.doc = doc
  recorded : r'.recorded = r.recorded ++ bs
  jobs : r'.jobs = r.jobs ++ l
  versionDirty : r'.versionDirty = true
  lastVersion : r'.lastVersion = r.lastVersion
  stopped : r'.stopped = r.stopped

/-- What a turn can make of a room. -/
inductive Turned (cfg : Config) (i : Input) (r r' : Room) : Prop where
  | kept (h : Kept r r')
  /-- An update is recorded, and there may be enough of them for a compaction. -/
  | recorded {b : Bytes} {doc : Doc} {l : List Job} (hi : i.event.update = some b)
      (happly : r.doc.applyUpdate b = .ok doc) (hl : l = [] ∨ l = snapshotJobs cfg doc)
      (h : Integrated r r' doc [b] ((if cfg.store then [.payload b] else []) ++ l))
  /-- An update of another replica is not recorded. -/
  | received {b : Bytes} {doc : Doc} {env : Envelope} (henv : i.event = .remote env)
      (hi : i.event.update = some b) (happly : r.doc.applyUpdate b = .ok doc)
      (h : Integrated r r' doc [] [])
  | attempted (h : Attempted cfg i.now r r')
  | ended {r₁ : Room} (h : Kept r r₁ ∨ Attempted cfg i.now r r₁) (hend : Ended cfg r₁ r')

theorem Kept.refl (r : Room) : Kept r r := ⟨rfl, rfl, rfl, rfl, rfl, rfl⟩

theorem Kept.trans {r r' r'' : Room} (h : Kept r r') (h' : Kept r' r'') : Kept r r'' where
  doc := h'.doc.trans h.doc
  recorded := h'.recorded.trans h.recorded
  jobs := h'.jobs.trans h.jobs
  versionDirty := h'.versionDirty.trans h.versionDirty
  lastVersion := h'.lastVersion.trans h.lastVersion
  stopped := h'.stopped.trans h.stopped

theorem Integrated.kept {r r' r'' : Room} {doc : Doc} {bs : List Bytes} {l : List Job}
    (h : Integrated r r' doc bs l) (h' : Kept r' r'') : Integrated r r'' doc bs l where
  doc := h'.doc.trans h.doc
  recorded := h'.recorded.trans h.recorded
  jobs := h'.jobs.trans h.jobs
  versionDirty := h'.versionDirty.trans h.versionDirty
  lastVersion := h'.lastVersion.trans h.lastVersion
  stopped := h'.stopped.trans h.stopped

/-- `r'` is `r`, with versions at most handed over. -/
structure Aside (r r' : Room) : Prop where
  doc : r'.doc = r.doc
  recorded : r'.recorded = r.recorded
  jobs : ∃ l, r'.jobs = r.jobs ++ l ∧
    ∀ job ∈ l, ∃ payload sv label minAge, job = .version payload sv label minAge
  stopped : r'.stopped = r.stopped

theorem Kept.aside {r r' : Room} (h : Kept r r') : Aside r r' :=
  ⟨h.doc, h.recorded, ⟨[], by rw [h.jobs, List.append_nil], nofun⟩, h.stopped⟩

theorem Attempted.aside {cfg : Config} {now : ℤ} {r r' : Room} (h : Attempted cfg now r r') :
    Aside r r' := by
  obtain ⟨label, minAge, hjobs⟩ := h.jobs
  refine ⟨h.doc, h.recorded, ⟨_, hjobs, fun job hjob => ?_⟩, h.stopped⟩
  unfold versionJobs at hjob
  split at hjob
  · split at hjob
    · exact ⟨_, _, _, _, List.mem_singleton.1 hjob⟩
    · cases hjob
  · cases hjob

namespace Handler

variable {cfg : Config} {now : ℤ} {h h' : Handler}

/-! ### The connections -/

theorem publish_kept (kind : Kind) (payload : Bytes) :
    Kept h.room (h.publish cfg kind payload).room := by
  unfold publish
  split
  · exact ⟨rfl, rfl, rfl, rfl, rfl, rfl⟩
  · exact .refl _

theorem kept_traffic : Traffic cfg now (fun _ => True) fun h h' => Kept h.room h'.room where
  refl h := .refl h.room
  trans := .trans
  send _ _ _ _ := .refl _
  close _ _ _ _ := .refl _
  cursors _ := trivial
  depart _ := ⟨rfl, rfl, rfl, rfl, rfl, rfl⟩
  publish {h h' conn clients} payload _ hd := by
    have hgone : Kept h.room (h.departed now conn clients).room := ⟨rfl, rfl, rfl, rfl, rfl, rfl⟩
    exact (hgone.trans hd).trans (publish_kept .awareness payload)

theorem awareness_kept (conn : Conn) (payload : Bytes) :
    Kept h.room (h.awareness cfg now conn payload).room := by
  have haw : ∀ aw, Kept h.room ({ h with room := { h.room with aw } } : Handler).room :=
    fun _ => ⟨rfl, rfl, rfl, rfl, rfl, rfl⟩
  unfold awareness
  split
  next aw _ err _ =>
    simp only
    split
    · refine (haw aw).trans ?_
      exact (kept_traffic.drop conn _ _ (({ h with room := { h.room with aw } } :
        Handler).send conn _).1 : Kept _ (drop cfg now _ _ _ _).room)
    · exact (haw aw).trans (kept_traffic.drop conn _ _ _)
  next aw _ => exact haw aw
  next aw changed _ _ =>
    simp only
    split
    · exact ⟨rfl, rfl, rfl, rfl, rfl, rfl⟩
    · refine .trans ?_ (publish_kept ..)
      refine .trans ?_ (kept_traffic.broadcast trivial (some conn) _)
      exact ⟨rfl, rfl, rfl, rfl, rfl, rfl⟩

theorem remoteAwareness_kept (payload : Bytes) :
    Kept h.room (h.remoteAwareness cfg now payload).room := by
  unfold remoteAwareness
  split
  · exact ⟨rfl, rfl, rfl, rfl, rfl, rfl⟩
  · simp only
    split
    · exact ⟨rfl, rfl, rfl, rfl, rfl, rfl⟩
    · refine .trans ?_ (kept_traffic.broadcast trivial none _)
      exact ⟨rfl, rfl, rfl, rfl, rfl, rfl⟩
  · exact ⟨rfl, rfl, rfl, rfl, rfl, rfl⟩

theorem announce_kept : Kept h.room (h.announce cfg now).room := by
  obtain heq | ⟨sv, -, heq⟩ := announce_eq cfg now h <;> rw [heq]
  · exact .refl _
  · refine .trans ?_ (publish_kept ..)
    exact ⟨rfl, rfl, rfl, rfl, rfl, rfl⟩

theorem sweepAwareness_kept : Kept h.room (h.sweepAwareness cfg now).room := by
  unfold sweepAwareness
  split
  · refine .trans ?_ (kept_traffic.broadcast trivial none _)
    exact ⟨rfl, rfl, rfl, rfl, rfl, rfl⟩
  · exact ⟨rfl, rfl, rfl, rfl, rfl, rfl⟩

theorem join_kept (conn : Conn) : Kept h.room (h.join conn).room := by
  unfold join
  split
  · exact .refl _
  · exact ⟨rfl, rfl, rfl, rfl, rfl, rfl⟩

theorem answerStateVector_kept (sv : Bytes) :
    Kept h.room (h.answerStateVector cfg sv).room := by
  unfold answerStateVector
  split
  · exact .refl _
  · split
    · exact .refl _
    · exact publish_kept ..

/-! ### The writer -/

theorem relayed_integrated (doc : Doc) (cfg : Config) (now : ℤ) (h : Handler) (b : Bytes)
    (except : Option Conn) :
    let h₁ := ({ h with room := { h.room with doc } } : Handler).record cfg b
    let h₂ : Handler := { h₁ with room := { h₁.room with versionDirty := true } }
    ∃ l, (l = [] ∨ l = snapshotJobs cfg doc) ∧ Integrated h.room
      ((h₂.broadcast cfg now (writeUpdate b) except).publish cfg .update b).room doc [b]
      ((if cfg.store then [.payload b] else []) ++ l) := by
  intro h₁ h₂
  obtain ⟨l, n, hl, heq⟩ := record_eq cfg { h with room := { h.room with doc } } b
  have hint : Integrated h.room h₂.room doc [b]
      ((if cfg.store then [.payload b] else []) ++ l) := by
    simp only [h₂, h₁, heq]
    exact ⟨rfl, rfl, rfl, rfl, rfl, rfl⟩
  exact ⟨l, hl, hint.kept ((kept_traffic.broadcast trivial except h₂).trans (publish_kept ..))⟩

theorem relayed_turned {i : Input} {doc : Doc} {b : Bytes} (hi : i.event.update = some b)
    (happly : h.room.doc.applyUpdate b = .ok doc) (except : Option Conn) :
    let h₁ := ({ h with room := { h.room with doc } } : Handler).record cfg b
    let h₂ : Handler := { h₁ with room := { h₁.room with versionDirty := true } }
    Turned cfg i h.room
      ((h₂.broadcast cfg now (writeUpdate b) except).publish cfg .update b).room := by
  intro h₁ h₂
  obtain ⟨l, hl, hint⟩ := relayed_integrated doc cfg now h b except
  exact .recorded hi happly hl hint

theorem merge_integrated {b : Bytes} (hreply : (h.merge cfg now b).reply = some (.merged none)) :
    ∃ doc l, h.room.doc.applyUpdate b = .ok doc ∧
      Integrated h.room (h.merge cfg now b).room doc [b] l := by
  unfold merge at hreply ⊢
  cases happly : h.room.doc.applyUpdate b with
  | error err =>
    rw [happly] at hreply
    cases hreply
  | ok doc =>
    obtain ⟨l, -, hint⟩ := relayed_integrated doc cfg now h b none
    exact ⟨doc, _, rfl, hint⟩

theorem attempt (cfg : Config) (now : ℤ) (h : Handler) (label : Bytes) (minAge : ℤ) :
    Attempted cfg now h.room (({ h with room := { h.room with
      versionDirty := false, lastVersion := some now } } : Handler).queueVersion cfg label
        minAge).1.room := by
  rw [queueVersion_eq]
  exact ⟨rfl, rfl, ⟨label, minAge, rfl⟩, rfl, rfl, rfl⟩

theorem versionTick_cases (cfg : Config) (now : ℤ) (h : Handler) : h.versionTick cfg now = h ∨
    Attempted cfg now h.room (h.versionTick cfg now).room := by
  refine (versionTick_eq cfg now h).imp_right fun heq => ?_
  rw [heq]
  exact ⟨rfl, rfl, ⟨[], cfg.versionInterval, rfl⟩, rfl, rfl, rfl⟩

theorem versionTick_due (hversions : cfg.versions = true) (hinterval : 0 < cfg.versionInterval)
    (hdirty : h.room.versionDirty = true)
    (hlast : ∀ last ∈ h.room.lastVersion, cfg.versionInterval ≤ now - last) :
    (h.versionTick cfg now).room.jobs =
      h.room.jobs ++ versionJobs cfg h.room.doc [] cfg.versionInterval := by
  unfold versionTick
  rw [if_neg (by simp [hversions, hdirty, hinterval]), if_neg, queueVersion_eq]
  intro hsoon
  obtain ⟨last, hmem, hlt⟩ := (Option.any_eq_true _ _).1 hsoon
  exact absurd (hlast last hmem) (by simpa using hlt)

theorem stop_ended (cfg : Config) (h : Handler) (code : ℕ) (reason : Bytes) :
    Ended cfg h.room (h.stop cfg code reason).room := by
  obtain ⟨n, heq⟩ := stop_room cfg h code reason
  rw [heq]
  exact ⟨rfl, rfl, rfl, rfl, rfl⟩

/-! ### Commands and envelopes -/

theorem update_turned {i : Input} {conn : Conn} {b : Bytes} (hi : i.event.update = some b) :
    Turned cfg i h.room (h.update cfg now conn b).room := by
  unfold update
  split
  · refine .kept ?_
    split
    · exact .refl _
    · exact (kept_traffic.drop conn _ _ (h.send conn _).1 : Kept _ (drop cfg now _ _ _ _).room)
  · split
    · exact .kept (kept_traffic.drop conn _ _ h)
    next doc hdoc => exact relayed_turned hi hdoc (some conn)

theorem merge_turned {i : Input} {b : Bytes} (hi : i.event.update = some b) :
    Turned cfg i h.room (h.merge cfg now b).room := by
  unfold merge
  split
  · exact .kept (.refl _)
  next doc hdoc => exact relayed_turned hi hdoc none

theorem frame_turned {i : Input} {conn : Conn} {frame : Bytes}
    (hi : i.event.update = updateOf frame) :
    Turned cfg i h.room (h.frame cfg now conn frame).room := by
  unfold Handler.frame
  split
  · exact .kept (.refl _)
  · split
    · exact .kept (kept_traffic.drop conn _ _ h)
    · exact .kept (kept_traffic.syncStep1 conn _ h)
    next hdecode => exact update_turned (hi.trans (by simp [updateOf, hdecode]))
    next hdecode => exact update_turned (hi.trans (by simp [updateOf, hdecode]))
    · exact .kept (awareness_kept conn _)
    · exact .kept (kept_traffic.sendAll conn h)
    · exact .kept (.refl _)

theorem tick_turned {i : Input} : Turned cfg i h.room (h.tick cfg i.now).1.room := by
  have hquiet : Kept h.room ((h.sweepAwareness cfg i.now).announce cfg i.now).room :=
    sweepAwareness_kept.trans announce_kept
  have hversion : Kept h.room
        (((h.sweepAwareness cfg i.now).announce cfg i.now).versionTick cfg i.now).room ∨
      Attempted cfg i.now h.room
        (((h.sweepAwareness cfg i.now).announce cfg i.now).versionTick cfg i.now).room := by
    obtain heq | hatt := versionTick_cases cfg i.now
      ((h.sweepAwareness cfg i.now).announce cfg i.now)
    · exact .inl (by rw [heq]; exact hquiet)
    · refine .inr ⟨hatt.doc.trans hquiet.doc, hatt.recorded.trans hquiet.recorded, ?_,
        hatt.versionDirty, hatt.lastVersion, hatt.stopped.trans hquiet.stopped⟩
      rw [← hquiet.doc, ← hquiet.jobs]
      exact hatt.jobs
  have hgoes : Turned cfg i h.room
      (((h.sweepAwareness cfg i.now).announce cfg i.now).versionTick cfg i.now).room :=
    hversion.elim .kept .attempted
  obtain heq | ⟨-, heq⟩ := tick_eq cfg i.now h <;> rw [heq]
  · exact hgoes
  · exact .ended hversion (stop_ended ..)

theorem tick_jobs (hversions : cfg.versions = true) (hinterval : 0 < cfg.versionInterval)
    (hdirty : h.room.versionDirty = true)
    (hlast : ∀ last ∈ h.room.lastVersion, cfg.versionInterval ≤ now - last) :
    ∃ l, (h.tick cfg now).1.room.jobs =
      h.room.jobs ++ versionJobs cfg h.room.doc [] cfg.versionInterval ++ l := by
  have hquiet : Kept h.room ((h.sweepAwareness cfg now).announce cfg now).room :=
    sweepAwareness_kept.trans announce_kept
  have hjobs := versionTick_due hversions hinterval (hquiet.versionDirty.trans hdirty)
    (fun last hmem => hlast last (hquiet.lastVersion ▸ hmem))
  rw [hquiet.jobs, hquiet.doc] at hjobs
  obtain heq | ⟨-, heq⟩ := tick_eq cfg now h <;> rw [heq]
  · exact ⟨[], by rw [hjobs, List.append_nil]⟩
  · exact ⟨_, by rw [evict, (stop_ended ..).jobs, hjobs]⟩

theorem remoteEnvelope_turned {i : Input} {env : Envelope} (hi : i.event = .remote env) :
    Turned cfg i h.room (h.remoteEnvelope cfg now env).room := by
  unfold remoteEnvelope
  split
  next hkind =>
    unfold remoteUpdate
    split
    · exact .kept (.refl _)
    next doc hdoc =>
      refine .received hi (by rw [hi]; exact if_pos hkind) hdoc (.kept (l := []) ?_
        (kept_traffic.broadcast trivial none _))
      exact ⟨rfl, by simp, by simp, rfl, rfl, rfl⟩
  · exact .kept (remoteAwareness_kept _)
  · exact .kept (answerStateVector_kept _)

theorem handle_turned {i : Input} {c : Command} (hi : i.event = .command c) :
    Turned cfg i h.room (h.handle cfg i.now c).1.room := by
  cases c with
  | join conn => exact .kept (join_kept conn)
  | leave conn => exact .kept (kept_traffic.leave conn h)
  | frame conn frame => exact frame_turned (by rw [hi]; rfl)
  | tick => exact tick_turned
  | read sv => exact .kept (.refl _)
  | merge update => exact merge_turned (by rw [hi]; rfl)
  | version label =>
    unfold handle takeVersion
    simp only
    split
    · exact .kept (.refl _)
    · exact .attempted (attempt cfg i.now h label 0)
  | evict =>
    unfold handle
    simp only
    split
    · exact .kept (.refl _)
    · exact .ended (.inl (.refl _)) (stop_ended cfg h ..)

end Handler

/-- **Every turn is one of the cases.** -/
theorem turn_turned (cfg : Config) (r : Room) (i : Input) :
    Turned cfg i r (r.turn cfg i).room := by
  unfold turn
  split
  next c hi => exact Handler.handle_turned (h := { room := r, outcomes := i.outcomes }) hi
  next env hi => exact Handler.remoteEnvelope_turned (h := { room := r, outcomes := i.outcomes }) hi

/-- **What a turn records**: the update that it applied, or nothing; then the document is as it was,
or the update came over the bus. -/
theorem turn_records (cfg : Config) (r : Room) (i : Input) :
    (r.turn cfg i).room.recorded = r.recorded ∧ ((r.turn cfg i).room.doc = r.doc ∨
        ∃ b, i.event.isRemote = true ∧ i.event.update = some b ∧
          r.doc.applyUpdate b = .ok (r.turn cfg i).room.doc) ∨
      ∃ b, i.event.update = some b ∧ r.doc.applyUpdate b = .ok (r.turn cfg i).room.doc ∧
        (r.turn cfg i).room.recorded = r.recorded ++ [b] := by
  cases turn_turned cfg r i with
  | kept h => exact .inl ⟨h.recorded, .inl h.doc⟩
  | recorded hi happly _ h => exact .inr ⟨_, hi, h.doc ▸ happly, h.recorded⟩
  | received henv hi happly h =>
    refine .inl ⟨h.recorded.trans (List.append_nil _), .inr ⟨_, ?_, hi, h.doc ▸ happly⟩⟩
    rw [henv]
    rfl
  | attempted h => exact .inl ⟨h.recorded, .inl h.doc⟩
  | ended h hend =>
    have ha := h.elim (·.aside) (·.aside)
    exact .inl ⟨hend.recorded.trans ha.recorded, .inl (hend.doc.trans ha.doc)⟩

end YCollab.Room
