import YCollab.Store.Archive

/-!
# One timed version an interval

Every replica that holds a document runs its own timer, and `SaveVersion` is to keep them apart: a
version is written only if the newest one has another state vector and is at least `minAge` old.
`now()` is the time at which the transaction began, so a transaction that waited for the lock may
write an earlier time than one that was committed before it; the check compares the same two times,
so such a version is refused.

`versions_spaced` says it of every run of the calls of `Store.Archive`. Between the check and the
commit the newest version stays: the lock keeps other versions of the document out, and pruning
leaves the newest one. Without object storage the statements are the same.
-/

namespace YCollab.Store

/-! ### Newest rows -/

/-- `v` is the newest row of the document, by number. -/
def Newest (versions : List VersionRow) (doc : UUID) (v : VersionRow) : Prop :=
  v ∈ versions ∧ v.doc = doc ∧ ∀ w ∈ versions, w.doc = doc → w.id ≤ v.id

/-- `row` may follow the rows of its document: it is numbered after all of them, has another state
vector than the newest, and is at least `minAge` younger. -/
def Follows (versions : List VersionRow) (minAge : ℤ) (row : VersionRow) : Prop :=
  (∀ v ∈ versions, v.doc = row.doc → v.id < row.id) ∧
  ∀ v, Newest versions row.doc v →
    v.stateVector ≠ row.stateVector ∧ (v.createdAt : ℤ) + minAge ≤ row.createdAt

/-- The rows of `versions'` are rows of `versions`, and if any row of the document is left, so is the
newest. -/
def Trims (versions versions' : List VersionRow) : Prop :=
  (∀ v ∈ versions', v ∈ versions) ∧
  ∀ v ∈ versions', ∀ w ∈ versions, w.doc = v.doc → ∃ u ∈ versions', u.doc = v.doc ∧ w.id ≤ u.id

section

variable {versions versions' : List VersionRow} {doc : UUID} {v row : VersionRow} {minAge : ℤ}

theorem Trims.refl : Trims versions versions :=
  ⟨fun _ hv => hv, fun _ _ w hw hdoc => ⟨w, hw, hdoc, le_rfl⟩⟩

theorem Trims.newest (h : Trims versions versions') (hv : Newest versions' doc v) :
    Newest versions doc v := by
  refine ⟨h.1 v hv.1, hv.2.1, fun w hw hdoc => ?_⟩
  obtain ⟨u, hu, hudoc, hle⟩ := h.2 v hv.1 w hw (hdoc.trans hv.2.1.symm)
  exact hle.trans (hv.2.2 u hu (hudoc.trans hv.2.1))

theorem Follows.trims (h : Follows versions minAge row) (ht : Trims versions versions') :
    Follows versions' minAge row :=
  ⟨fun v hv => h.1 v (ht.1 v hv), fun v hv => h.2 v (ht.newest hv)⟩

theorem Follows.cons {other : VersionRow} (h : Follows versions minAge row)
    (hdoc : other.doc ≠ row.doc) : Follows (other :: versions) minAge row := by
  have hmem : ∀ {v}, v ∈ other :: versions → v.doc = row.doc → v ∈ versions := by
    intro v hv hvdoc
    rcases List.mem_cons.1 hv with rfl | hv
    · exact absurd hvdoc hdoc
    · exact hv
  refine ⟨fun v hv hvdoc => h.1 v (hmem hv hvdoc) hvdoc, fun v hv => h.2 v ?_⟩
  exact ⟨hmem hv.1 hv.2.1, hv.2.1, fun w hw => hv.2.2 w (List.mem_cons_of_mem _ hw)⟩

end

namespace Database

variable {db : Database} {id : UUID}

/-- The walk that `newest` makes finds a greatest number. -/
theorem foldl_newest (l : List VersionRow) (best : Option VersionRow) {v : VersionRow}
    (h : l.foldl (fun best v =>
      match best with
      | some b => if b.id < v.id then some v else some b
      | none => some v) best = some v) :
    (v ∈ l ∨ best = some v) ∧ (∀ w ∈ l, w.id ≤ v.id) ∧ ∀ b, best = some b → b.id ≤ v.id := by
  induction l generalizing best with
  | nil => exact ⟨.inr h, by simp, fun b hb => by cases hb.symm.trans h; exact le_rfl⟩
  | cons w l ih =>
    obtain ⟨hmem, hmax, hbest⟩ := ih _ h
    cases best with
    | none =>
      have hw := hbest w rfl
      refine ⟨.inl ?_, List.forall_mem_cons.2 ⟨hw, hmax⟩, nofun⟩
      rcases hmem with hmem | hmem
      · exact List.mem_cons_of_mem _ hmem
      · cases hmem
        exact List.mem_cons_self ..
    | some b =>
      simp only at hmem hbest
      split at hmem
      next hlt =>
        rw [if_pos hlt] at hbest
        have hw := hbest w rfl
        refine ⟨.inl ?_, List.forall_mem_cons.2 ⟨hw, hmax⟩, ?_⟩
        · rcases hmem with hmem | hmem
          · exact List.mem_cons_of_mem _ hmem
          · cases hmem
            exact List.mem_cons_self ..
        · rintro b' ⟨⟩
          exact hlt.le.trans hw
      next hle =>
        rw [if_neg hle] at hbest
        have hb := hbest b rfl
        refine ⟨hmem.imp_left (List.mem_cons_of_mem _), List.forall_mem_cons.2 ⟨?_, hmax⟩, ?_⟩
        · omega
        · rintro b' ⟨⟩
          exact hb

theorem newest_spec {v : VersionRow} (h : db.newest id = some v) : Newest db.versions id v := by
  obtain ⟨hmem, hmax, -⟩ := foldl_newest _ _ h
  obtain ⟨hv, hdoc⟩ := List.mem_filter.1 (hmem.resolve_right nofun)
  refine ⟨hv, by simpa using hdoc, fun w hw hwdoc => hmax w (List.mem_filter.2 ⟨hw, ?_⟩)⟩
  simpa using hwdoc

theorem foldl_newest_isSome (l : List VersionRow) (best : Option VersionRow)
    (h : best.isSome ∨ l ≠ []) :
    (l.foldl (fun best v =>
      match best with
      | some b => if b.id < v.id then some v else some b
      | none => some v) best).isSome := by
  induction l generalizing best with
  | nil => simpa using h
  | cons w l ih =>
    refine ih _ (.inl ?_)
    cases best with
    | none => rfl
    | some b =>
      simp only
      split <;> rfl

theorem newest_isSome {v : VersionRow} (hv : v ∈ db.versions) (hdoc : v.doc = id) :
    (db.newest id).isSome := by
  refine foldl_newest_isSome _ _ (.inr (List.ne_nil_of_mem (a := v) ?_))
  exact List.mem_filter.2 ⟨hv, by simpa using hdoc⟩

theorem follows_of_saysNew {minAge : ℤ} {row : VersionRow}
    (hids : ∀ v ∈ db.versions, v.doc = row.doc → v.id < row.id)
    (hsingle : ∀ v ∈ db.versions, ∀ w ∈ db.versions, v.doc = w.doc → v.id = w.id → v = w)
    (h : db.saysNew row.doc row.stateVector minAge row.createdAt = true) :
    Follows db.versions minAge row := by
  refine ⟨hids, fun v hv => ?_⟩
  obtain ⟨b, hb⟩ := Option.isSome_iff_exists.1 (newest_isSome hv.1 hv.2.1)
  have hnew := newest_spec hb
  obtain rfl : v = b := hsingle v hv.1 b hnew.1 (hv.2.1.trans hnew.2.1.symm)
    (le_antisymm (hnew.2.2 v hv.1 hv.2.1) (hv.2.2 b hnew.1 hnew.2.1))
  unfold saysNew at h
  simp only [hb, Option.any_some, Bool.and_eq_true, Bool.not_eq_true', decide_eq_false_iff_not,
    not_or] at h
  exact ⟨h.2.2, by omega⟩

theorem trims_deleteDocuments (p : DocumentRow → Bool) :
    Trims db.versions (db.deleteDocuments p).versions := by
  refine ⟨fun v hv => (mem_versions_deleteDocuments.1 hv).1, fun v hv w hw hdoc => ?_⟩
  -- a document that keeps one row keeps all of them
  refine ⟨w, mem_versions_deleteDocuments.2 ⟨hw, ?_⟩, hdoc, le_rfl⟩
  rw [hdoc]
  exact (mem_versions_deleteDocuments.1 hv).2

theorem exists_max_take {l : List ℕ} {keep : ℕ} (hl : l ≠ []) (hkeep : keep ≠ 0) :
    ∃ m ∈ (l.insertionSort (· ≥ ·)).take keep, ∀ x ∈ l, x ≤ m := by
  obtain ⟨k, rfl⟩ := Nat.exists_eq_succ_of_ne_zero hkeep
  have hperm : (l.insertionSort (· ≥ ·)).Perm l := List.perm_insertionSort ..
  have hsorted : (l.insertionSort (· ≥ ·)).Pairwise (· ≥ ·) := List.pairwise_insertionSort ..
  cases hsort : l.insertionSort (· ≥ ·) with
  | nil => exact absurd (hsort ▸ hperm).symm.eq_nil hl
  | cons m rest =>
    rw [hsort] at hperm hsorted
    refine ⟨m, by simp, fun x hx => ?_⟩
    rcases List.mem_cons.1 (hperm.mem_iff.2 hx) with rfl | hx
    · exact le_rfl
    · exact (List.pairwise_cons.1 hsorted).1 x hx

theorem trims_pruneVersions {keep : ℕ} (hkeep : keep ≠ 0) :
    Trims db.versions (db.pruneVersions id keep).1.versions := by
  refine ⟨fun v hv => mem_versions_of_pruneVersions hv, fun v hv w hw hdoc => ?_⟩
  by_cases hid : v.doc = id
  · have hwid : w.id ∈ (db.versions.filter (·.doc = id)).map (·.id) :=
      List.mem_map.2 ⟨w, List.mem_filter.2 ⟨hw, by simpa using hdoc.trans hid⟩, rfl⟩
    obtain ⟨m, hm, hmax⟩ := exists_max_take (List.ne_nil_of_mem hwid) hkeep
    have hmid := (List.perm_insertionSort ..).mem_iff.1 (List.mem_of_mem_take hm)
    obtain ⟨u, hu, rfl⟩ := List.mem_map.1 hmid
    obtain ⟨hu, hudoc⟩ := List.mem_filter.1 hu
    have hudoc : u.doc = id := by simpa using hudoc
    refine ⟨u, List.mem_filter.2 ⟨hu, ?_⟩, hudoc.trans hid.symm, hmax w.id hwid⟩
    simp [hudoc, hm]
  · refine ⟨w, List.mem_filter.2 ⟨hw, ?_⟩, hdoc, le_rfl⟩
    simp [hdoc, hid]

theorem nextVersion_append {payloads : List Bytes} {now : ℕ} {db' : Database} {seqs : List ℕ}
    (h : db.append id payloads now = some (db', seqs)) : db'.nextVersion = db.nextVersion := by
  unfold append at h
  split at h
  · cases h
    rfl
  · split at h
    · cases h
    · cases h
      rfl

theorem nextVersion_compact {snapshot : Option Bytes} {codec : Codec} {key : Option Key}
    {folded : List ℕ} {now : ℕ} {db' : Database}
    (h : db.compact id snapshot codec key folded now = .ok db') :
    db'.nextVersion = db.nextVersion := by
  simp only [compact] at h
  split at h
  · cases h
  · split at h
    · cases h
      rfl
    · cases h

end Database

namespace Archive

/-- What the call with this number was last started as. -/
def lastStart (l : List Action) (i : ℕ) : Option Op :=
  l.foldl (fun op a =>
    match a with
    | .start j op' => if j = i then some op' else op
    | _ => op) none

/-- The document whose lock the call has. -/
def Phase.locks : Phase → Option UUID
  | .locked c => some c.id
  | .put c _ => some c.id
  | .inserted row _ => some row.doc
  | _ => none

/-- What the call at `p`, which was started as `op`, is about to do is in order: `SaveVersion` has
what it was called with, a row that is inserted may follow those that are committed, and pruning
leaves something. -/
def Phase.InOrder (db : Database) (op : Option Op) : Phase → Prop
  | .begun c => op = some (.saveVersion c.id c.stateVector c.payload c.minAge)
  | .locked c => op = some (.saveVersion c.id c.stateVector c.payload c.minAge)
  | .put c _ => op = some (.saveVersion c.id c.stateVector c.payload c.minAge)
  | .inserted row _ => row.id < db.nextVersion ∧ ∃ payload minAge,
      op = some (.saveVersion row.doc row.stateVector payload minAge) ∧
        Follows db.versions minAge row
  | .pruning _ keep => keep ≠ 0
  | _ => True

/-- The invariant of a run. -/
structure Spaced (l : List Action) (s : Archive) : Prop where
  ids : ∀ v ∈ s.db.versions, v.id < s.db.nextVersion
  single : ∀ v ∈ s.db.versions, ∀ w ∈ s.db.versions, v.doc = w.doc → v.id = w.id → v = w
  locks : ∀ i p id, s.calls i = some p → p.locks = some id → s.lock id = some i
  calls : ∀ i p, s.calls i = some p → p.InOrder s.db (lastStart l i)

variable {flate : Flate} {s s' : Archive} {l : List Action} {i : ℕ} {p : Phase}

theorem lastStart_append (a : Action) (i : ℕ) : lastStart (l ++ [a]) i =
    match a with
    | .start j op => if j = i then some op else lastStart l i
    | _ => lastStart l i := by
  simp only [lastStart, List.foldl_append, List.foldl_cons, List.foldl_nil]

theorem Phase.InOrder.trims {db db' : Database} {op : Option Op} (h : p.InOrder db op)
    (ht : Trims db.versions db'.versions) (hnext : db.nextVersion ≤ db'.nextVersion) :
    p.InOrder db' op := by
  cases p with
  | inserted row key =>
    obtain ⟨hid, payload, minAge, hop, hfollows⟩ := h
    exact ⟨hid.trans_le hnext, payload, minAge, hop, hfollows.trims ht⟩
  | _ => exact h

theorem Spaced.trims {db : Database} (h : Spaced l s) (ht : Trims s.db.versions db.versions)
    (hnext : s.db.nextVersion ≤ db.nextVersion) : Spaced l { s with db } where
  ids v hv := (h.ids v (ht.1 v hv)).trans_le hnext
  single v hv w hw := h.single v (ht.1 v hv) w (ht.1 w hw)
  locks := h.locks
  calls j q hj := (h.calls j q hj).trims ht hnext

theorem Spaced.setCall (h : Spaced l s) (hlocks : ∀ id, p.locks = some id → s.lock id = some i)
    (hp : p.InOrder s.db (lastStart l i)) : Spaced l (s.setCall i p) where
  ids := h.ids
  single := h.single
  locks j q id hj hq := by
    rcases Machine.set_eq_some.1 hj with ⟨rfl, rfl⟩ | ⟨-, hj⟩
    · exact hlocks id hq
    · exact h.locks j q id hj hq
  calls j q hj := by
    rcases Machine.set_eq_some.1 hj with ⟨rfl, rfl⟩ | ⟨-, hj⟩
    · exact hp
    · exact h.calls j q hj

theorem Spaced.endCall (h : Spaced l s) (i : ℕ) : Spaced l (s.endCall i) where
  ids := h.ids
  single := h.single
  locks j q id hj hq := by
    obtain ⟨hji, hj⟩ := Machine.unset_eq_some.1 hj
    simp [Archive.endCall, h.locks j q id hj hq, hji]
  calls j q hj := h.calls j q (Machine.unset_eq_some.1 hj).2

theorem Spaced.append (h : Spaced l s) {a : Action} (ha : ∀ j op, a ≠ .start j op) :
    Spaced (l ++ [a]) s where
  ids := h.ids
  single := h.single
  locks := h.locks
  calls j q hj := by
    have hlast : lastStart (l ++ [a]) j = lastStart l j := by
      rw [lastStart_append]
      cases a with
      | start k op => exact absurd rfl (ha k op)
      | _ => rfl
    rw [hlast]
    exact h.calls j q hj

theorem Spaced.insert (h : Spaced l s) {c : Save} {key : Key} (hi : s.calls i = some (.put c key))
    (hnew : s.db.saysNew c.id c.stateVector c.minAge c.now = true) :
    Spaced l ({ s with
      db := { s.db with nextVersion := s.db.nextVersion + 1 }
      referred := (i, c.id) :: s.referred }.setCall i (.inserted (s.rowOf flate c key) key)) := by
  have hbase : Spaced l { s with db := { s.db with nextVersion := s.db.nextVersion + 1 } } :=
    h.trims .refl (Nat.le_succ _)
  have hrefer : Spaced l { s with
      db := { s.db with nextVersion := s.db.nextVersion + 1 }
      referred := (i, c.id) :: s.referred } :=
    ⟨hbase.ids, hbase.single, hbase.locks, hbase.calls⟩
  refine hrefer.setCall (fun id hid => h.locks i _ id hi hid)
    ⟨Nat.lt_succ_self _, c.payload, c.minAge, h.calls i _ hi, ?_⟩
  exact Database.follows_of_saysNew (fun v hv _ => h.ids v hv) h.single hnew

/-- The call commits its row. Another call that has inserted one has another lock, so its row is one
of another document. -/
theorem Spaced.commit (h : Spaced l s) {row : VersionRow} {key : Key}
    (hi : s.calls i = some (.inserted row key)) :
    Spaced l ({ s with db := { s.db with versions := row :: s.db.versions } }.endCall i) := by
  obtain ⟨hid, payload, minAge, hop, hfollows⟩ := h.calls i _ hi
  have hend := h.endCall i
  refine ⟨List.forall_mem_cons.2 ⟨hid, h.ids⟩, ?_, hend.locks, fun j q hj => ?_⟩
  · rintro v (_ | ⟨_, hv⟩) w (_ | ⟨_, hw⟩) hdoc heq
    · rfl
    · exact absurd heq (hfollows.1 w hw hdoc.symm).ne'
    · exact absurd heq (hfollows.1 v hv hdoc).ne
    · exact h.single v hv w hw hdoc heq
  · have hq := hend.calls j q hj
    cases q with
    | inserted row' key' =>
      obtain ⟨hid', payload', minAge', hop', hfollows'⟩ := hq
      refine ⟨hid', payload', minAge', hop', hfollows'.cons fun hdoc => ?_⟩
      have hji : j ≠ i := by
        rintro rfl
        simp [Archive.endCall] at hj
      simp only [Archive.endCall, Function.update_of_ne hji] at hj
      have hlock := h.locks i _ row.doc hi rfl
      have hlock' := h.locks j _ row'.doc hj rfl
      rw [← hdoc, hlock] at hlock'
      exact hji (Option.some.inj hlock').symm
    | _ => exact hq

theorem Spaced.start (h : Spaced l s) (hi : s.calls i = none) (op : Op) :
    Spaced (l ++ [.start i op]) (s.start i op) := by
  have hlast : lastStart (l ++ [.start i op]) i = some op := by
    rw [lastStart_append]
    exact if_pos rfl
  have hbase : Spaced (l ++ [.start i op]) s := by
    refine ⟨h.ids, h.single, h.locks, fun j q hj => ?_⟩
    have hne : i ≠ j := by
      rintro rfl
      rw [hi] at hj
      cases hj
    have hother : lastStart (l ++ [.start i op]) j = lastStart l j := by
      rw [lastStart_append]
      exact if_neg hne
    rw [hother]
    exact h.calls j q hj
  cases op with
  | saveVersion id stateVector payload minAge =>
    simp only [Archive.start]
    split
    · exact hbase
    · exact hbase.setCall (by rintro _ ⟨⟩) hlast
  | pruneVersions id keep =>
    simp only [Archive.start]
    split
    · exact hbase
    next hkeep => exact hbase.setCall (by rintro _ ⟨⟩) hkeep
  | delete id => exact hbase.setCall (by rintro _ ⟨⟩) trivial
  | deleteIdle before => exact hbase.setCall (by rintro _ ⟨⟩) trivial

theorem Spaced.act (h : Spaced l s) (hi : s.calls i = some p) {a : Act}
    (hact : s.act flate i p a = some s') : Spaced l s' := by
  have hp := h.calls i p hi
  unfold Archive.act at hact
  split at hact
  next c =>
    split at hact
    next hfree =>
      cases hact
      -- nobody else has the lock
      have hlock : Spaced l { s with lock := Function.update s.lock c.id (some i) } := by
        refine ⟨h.ids, h.single, fun j q id hj hq => ?_, h.calls⟩
        have hheld := h.locks j q id hj hq
        by_cases hid : id = c.id
        · rw [hid, hfree] at hheld
          cases hheld
        · exact (Function.update_of_ne hid ..).trans hheld
      refine hlock.setCall (fun id hid => ?_) hp
      cases hid
      exact Function.update_self ..
    next => cases hact
  next c random =>
    cases hact
    have hput : Spaced l { s with
        objects := Function.update s.objects (.version c.id random) (some (pack flate c.payload).1) } :=
      ⟨h.ids, h.single, h.locks, h.calls⟩
    exact hput.setCall (fun id hid => h.locks i _ id hi hid) hp
  next c key ok =>
    split at hact
    next hnew =>
      cases hact
      exact h.insert hi (by simpa using (Bool.and_eq_true_iff.1 hnew).2)
    next =>
      cases hact
      exact h.setCall nofun trivial
  next row key =>
    cases hact
    exact h.commit hi
  next id keep =>
    cases hact
    exact (h.trims (Database.trims_pruneVersions hp) le_rfl).setCall nofun trivial
  next id =>
    cases hact
    exact h.setCall nofun trivial
  next id keys =>
    split at hact
    · cases hact
    · split at hact
      · cases hact
        exact (h.trims (Database.trims_deleteDocuments _) le_rfl).setCall nofun trivial
      · cases hact
        exact h.endCall i
  next before =>
    cases hact
    exact h.setCall nofun trivial
  next before keys =>
    split at hact
    · cases hact
    · cases hact
      exact (h.trims (Database.trims_deleteDocuments _) le_rfl).setCall nofun trivial
  next key keys ok =>
    cases hact
    have hdrop : Spaced l { s with
        objects := if ok then Function.update s.objects key none else s.objects } :=
      ⟨h.ids, h.single, h.locks, h.calls⟩
    exact hdrop.setCall nofun trivial
  next =>
    cases hact
    exact h.endCall i
  next => cases hact

theorem Spaced.step (h : Spaced l s) {a : Action} (hstep : s.step flate a = some s') :
    Spaced (l ++ [a]) s' := by
  cases a with
  | start i op =>
    simp only [Archive.step] at hstep
    split at hstep
    · cases hstep
    next hi =>
      cases hstep
      exact h.start hi op
  | act i a =>
    simp only [Archive.step] at hstep
    split at hstep
    next p hi => exact (h.act hi hstep).append (by simp)
    next => cases hstep
  | stop i =>
    cases hstep
    exact (h.endCall i).append (by simp)
  | ensure id owner =>
    cases hstep
    have hbase : Spaced (l ++ [.ensure id owner]) s := h.append (by simp)
    refine hbase.trims ?_ ?_
    · rw [Database.versions_ensureIn]
      exact .refl
    · unfold Database.ensureIn
      split <;> exact le_rfl
  | append id payloads =>
    simp only [Archive.step] at hstep
    split at hstep
    next db seqs happ =>
      cases hstep
      have hbase : Spaced (l ++ [.append id payloads]) s := h.append (by simp)
      refine hbase.trims ?_ (Database.nextVersion_append happ).ge
      rw [(Database.versions_append happ).1]
      exact .refl
    next => cases hstep
  | compact id codec folded =>
    simp only [Archive.step] at hstep
    split at hstep
    next db hcomp =>
      cases hstep
      have hbase : Spaced (l ++ [.compact id codec folded]) s := h.append (by simp)
      refine hbase.trims ?_ (Database.nextVersion_compact hcomp).ge
      rw [Database.versions_compact hcomp]
      exact .refl
    next => cases hstep
  | object id seq body =>
    cases hstep
    have hbase : Spaced (l ++ [.object id seq body]) s := h.append (by simp)
    exact ⟨hbase.ids, hbase.single, hbase.locks, hbase.calls⟩
  | tick =>
    cases hstep
    have hbase : Spaced (l ++ [.tick]) s := h.append (by simp)
    exact ⟨hbase.ids, hbase.single, hbase.locks, hbase.calls⟩

theorem spaced_of_run (hrun : Machine.run (Archive.step flate) {} l = some s) : Spaced l s := by
  have hnew : Spaced [] {} := ⟨nofun, nofun, nofun, nofun⟩
  exact Machine.history hnew (fun _ h hstep => h.step hstep) hrun

/-- No row of their document is numbered between `v` and `w`. -/
def Consecutive (versions : List VersionRow) (v w : VersionRow) : Prop :=
  v ∈ versions ∧ w ∈ versions ∧ v.doc = w.doc ∧ v.id < w.id ∧
    ∀ x ∈ versions, x.doc = w.doc → x.id ≤ v.id ∨ w.id ≤ x.id

end Archive

open Archive in
/-- **One timed version an interval.** Whatever calls run side by side, when a call commits, it
commits the row of the `SaveVersion` it was started as. The row is the last one of its document, and
the row before it has another state vector and is older by at least the `minAge` of the call. -/
theorem versions_spaced {flate : Flate} {l : List Action} {s s' : Archive} {i : ℕ}
    (hrun : Machine.run (Archive.step flate) {} l = some s)
    (hstep : s.step flate (.act i .commit) = some s') :
    ∃ row payload minAge, s'.db.versions = row :: s.db.versions ∧
      lastStart l i = some (.saveVersion row.doc row.stateVector payload minAge) ∧
      (∀ v ∈ s'.db.versions, v.doc = row.doc → v.id ≤ row.id) ∧
      ∀ v, Consecutive s'.db.versions v row →
        v.stateVector ≠ row.stateVector ∧ (v.createdAt : ℤ) + minAge ≤ row.createdAt := by
  have h := spaced_of_run hrun
  simp only [Archive.step] at hstep
  split at hstep
  next p hi =>
    -- only a call that has inserted a row can commit
    cases p with
    | inserted row key =>
      cases hstep
      obtain ⟨-, payload, minAge, hop, hfollows⟩ := h.calls i _ hi
      refine ⟨row, payload, minAge, rfl, hop, ?_, ?_⟩
      · rintro v (_ | ⟨_, hv⟩) hdoc
        · exact le_rfl
        · exact (hfollows.1 v hv hdoc).le
      · rintro v ⟨hv, -, hdoc, hlt, hbetween⟩
        rcases List.mem_cons.1 hv with rfl | hv
        · exact absurd hlt (lt_irrefl _)
        · refine hfollows.2 v ⟨hv, hdoc, fun w hw hwdoc => ?_⟩
          rcases hbetween w (List.mem_cons_of_mem _ hw) hwdoc with hle | hle
          · exact hle
          · exact absurd hle (hfollows.1 w hw hwdoc).not_ge
    | dropping keys => cases keys <;> cases hstep
    | _ => cases hstep
  next => cases hstep

namespace Archive.Sample

/-- Two replicas save a version; the one that began first waits for the lock and is refused. Later a
third version is about to be committed. -/
def spaced : List Action :=
  [.ensure old nilUUID, .start 0 (.saveVersion old [0] [1] 1), .tick,
    .start 1 (.saveVersion old [1] [1] 1), .act 1 .lock, .act 1 (.put [1]), .act 1 (.insert true),
    .act 1 .commit, .act 0 .lock, .act 0 (.put [0]), .act 0 (.insert true), .act 0 (.drop true),
    .act 0 .finish, .tick, .start 0 (.saveVersion old [2] [1] 1), .act 0 .lock, .act 0 (.put [2]),
    .act 0 (.insert true)]

end Archive.Sample

open Archive Archive.Sample in
/-- The third version follows the one that was committed. -/
theorem versions_spaced_witness :
    ∃ s s' row v, Machine.run (Archive.step verbatim) {} spaced = some s ∧
      s.step verbatim (.act 0 .commit) = some s' ∧ s'.db.versions = [row, v] ∧
      v.stateVector ≠ row.stateVector ∧ (v.createdAt : ℤ) + 1 ≤ row.createdAt := by
  obtain ⟨s, s', row, v, hrun, hstep, hrows, hcons, hlast⟩ : ∃ s s' row v,
      Machine.run (Archive.step verbatim) {} spaced = some s ∧
      s.step verbatim (.act 0 .commit) = some s' ∧ s'.db.versions = [row, v] ∧
      Archive.Consecutive [row, v] v row ∧
      Archive.lastStart spaced 0 = some (.saveVersion old [2] [1] 1) :=
    ⟨_, _, _, _, rfl, rfl, rfl,
      ⟨by simp, by simp, rfl, by decide, by simp⟩, rfl⟩
  obtain ⟨row', payload, minAge, hrows', hop, -, hspaced⟩ := versions_spaced hrun hstep
  obtain rfl : row = row' := (List.cons.inj (hrows.symm.trans hrows')).1
  have hage : minAge = 1 := by
    rw [hlast, Option.some.injEq, Op.saveVersion.injEq] at hop
    exact hop.2.2.2.symm
  exact ⟨s, s', row, v, hrun, hstep, hrows, hage ▸ hspaced v (hrows ▸ hcons)⟩

end YCollab.Store
