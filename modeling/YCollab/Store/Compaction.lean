import Mathlib.Logic.Function.Basic
import YCollab.Data.Machine
import YCollab.Store.Load

/-!
# Snapshots and their objects

`Compact` with object storage on, as calls of any number of replicas on one document that run side by
side.  Each statement is one action, and so is each put or delete of an object; a call may stop
anywhere, which rolls its transaction back.  A commit may fail, and a commit that is carried out may
still be reported as failed.

The row is to name the object that the committed call wrote.  The key of the object is made from the
greatest number of the rows that the call names, and two replicas that hold the same rows name the
same: the second call overwrites the object of the first, finds that its snapshot is not newer, and
deletes the object as its own (`second_compact_deletes`).  `snapshot_keeps_object` says that nothing
else goes wrong: the row names its object in every run in which, when an object is put, its key is
not that of the row and no call is about to delete it, and no commit is carried out behind an error.
-/

namespace YCollab.Store

namespace Compaction

/-- What `Compact` was called with. -/
structure Call where
  snapshot : Bytes
  folded : List ℕ

/-- How a commit ends. -/
inductive Outcome where
  | committed
  /-- The transaction is rolled back. -/
  | failed
  /-- The transaction is committed, and the call gets an error. -/
  | lost
  deriving DecidableEq

/-- Where a call is. -/
inductive Phase where
  /-- It has begun its transaction. -/
  | begun (c : Call)
  /-- It has the lock of the document. -/
  | locked (c : Call)
  /-- It has written the object. -/
  | put (c : Call)
  /-- It has read the key of the snapshot that it replaces. -/
  | read (c : Call) (superseded : Option Key)
  /-- It has updated the row, which is not committed. -/
  | updated (c : Call) (superseded : Option Key)
  /-- It has deleted the rows that it names. -/
  | pruned (c : Call) (superseded : Option Key)
  /-- The object under this key is to go. -/
  | dropping (key : Key)

/-- What a call does next. -/
inductive Act where
  /-- `pg_advisory_xact_lock`. -/
  | lock
  /-- `putBlob`. -/
  | put
  /-- The statement that reads `snapshot_key`. -/
  | read
  /-- The statement that updates the row. -/
  | update
  /-- The statement that deletes the log rows. -/
  | prune
  | commit (outcome : Outcome)
  /-- `dropBlob`, which may fail. -/
  | drop (ok : Bool)

/-- What happens next. -/
inductive Action where
  | start (call : ℕ) (c : Call)
  | act (call : ℕ) (act : Act)
  /-- The call stops where it is: a statement fails, its process dies, or its context is
  cancelled. -/
  | stop (call : ℕ)
  | append (payloads : List Bytes)
  | tick

end Compaction

open Compaction

/-- The database, the object storage, and the calls that run on them. -/
structure Compaction where
  db : Database := {}
  objects : Objects := fun _ => none
  now : ℕ := 0
  /-- The call that has the advisory lock of the document. -/
  lock : Option ℕ := none
  calls : ℕ → Option Phase := fun _ => none
  /-- The snapshot of the call that was committed last. -/
  committed : Option Bytes := none

namespace Compaction

variable (flate : Flate) (id : UUID) (s : Compaction)

/-- The key that a call writes its object under. -/
def Call.key (c : Call) : Key := .snapshot id (Database.watermark c.folded)

/-- The call is now at `p`. -/
def setCall (i : ℕ) (p : Phase) : Compaction :=
  { s with calls := Function.update s.calls i (some p) }

/-- The call returns; the lock is free if it was its own. -/
def endCall (i : ℕ) : Compaction :=
  { s with
    lock := if s.lock = some i then none else s.lock
    calls := Function.update s.calls i none }

/-- The call has no transaction any more; the lock is free if it was its own. -/
def unlock (i : ℕ) : Compaction := { s with lock := if s.lock = some i then none else s.lock }

/-- The row and the log as the call leaves them. -/
def commit (c : Call) : Option Compaction :=
  match s.db.compact id none (pack flate c.snapshot).2 (some (c.key id)) c.folded s.now with
  | .ok db => some { s with db, committed := some c.snapshot }
  | .error _ => none

/-- One statement of a call, or one request to the object storage. -/
def act (i : ℕ) (p : Phase) (a : Act) : Option Compaction :=
  match p, a with
  | .begun c, .lock =>
    if s.lock = none then some ({ s with lock := some i }.setCall i (.locked c)) else none
  | .locked c, .put =>
    let body := (pack flate c.snapshot).1
    some ({ s with objects := Function.update s.objects (c.key id) (some body) }.setCall i (.put c))
  | .put c, .read =>
    match s.db.find id with
    | some d => some (s.setCall i (.read c d.snapshotKey))
    | none => some (s.endCall i)
  | .read c superseded, .update =>
    match s.db.find id with
    | some d =>
      if d.snapshotSeq < Database.watermark c.folded then
        some (s.setCall i (.updated c superseded))
      else
        -- somebody has a newer snapshot; the object is taken to be an orphan
        some (s.setCall i (.dropping (c.key id)))
    | none => some (s.setCall i (.dropping (c.key id)))
  | .updated c superseded, .prune => some (s.setCall i (.pruned c superseded))
  | .pruned c superseded, .commit .committed =>
    (s.commit flate id c).map fun s =>
      match superseded with
      | some key =>
        if key ≠ c.key id then (s.unlock i).setCall i (.dropping key) else s.endCall i
      | none => s.endCall i
  | .pruned c _, .commit .failed => some ((s.unlock i).setCall i (.dropping (c.key id)))
  | .pruned c _, .commit .lost =>
    (s.commit flate id c).map fun s => (s.unlock i).setCall i (.dropping (c.key id))
  | .dropping key, .drop ok =>
    let objects := if ok then Function.update s.objects key none else s.objects
    some ({ s with objects }.endCall i)
  | _, _ => none

/-- One action: a call is made, goes on or stops, or rows are appended. -/
def step : Action → Option Compaction
  | .start i c =>
    match s.calls i with
    | some _ => none
    | none =>
      -- nothing has been written since the last snapshot
      if c.folded = [] then some s else some (s.setCall i (.begun c))
  | .act i a =>
    match s.calls i with
    | some p => s.act flate id i p a
    | none => none
  | .stop i => some (s.endCall i)
  | .append payloads =>
    match s.db.append id payloads s.now with
    | some (db, _) => some { s with db }
    | none => none
  | .tick => some { s with now := s.now + 1 }

/-! ### Objects in hand -/

/-- The call is in its transaction, with the lock. -/
def Phase.Locks : Phase → Prop
  | .begun _ | .dropping _ => False
  | _ => True

/-- The call whose object is written, and whose transaction is not over. -/
def Phase.written : Phase → Option Call
  | .put c | .read c _ | .updated c _ | .pruned c _ => some c
  | _ => none

theorem Phase.locks_of_written {p : Phase} {c : Call} (h : p.written = some c) : p.Locks := by
  cases p <;> first | exact trivial | cases h

/-- The row has no object, or the object it names is the snapshot that was committed. -/
def Intact (flate : Flate) (id : UUID) (s : Compaction) : Prop :=
  ∀ d key, s.db.find id = some d → d.snapshotKey = some key → ∃ payload,
    s.committed = some payload ∧ s.objects key = some (pack flate payload).1 ∧
      d.codec = (pack flate payload).2

/-- The row does not name the key. -/
def Unnamed (id : UUID) (s : Compaction) (key : Key) : Prop :=
  ∀ d, s.db.find id = some d → d.snapshotKey ≠ some key

/-- The invariant. -/
structure Kept (flate : Flate) (id : UUID) (s : Compaction) : Prop where
  row : s.Intact flate id
  lock : ∀ i p, s.calls i = some p → p.Locks → s.lock = some i
  /-- An object that was written is there, and the row does not name it yet. -/
  body : ∀ i p c, s.calls i = some p → p.written = some c →
    s.objects (c.key id) = some (pack flate c.snapshot).1 ∧ s.Unnamed id (c.key id)
  /-- An object that is to go is not that of the row, nor one that may become it. -/
  drop : ∀ i key, s.calls i = some (.dropping key) → s.Unnamed id key ∧
    ∀ j p c, s.calls j = some p → p.written = some c → c.key id ≠ key

variable {flate id s} {s' : Compaction} {i : ℕ} {p : Phase} {c : Call} {key : Key}

theorem Kept.alone (h : s.Kept flate id) {j : ℕ} {q : Phase} (hi : s.calls i = some p)
    (hp : p.Locks) (hj : s.calls j = some q) (hq : q.Locks) : j = i :=
  Option.some.inj ((h.lock j q hj hq).symm.trans (h.lock i p hi hp))

theorem Kept.setCall (h : s.Kept flate id) (hlock : p.Locks → s.lock = some i)
    (hbody : ∀ c, p.written = some c →
      (s.objects (c.key id) = some (pack flate c.snapshot).1 ∧ s.Unnamed id (c.key id)) ∧
        ∀ j key, j ≠ i → s.calls j = some (.dropping key) → c.key id ≠ key)
    (hdrop : ∀ key, p = .dropping key → s.Unnamed id key ∧
      ∀ j q c, j ≠ i → s.calls j = some q → q.written = some c → c.key id ≠ key) :
    (s.setCall i p).Kept flate id := by
  refine ⟨h.row, fun j q hj hq => ?_, fun j q c hj hq => ?_, fun j key hj => ?_⟩
  · rcases Machine.set_eq_some.1 hj with ⟨rfl, rfl⟩ | ⟨-, hj⟩
    · exact hlock hq
    · exact h.lock j q hj hq
  · rcases Machine.set_eq_some.1 hj with ⟨rfl, rfl⟩ | ⟨-, hj⟩
    · exact (hbody c hq).1
    · exact h.body j q c hj hq
  · rcases Machine.set_eq_some.1 hj with ⟨rfl, heq⟩ | ⟨hne, hj'⟩
    · refine ⟨(hdrop key heq.symm).1, fun k q c hk hq => ?_⟩
      rcases Machine.set_eq_some.1 hk with ⟨rfl, rfl⟩ | ⟨hne, hk⟩
      · rw [← heq] at hq
        cases hq
      · exact (hdrop key heq.symm).2 k q c hne hk hq
    · refine ⟨(h.drop j key hj').1, fun k q c hk hq => ?_⟩
      rcases Machine.set_eq_some.1 hk with ⟨rfl, rfl⟩ | ⟨-, hk⟩
      · exact (hbody c hq).2 j key hne hj'
      · exact (h.drop j key hj').2 k q c hk hq

theorem endCall_calls {j : ℕ} {q : Phase} (h : (s.endCall i).calls j = some q) :
    j ≠ i ∧ s.calls j = some q := Machine.unset_eq_some.1 h

theorem Kept.endCall (h : s.Kept flate id) (i : ℕ) : (s.endCall i).Kept flate id := by
  refine ⟨h.row, fun j q hj hq => ?_, fun j q c hj hq => ?_, fun j key hj => ?_⟩
  · obtain ⟨hne, hj⟩ := endCall_calls hj
    have hlock := h.lock j q hj hq
    simp only [Compaction.endCall, hlock, Option.some.injEq, hne, if_false]
  · exact h.body j q c (endCall_calls hj).2 hq
  · obtain ⟨hunnamed, hrest⟩ := h.drop j key (endCall_calls hj).2
    exact ⟨hunnamed, fun k q c hk hq => hrest k q c (endCall_calls hk).2 hq⟩

theorem unlock_setCall (s : Compaction) (i : ℕ) (p : Phase) :
    (s.unlock i).setCall i p = (s.endCall i).setCall i p := by
  simp [unlock, Compaction.setCall, Compaction.endCall]

theorem Kept.unlock (h : s.Kept flate id) (hi : s.calls i = some p) (hp : ¬p.Locks) :
    (s.unlock i).Kept flate id := by
  refine ⟨h.row, fun j q hj hq => ?_, h.body, h.drop⟩
  have hlock := h.lock j q hj hq
  have hne : j ≠ i := by
    rintro rfl
    cases hi.symm.trans hj
    exact hp hq
  simp only [Compaction.unlock, hlock, Option.some.injEq, hne, if_false]

/-! ### The steps -/

/-- An object is written whose key is neither that of the row nor about to be deleted. -/
theorem Kept.put (h : s.Kept flate id) (hi : s.calls i = some (.locked c))
    (hrow : s.Unnamed id (c.key id)) (hdrop : ∀ j, s.calls j ≠ some (.dropping (c.key id)))
    (hs' : s.act flate id i (.locked c) .put = some s') : s'.Kept flate id := by
  obtain rfl := Option.some.inj hs'
  have hnone : ∀ j q c, s.calls j = some q → q.written ≠ some c := by
    intro j q c' hj hq
    obtain rfl := h.alone hi trivial hj (Phase.locks_of_written hq)
    cases hi.symm.trans hj
    cases hq
  refine Kept.setCall ⟨fun d key hd hkey => ?_, h.lock,
    fun j q c hj hq => absurd hq (hnone j q c hj),
    fun j key hj => ⟨(h.drop j key hj).1, fun k q c hk hq => absurd hq (hnone k q c hk)⟩⟩
    (fun _ => h.lock i _ hi trivial) (fun c' hc' => ?_) nofun
  · obtain ⟨payload, hcom, hobj, hcodec⟩ := h.row d key hd hkey
    refine ⟨payload, hcom, ?_, hcodec⟩
    have hne : key ≠ c.key id := by
      rintro rfl
      exact hrow d hd hkey
    simp only [Function.update_of_ne hne, hobj]
  · obtain rfl : c = c' := Option.some.inj hc'
    refine ⟨⟨Function.update_self .., hrow⟩, fun j key _ hj heq => ?_⟩
    exact hdrop j (heq ▸ hj)

/-- A call is committed that is over, and whose object was written. -/
theorem Kept.commit (h : s.Kept flate id) (hwritten : ∀ j q c, s.calls j = some q →
      q.written ≠ some c)
    (hobj : s.objects (c.key id) = some (pack flate c.snapshot).1)
    (hdrop : ∀ j, s.calls j ≠ some (.dropping (c.key id)))
    (hs' : s.commit flate id c = some s') :
    s'.Kept flate id ∧ s'.calls = s.calls ∧
      ∀ d, s'.db.find id = some d → d.snapshotKey = some (c.key id) := by
  unfold Compaction.commit at hs'
  cases hdb : s.db.compact id none (pack flate c.snapshot).2 (some (c.key id)) c.folded s.now with
  | error x =>
    rw [hdb] at hs'
    cases hs'
  | ok db' =>
    rw [hdb] at hs'
    cases hs'
    obtain ⟨d₀, -, -, hfind⟩ := Database.find_of_compact hdb
    have hkey : ∀ d, db'.find id = some d → d.snapshotKey = some (c.key id) ∧
        d.codec = (pack flate c.snapshot).2 := by
      intro d hd
      cases hfind.symm.trans hd
      exact ⟨rfl, rfl⟩
    refine ⟨⟨fun d key hd hk => ?_, h.lock, fun j q c hj hq => absurd hq (hwritten j q c hj),
      fun j key hj => ⟨fun d hd hk => ?_, fun k q c hk hq => absurd hq (hwritten k q c hk)⟩⟩, rfl,
      fun d hd => (hkey d hd).1⟩
    · cases hk.symm.trans (hkey d hd).1
      exact ⟨c.snapshot, rfl, hobj, (hkey d hd).2⟩
    · cases hk.symm.trans (hkey d hd).1
      exact hdrop j hj

/-- When an object is put, its key is not that of the row and no call is about to delete it; and no
commit is carried out behind an error. -/
def Unshared (id : UUID) (s : Compaction) : Action → Prop
  | .act i .put => ∀ c, s.calls i = some (.locked c) →
      s.Unnamed id (c.key id) ∧ ∀ j, s.calls j ≠ some (.dropping (c.key id))
  | .act _ (.commit outcome) => outcome ≠ .lost
  | _ => True

theorem Kept.goOn (h : s.Kept flate id) {q : Phase} (hi : s.calls i = some p)
    (hp : p.written = some c) (hq : q.written = some c) : (s.setCall i q).Kept flate id := by
  refine h.setCall (fun _ => h.lock i p hi (Phase.locks_of_written hp)) (fun c' hc' => ?_) ?_
  · obtain rfl : c = c' := Option.some.inj (hq.symm.trans hc')
    exact ⟨h.body i p c hi hp, fun j key _ hj => (h.drop j key hj).2 i p c hi hp⟩
  · rintro key rfl
    cases hq

theorem Kept.giveUp (h : s.Kept flate id) (hi : s.calls i = some p) (hp : p.written = some c) :
    (s.setCall i (.dropping (c.key id))).Kept flate id := by
  refine h.setCall nofun nofun fun key hkey => ?_
  obtain rfl := Phase.dropping.inj hkey
  refine ⟨(h.body i p c hi hp).2, fun j q c' hne hj hq => ?_⟩
  exact absurd (h.alone hi (Phase.locks_of_written hp) hj (Phase.locks_of_written hq)) hne

theorem Kept.commit_endCall (h : s.Kept flate id) (hi : s.calls i = some p)
    (hp : p.written = some c) (hs' : (s.endCall i).commit flate id c = some s') :
    s'.Kept flate id ∧ (∀ j q c, s'.calls j = some q → q.written ≠ some c) ∧
      ∀ d, s'.db.find id = some d → d.snapshotKey = some (c.key id) := by
  have hwritten : ∀ j q c', (s.endCall i).calls j = some q → q.written ≠ some c' := by
    intro j q c' hj hq
    obtain ⟨hne, hj⟩ := endCall_calls hj
    exact hne (h.alone hi (Phase.locks_of_written hp) hj (Phase.locks_of_written hq))
  have hdrop : ∀ j, (s.endCall i).calls j ≠ some (.dropping (c.key id)) := fun j hj =>
    (h.drop j _ (endCall_calls hj).2).2 i p c hi hp rfl
  obtain ⟨hkept, hcalls, hrow⟩ :=
    (h.endCall i).commit hwritten (h.body i p c hi hp).1 hdrop hs'
  exact ⟨hkept, fun j q c' hj => hwritten j q c' (hcalls ▸ hj), hrow⟩

theorem commit_of_commit (h : s.commit flate id c = some s') (i : ℕ) :
    (s.endCall i).commit flate id c = some (s'.endCall i) := by
  unfold Compaction.commit at h ⊢
  split at h
  next db hdb =>
    cases h
    have hdb' : (s.endCall i).db.compact id none (pack flate c.snapshot).2 (some (c.key id))
        c.folded (s.endCall i).now = .ok db := hdb
    rw [hdb']
    rfl
  next => cases h

/-- An object is deleted that is not that of the row, nor one that may become it. -/
theorem Kept.dropped (h : s.Kept flate id) (hi : s.calls i = some (.dropping key)) (ok : Bool)
    (hs' : s.act flate id i (.dropping key) (.drop ok) = some s') : s'.Kept flate id := by
  obtain rfl := Option.some.inj hs'
  obtain ⟨hrow, hwritten⟩ := h.drop i key hi
  have hkept : Kept flate id { s with
      objects := if ok then Function.update s.objects key none else s.objects } := by
    refine ⟨fun d key' hd hkey => ?_, h.lock, fun j q c hj hq => ?_, h.drop⟩
    · obtain ⟨payload, hcom, hobj, hcodec⟩ := h.row d key' hd hkey
      have hne : key' ≠ key := by
        rintro rfl
        exact hrow d hd hkey
      refine ⟨payload, hcom, ?_, hcodec⟩
      cases ok
      · exact hobj
      · simpa [Function.update_of_ne hne] using hobj
    · obtain ⟨hobj, hunnamed⟩ := h.body j q c hj hq
      refine ⟨?_, hunnamed⟩
      cases ok
      · exact hobj
      · simpa [Function.update_of_ne (hwritten j q c hj hq)] using hobj
  exact hkept.endCall i

theorem Kept.act (h : s.Kept flate id) (hi : s.calls i = some p) {a : Act}
    (hsafe : Unshared id s (.act i a)) (hs' : s.act flate id i p a = some s') :
    s'.Kept flate id := by
  unfold Compaction.act at hs'
  split at hs'
  next c =>
    -- the lock is free, so no call is in its transaction
    split at hs'
    next hfree =>
      cases hs'
      have hnone : ∀ j q, s.calls j = some q → ¬q.Locks := fun j q hj hq => by
        rw [h.lock j q hj hq] at hfree
        cases hfree
      refine Kept.setCall ⟨h.row, fun j q hj hq => absurd hq (hnone j q hj), h.body, h.drop⟩
        (fun _ => rfl) nofun nofun
    next => cases hs'
  next c =>
    obtain ⟨hrow, hdrop⟩ := hsafe c hi
    exact h.put hi hrow hdrop hs'
  next c =>
    split at hs'
    next d hd =>
      cases hs'
      exact h.goOn hi rfl rfl
    next =>
      cases hs'
      exact h.endCall i
  next c superseded =>
    split at hs'
    next d hd =>
      split at hs'
      next =>
        cases hs'
        exact h.goOn hi rfl rfl
      next =>
        cases hs'
        exact h.giveUp hi rfl
    next =>
      cases hs'
      exact h.giveUp hi rfl
  next c superseded =>
    cases hs'
    exact h.goOn hi rfl rfl
  next c superseded =>
    obtain ⟨s₁, hs₁, rfl⟩ := Option.map_eq_some_iff.1 hs'
    obtain ⟨hkept, hwritten, hrow⟩ := h.commit_endCall hi rfl (commit_of_commit hs₁ i)
    split
    next key =>
      split
      next hne =>
        rw [unlock_setCall]
        refine hkept.setCall nofun nofun fun key' hkey => ?_
        obtain rfl := Phase.dropping.inj hkey
        refine ⟨fun d hd hk => hne ?_, fun j q c _ hj hq => absurd hq (hwritten j q c hj)⟩
        exact Option.some.inj (hk.symm.trans (hrow d hd))
      next => exact hkept
    next => exact hkept
  next c superseded =>
    cases hs'
    have hgone : (s.setCall i (.dropping (c.key id))).calls i = some (.dropping (c.key id)) :=
      Function.update_self ..
    exact (h.giveUp hi rfl).unlock hgone fun hlocks => hlocks
  next c superseded => exact absurd rfl hsafe
  next key ok => exact h.dropped hi ok hs'
  next => cases hs'

theorem Kept.step (h : s.Kept flate id) {a : Action} (hsafe : Unshared id s a)
    (hs' : s.step flate id a = some s') : s'.Kept flate id := by
  cases a with
  | start i c =>
    simp only [Compaction.step] at hs'
    split at hs'
    · cases hs'
    · split at hs'
      · cases hs'
        exact h
      · cases hs'
        exact h.setCall nofun nofun nofun
  | act i a =>
    simp only [Compaction.step] at hs'
    split at hs'
    next p hi => exact h.act hi hsafe hs'
    next => cases hs'
  | stop i =>
    cases hs'
    exact h.endCall i
  | append payloads =>
    simp only [Compaction.step] at hs'
    split at hs'
    next db seqs hdb =>
      cases hs'
      have hfind : db.find id = s.db.find id := Database.find_append hdb id
      refine ⟨fun d key hd hkey => h.row d key (hfind ▸ hd) hkey, h.lock, fun j q c hj hq => ?_,
        fun j key hj => ?_⟩
      · obtain ⟨hobj, hunnamed⟩ := h.body j q c hj hq
        exact ⟨hobj, fun d hd => hunnamed d (hfind ▸ hd)⟩
      · obtain ⟨hunnamed, hwritten⟩ := h.drop j key hj
        exact ⟨fun d hd => hunnamed d (hfind ▸ hd), hwritten⟩
    next => cases hs'
  | tick =>
    cases hs'
    exact ⟨h.row, h.lock, h.body, h.drop⟩

end Compaction

open Compaction in
/-- **The row names its object**, and the object is the snapshot of the call that was committed last,
in every run in which objects are put under keys that nobody else has in hand and no commit is
carried out behind an error. -/
theorem snapshot_keeps_object {flate : Flate} {id : UUID} {s₀ s : Compaction} {l : List Action}
    (hcalls : ∀ i, s₀.calls i = none) (hrow : s₀.Intact flate id)
    (hl : Machine.Along (Compaction.step flate id) (Unshared id) s₀ l)
    (hrun : Machine.run (Compaction.step flate id) s₀ l = some s) {d : DocumentRow} {key : Key}
    (hd : s.db.find id = some d) (hkey : d.snapshotKey = some key) :
    ∃ payload, s.committed = some payload ∧
      readBlob flate s.objects (some key) (d.snapshot.getD []) d.codec = .ok payload := by
  have hstart : s₀.Kept flate id := ⟨hrow, by simp [hcalls], by simp [hcalls], by simp [hcalls]⟩
  have hkept : s.Kept flate id := Machine.invariant (fun h ha hs => h.step ha hs) hstart hl hrun
  obtain ⟨payload, hcom, hobj, hcodec⟩ := hkept.row d key hd hkey
  refine ⟨payload, hcom, ?_⟩
  simp only [readBlob, hobj, hcodec, unpack_pack]
  rfl

namespace Compaction.Sample

/-- The runs below are about one document. -/
def step : Compaction → Action → Option Compaction := Compaction.step .verbatim nilUUID

/-- A document that has its row. -/
def fresh : Compaction where
  db := { documents := [{ id := nilUUID, owner := nilUUID, updatedAt := 0 }] }

/-- A call gets the lock. -/
def opening (i : ℕ) (c : Call) : List Action := [.start i c, .act i .lock]

/-- It finds out whether its snapshot is newer. -/
def checking (i : ℕ) : List Action := [.act i .read, .act i .update]

/-- The call goes on to its end. -/
def finishing (i : ℕ) : List Action := [.act i .prune, .act i (.commit .committed)]

/-- A replica compacts the only row, and another one a row more. -/
def between : List Action :=
  checking 0 ++ finishing 0 ++ [.append [[8]]] ++ opening 1 ⟨[2], [1, 2]⟩

/-- One compaction has committed when the other one begins. -/
def apart : List Action :=
  (.append [[7]] :: opening 0 ⟨[1], [1]⟩) ++ [.act 0 .put] ++ between ++ [.act 1 .put] ++
    (checking 1 ++ finishing 1 ++ [.act 1 (.drop true)])

/-- Two replicas that hold the same row compact it. -/
def same : List Action :=
  (.append [[7]] :: opening 0 ⟨[1], [1]⟩) ++ [.act 0 .put] ++ checking 0 ++ finishing 0 ++
    opening 1 ⟨[2], [1]⟩ ++ [.act 1 .put] ++ checking 1 ++ [.act 1 (.drop true)]

end Compaction.Sample

open Compaction Compaction.Sample in
/-- The second snapshot is there, and the first is gone. -/
theorem newer_snapshot_replaces : ∃ s d, Machine.run step fresh apart = some s ∧
    s.db.find nilUUID = some d ∧ d.snapshotKey = some (.snapshot nilUUID 2) ∧
    s.objects (.snapshot nilUUID 1) = none ∧ ∃ payload, s.committed = some payload ∧
      readBlob .verbatim s.objects (some (.snapshot nilUUID 2)) (d.snapshot.getD []) d.codec =
        .ok payload := by
  have hunshared : Machine.Along step (Unshared nilUUID) fresh apart := by
    refine .cons trivial rfl (.cons trivial rfl (.cons trivial rfl (.cons ?_ rfl (.cons trivial rfl
      (.cons trivial rfl (.cons trivial rfl (.cons nofun rfl (.cons trivial rfl (.cons trivial rfl
      (.cons trivial rfl (.cons ?_ rfl (.cons trivial rfl (.cons trivial rfl (.cons trivial rfl
      (.cons nofun rfl (.cons trivial rfl trivial))))))))))))))))
    -- the states in which an object is put
    · rintro c ⟨⟩
      exact ⟨by rintro d ⟨⟩ ⟨⟩, by rintro (_ | j) ⟨⟩⟩
    · rintro c ⟨⟩
      exact ⟨by rintro d ⟨⟩ ⟨⟩, by rintro (_ | _ | j) ⟨⟩⟩
  exact ⟨_, _, rfl, rfl, rfl, rfl, snapshot_keeps_object (fun _ => rfl) (by rintro d key ⟨⟩ ⟨⟩)
    hunshared rfl rfl rfl⟩

open Compaction Compaction.Sample in
/-- **The second call deletes the object of the first**: the row names an object that is not
there. -/
theorem second_compact_deletes : ∃ s d, Machine.run step fresh same = some s ∧
    s.db.find nilUUID = some d ∧ d.snapshotKey = some (.snapshot nilUUID 1) ∧
    s.objects (.snapshot nilUUID 1) = none ∧ d.readSnapshot .verbatim s.objects =
      .error (.missing (.snapshot nilUUID 1)) :=
  ⟨_, _, rfl, rfl, rfl, rfl, rfl⟩

end YCollab.Store
