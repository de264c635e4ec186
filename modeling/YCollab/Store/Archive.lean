import Mathlib.Logic.Function.Basic
import YCollab.Data.Machine
import YCollab.Store.Database

/-!
# Versions and their objects

`SaveVersion`, `PruneVersions`, `Delete` and `DeleteIdle` with object storage on, as calls that run
side by side. Each statement is one action, and so is each put or delete of an object; a call may
stop anywhere, which rolls its transaction back. `Append`, `Ensure` and `Compact` are one action
each; what `Compact` does to objects of its own is any change under a snapshot key (`object`).

A row is to name an object that is there. Objects are written before the row and deleted after it,
which is enough for `SaveVersion`, `PruneVersions` and `Delete`. `DeleteIdle` selects the keys of
versions in one statement and deletes documents in a second one that decides again, so a document
that becomes active in between stays and loses its versions (`active_document_loses_version`).
`versions_keep_objects` says that nothing else goes wrong: rows name objects in every run in which
each `DeleteIdle` still finds idle, when it deletes, the documents whose versions it has selected.
Keys are random, and the random part is taken to be one that is not in use.
-/

namespace YCollab.Store

/-- The key is that of a version. -/
def Key.IsVersion : Key → Prop
  | .version _ _ => True
  | .snapshot _ _ => False

namespace Archive

/-- What `SaveVersion` was called with, and when its transaction began. -/
structure Save where
  id : UUID
  stateVector : Bytes
  payload : Bytes
  minAge : ℤ
  now : ℕ

/-- A call that is made. -/
inductive Op where
  | saveVersion (id : UUID) (stateVector payload : Bytes) (minAge : ℤ)
  | pruneVersions (id : UUID) (keep : ℕ)
  | delete (id : UUID)
  | deleteIdle (before : ℕ)

/-- Where a call is. -/
inductive Phase where
  /-- `SaveVersion` has begun its transaction. -/
  | begun (c : Save)
  /-- It has the lock of the document. -/
  | locked (c : Save)
  /-- It has written the object. -/
  | put (c : Save) (key : Key)
  /-- It has inserted the row, which is not committed. -/
  | inserted (row : VersionRow) (key : Key)
  /-- `PruneVersions` is about to delete. -/
  | pruning (id : UUID) (keep : ℕ)
  /-- `Delete` is about to collect the keys. -/
  | deleting (id : UUID)
  /-- It has collected them. -/
  | collected (id : UUID) (keys : List Key)
  /-- `DeleteIdle` is about to select the keys. -/
  | sweeping (before : ℕ)
  /-- It has selected them. -/
  | gathered (before : ℕ) (keys : List Key)
  /-- The rows are gone, and these objects are to go. -/
  | dropping (keys : List Key)

/-- What a call does next. -/
inductive Act where
  /-- `pg_advisory_xact_lock`. -/
  | lock
  /-- `putVersionBlob`, under a key with this random part. -/
  | put (random : Bytes)
  /-- The insert, which may fail. -/
  | insert (ok : Bool)
  | commit
  /-- The statement that selects keys. -/
  | collect
  /-- The statement that deletes rows. -/
  | delete
  /-- `dropBlob` of the next key, which may fail. -/
  | drop (ok : Bool)
  | finish

/-- What happens next. -/
inductive Action where
  | start (call : ℕ) (op : Op)
  | act (call : ℕ) (act : Act)
  /-- The call stops where it is: its process dies, or its context is cancelled. -/
  | stop (call : ℕ)
  | ensure (id owner : UUID)
  | append (id : UUID) (payloads : List Bytes)
  | compact (id : UUID) (codec : Codec) (folded : List ℕ)
  /-- An object under a snapshot key is written or deleted. -/
  | object (id : UUID) (seq : ℕ) (body : Option Bytes)
  | tick

end Archive

open Archive

/-- The database, the object storage, and the calls that run on them. -/
structure Archive where
  db : Database := {}
  objects : Objects := fun _ => none
  now : ℕ := 0
  /-- The call that has the advisory lock of a document. -/
  lock : UUID → Option ℕ := fun _ => none
  /-- The documents that an uncommitted row of a call refers to. They cannot be deleted. -/
  referred : List (ℕ × UUID) := []
  calls : ℕ → Option Phase := fun _ => none

namespace Archive

variable (flate : Flate) (s : Archive)

/-- The call is now at `p`. -/
def setCall (i : ℕ) (p : Phase) : Archive := { s with calls := Function.update s.calls i (some p) }

/-- The call returns; what it has locked is free. -/
def endCall (i : ℕ) : Archive :=
  { s with
    lock := fun id => if s.lock id = some i then none else s.lock id
    referred := s.referred.filter (·.1 ≠ i)
    calls := Function.update s.calls i none }

/-- What a call does before its first statement. -/
def start (i : ℕ) : Op → Archive
  | .saveVersion id stateVector payload minAge =>
    -- a version needs a payload
    if payload = [] then s else s.setCall i (.begun ⟨id, stateVector, payload, minAge, s.now⟩)
  | .pruneVersions id keep => if keep = 0 then s else s.setCall i (.pruning id keep)
  | .delete id => s.setCall i (.deleting id)
  | .deleteIdle before => s.setCall i (.sweeping before)

/-- The row that the insert of `SaveVersion` writes. -/
def rowOf (c : Save) (key : Key) : VersionRow where
  doc := c.id
  id := s.db.nextVersion
  createdAt := c.now
  stateVector := c.stateVector
  payload := []
  codec := (pack flate c.payload).2
  blobKey := some key

/-- One statement of a call, or one request to the object storage. -/
def act (i : ℕ) (p : Phase) (a : Act) : Option Archive :=
  match p, a with
  | .begun c, .lock =>
    if s.lock c.id = none then
      some ({ s with lock := Function.update s.lock c.id (some i) }.setCall i (.locked c))
    else none
  | .locked c, .put random =>
    let key := .version c.id random
    let body := (pack flate c.payload).1
    some ({ s with objects := Function.update s.objects key (some body) }.setCall i (.put c key))
  | .put c key, .insert ok =>
    if ok && s.db.saysNew c.id c.stateVector c.minAge c.now then
      some ({ s with
        db := { s.db with nextVersion := s.db.nextVersion + 1 }
        referred := (i, c.id) :: s.referred }.setCall i (.inserted (s.rowOf flate c key) key))
    else
      -- no row names the object, which is deleted straight away
      some (s.setCall i (.dropping [key]))
  | .inserted row _, .commit =>
    some ({ s with db := { s.db with versions := row :: s.db.versions } }.endCall i)
  | .pruning id keep, .delete =>
    let (db, keys) := s.db.pruneVersions id keep
    some ({ s with db }.setCall i (.dropping keys))
  | .deleting id, .collect => some (s.setCall i (.collected id (s.db.blobKeysFor id)))
  | .collected id keys, .delete =>
    if s.referred.any (·.2 = id) then none
    else if (s.db.find id).isSome then
      some ({ s with db := s.db.deleteDocuments (·.id = id) }.setCall i (.dropping keys))
    else some (s.endCall i)
  | .sweeping before, .collect =>
    some (s.setCall i (.gathered before (s.db.idleVersionKeys before)))
  | .gathered before keys, .delete =>
    if s.referred.any fun r => s.db.documents.any fun d => d.id = r.2 ∧ s.db.idle before d then none
    else
      let (db, snapshotKeys) := s.db.deleteIdle before
      some ({ s with db }.setCall i (.dropping (snapshotKeys ++ keys)))
  | .dropping (key :: keys), .drop ok =>
    let objects := if ok then Function.update s.objects key none else s.objects
    some ({ s with objects }.setCall i (.dropping keys))
  | .dropping [], .finish => some (s.endCall i)
  | _, _ => none

/-- One action: a call is made, goes on or stops, or something else changes the rows. -/
def step : Action → Option Archive
  | .start i op =>
    match s.calls i with
    | some _ => none
    | none => some (s.start i op)
  | .act i a =>
    match s.calls i with
    | some p => s.act flate i p a
    | none => none
  | .stop i => some (s.endCall i)
  | .ensure id owner => some { s with db := (s.db.ensureIn id owner s.now).1 }
  | .append id payloads =>
    match s.db.append id payloads s.now with
    | some (db, _) => some { s with db }
    | none => none
  | .compact id codec folded =>
    match s.db.compact id none codec (some (.snapshot id (folded.foldl max 0))) folded s.now with
    | .ok db => some { s with db }
    | .error _ => none
  | .object id seq body =>
    some { s with objects := Function.update s.objects (.snapshot id seq) body }
  | .tick => some { s with now := s.now + 1 }

/-- `LoadVersion`, of the payload. -/
def loadVersion (doc : UUID) (id : ℕ) : Option (Except ReadErr Bytes) :=
  (s.db.versions.find? fun v => v.doc = doc ∧ v.id = id).map fun v =>
    readBlob flate s.objects v.blobKey v.payload v.codec

/-! ### Keys in hand -/

/-- The key of the object that the call has written for a row of its own. -/
def Phase.held : Phase → Option (Key × Codec)
  | .put c key => some (key, (pack flate c.payload).2)
  | .inserted row key => some (key, row.codec)
  | _ => none

/-- The keys that the call has found in rows, or is to drop. -/
def Phase.listed : Phase → List Key
  | .collected _ keys => keys
  | .gathered _ keys => keys
  | .dropping keys => keys
  | _ => []

section

variable {flate} {s} {versions versions' : List VersionRow} {objects objects' : Objects}
  {calls : ℕ → Option Phase} {i : ℕ} {p : Phase} {key : Key} {codec : Codec}

/-- What the call at `p` knows is right: the key it holds is its own and has its object, and the keys
it is to drop are named by no row. -/
structure Sound (flate : Flate) (versions : List VersionRow) (objects : Objects) (p : Phase) :
    Prop where
  held (key : Key) (codec : Codec) : p.held flate = some (key, codec) → key.IsVersion ∧
    objects.Holds flate key codec ∧ ∀ v ∈ versions, v.blobKey ≠ some key
  inserted (row : VersionRow) (key : Key) : p = .inserted row key → row.blobKey = some key
  collected (id : UUID) (keys : List Key) : p = .collected id keys → ∀ key ∈ keys,
    ∀ v ∈ versions, v.blobKey = some key → v.doc = id
  dropping (keys : List Key) : p = .dropping keys → ∀ key ∈ keys, ∀ v ∈ versions,
    v.blobKey ≠ some key

/-- Neither of two calls has the key that the other one holds. -/
def Apart (flate : Flate) (p q : Phase) : Prop :=
  ∀ key codec, p.held flate = some (key, codec) →
    key ∉ q.listed ∧ ∀ codec', q.held flate ≠ some (key, codec')

/-- Rows name objects that are there, no two of them the same, and all calls are in order. -/
structure Intact (flate : Flate) (versions : List VersionRow) (objects : Objects)
    (calls : ℕ → Option Phase) : Prop where
  row (v : VersionRow) : v ∈ versions →
    ∃ key, v.blobKey = some key ∧ key.IsVersion ∧ objects.Holds flate key v.codec
  single (v w : VersionRow) (key : Key) : v ∈ versions → w ∈ versions → v.blobKey = some key →
    w.blobKey = some key → v = w
  sound (i : ℕ) (p : Phase) : calls i = some p → Sound flate versions objects p
  apart (i j : ℕ) (p q : Phase) : i ≠ j → calls i = some p → calls j = some q → Apart flate p q

/-- A call that holds nothing and lists nothing. -/
def Phase.Idle (flate : Flate) (p : Phase) : Prop := p.held flate = none ∧ p.listed = []

theorem Sound.of_idle (hp : p.Idle flate) : Sound flate versions objects p where
  held key codec h := by
    rw [hp.1] at h
    cases h
  inserted row key h := by
    subst h
    cases hp.1
  collected id keys h := by
    subst h
    rw [show keys = [] from hp.2]
    simp
  dropping keys h := by
    subst h
    rw [show keys = [] from hp.2]
    simp

theorem Intact.setCall (h : Intact flate versions objects calls)
    (hsound : Sound flate versions objects p)
    (hapart : ∀ j q, j ≠ i → calls j = some q → Apart flate p q ∧ Apart flate q p) :
    Intact flate versions objects (Function.update calls i (some p)) where
  row := h.row
  single := h.single
  sound j q hj := by
    rcases Machine.set_eq_some.1 hj with ⟨-, rfl⟩ | ⟨-, hj⟩
    · exact hsound
    · exact h.sound j q hj
  apart j k q r hjk hj hk := by
    rcases Machine.set_eq_some.1 hj with ⟨rfl, rfl⟩ | ⟨hji, hq⟩
    · rw [Function.update_of_ne hjk.symm] at hk
      exact (hapart k r hjk.symm hk).1
    · rcases Machine.set_eq_some.1 hk with ⟨rfl, rfl⟩ | ⟨-, hr⟩
      · exact (hapart j q hji hq).2
      · exact h.apart j k q r hjk hq hr

theorem Intact.endCall (h : Intact flate versions objects calls) (i : ℕ) :
    Intact flate versions objects (Function.update calls i none) where
  row := h.row
  single := h.single
  sound j q hj := h.sound j q (Machine.unset_eq_some.1 hj).2
  apart j k q r hjk hj hk :=
    h.apart j k q r hjk (Machine.unset_eq_some.1 hj).2 (Machine.unset_eq_some.1 hk).2

theorem Intact.setIdle (h : Intact flate versions objects calls) (hp : p.Idle flate) (i : ℕ) :
    Intact flate versions objects (Function.update calls i (some p)) := by
  refine h.setCall (.of_idle hp) fun j q _ _ => ⟨fun key codec hkey => ?_, fun key codec _ => ?_⟩
  · rw [hp.1] at hkey
    cases hkey
  · rw [hp.1, hp.2]
    simp

/-- Rows go, and objects that nobody names or holds change. -/
theorem Intact.shrink (h : Intact flate versions objects calls)
    (hrows : ∀ v ∈ versions', v ∈ versions)
    (hobjects : ∀ key, key.IsVersion → objects' key = objects key ∨
      (∀ v ∈ versions', v.blobKey ≠ some key) ∧
      ∀ i p, calls i = some p → ∀ codec, p.held flate ≠ some (key, codec)) :
    Intact flate versions' objects' calls where
  row v hv := by
    obtain ⟨key, hkey, hver, hholds⟩ := h.row v (hrows v hv)
    refine ⟨key, hkey, hver, ?_⟩
    rcases hobjects key hver with heq | ⟨hnone, -⟩
    · rwa [Objects.Holds, heq]
    · exact absurd hkey (hnone v hv)
  single v w key hv hw := h.single v w key (hrows v hv) (hrows w hw)
  sound i p hp := by
    have hs := h.sound i p hp
    refine ⟨fun key codec hheld => ?_, hs.inserted, fun id keys hp key hkey v hv => ?_,
      fun keys hp key hkey v hv => ?_⟩
    · obtain ⟨hver, hholds, hnone⟩ := hs.held key codec hheld
      refine ⟨hver, ?_, fun v hv => hnone v (hrows v hv)⟩
      rcases hobjects key hver with heq | ⟨-, hnot⟩
      · rwa [Objects.Holds, heq]
      · exact absurd hheld (hnot i p hp codec)
    · exact hs.collected id keys hp key hkey v (hrows v hv)
    · exact hs.dropping keys hp key hkey v (hrows v hv)
  apart := h.apart

/-- A row is committed by the call that holds its key. -/
theorem Intact.commit (h : Intact flate versions objects calls) {row : VersionRow}
    (hi : calls i = some (.inserted row key)) :
    Intact flate (row :: versions) objects (Function.update calls i none) := by
  have hs := h.sound i _ hi
  have hrow := hs.inserted row key rfl
  obtain ⟨hver, hholds, hnone⟩ := hs.held key row.codec rfl
  refine ⟨?_, ?_, fun j q hj => ?_, (h.endCall i).apart⟩
  · rintro v (_ | ⟨_, hv⟩)
    · exact ⟨key, hrow, hver, hholds⟩
    · exact h.row v hv
  · rintro v w key' (_ | ⟨_, hv⟩) (_ | ⟨_, hw⟩) hvk hwk
    · rfl
    · cases hrow.symm.trans hvk
      exact absurd hwk (hnone w hw)
    · cases hrow.symm.trans hwk
      exact absurd hvk (hnone v hv)
    · exact h.single v w key' hv hw hvk hwk
  · obtain ⟨hji, hj⟩ := Machine.unset_eq_some.1 hj
    have hq := h.sound j q hj
    -- whoever else runs has not got the key
    obtain ⟨hlisted, hheld⟩ := h.apart i j _ q hji.symm hi hj key row.codec rfl
    refine ⟨fun key' codec hkey => ?_, hq.inserted, fun id keys hp key' hkey v hv hvk => ?_,
      fun keys hp key' hkey v hv hvk => ?_⟩
    · obtain ⟨hver', hholds', hnone'⟩ := hq.held key' codec hkey
      refine ⟨hver', hholds', ?_⟩
      rintro v (_ | ⟨_, hv⟩) hvk
      · cases hrow.symm.trans hvk
        exact hheld codec hkey
      · exact hnone' v hv hvk
    · rcases List.mem_cons.1 hv with rfl | hv
      · cases hrow.symm.trans hvk
        exact absurd (hp ▸ hkey) hlisted
      · exact hq.collected id keys hp key' hkey v hv hvk
    · rcases List.mem_cons.1 hv with rfl | hv
      · cases hrow.symm.trans hvk
        exact hlisted (hp ▸ hkey)
      · exact hq.dropping keys hp key' hkey v hv hvk

theorem Intact.list (h : Intact flate versions objects calls)
    (hsound : Sound flate versions objects p) (hp : p.held flate = none)
    (hfree : ∀ key ∈ p.listed, ∀ j q, j ≠ i → calls j = some q → ∀ codec,
      q.held flate ≠ some (key, codec)) :
    Intact flate versions objects (Function.update calls i (some p)) := by
  refine h.setCall hsound fun j q hji hj => ⟨fun key codec hkey => ?_, fun key codec hkey => ?_⟩
  · rw [hp] at hkey
    cases hkey
  · refine ⟨fun hlist => hfree key hlist j q hji hj codec hkey, fun codec' => ?_⟩
    rw [hp]
    simp

theorem Intact.not_held (h : Intact flate versions objects calls) {v : VersionRow}
    (hv : v ∈ versions) (hkey : v.blobKey = some key) {j : ℕ} {q : Phase} (hj : calls j = some q) :
    q.held flate ≠ some (key, codec) :=
  fun hheld => ((h.sound j q hj).held key codec hheld).2.2 v hv hkey

theorem Intact.not_held_snapshot (h : Intact flate versions objects calls) (hkey : ¬key.IsVersion)
    {j : ℕ} {q : Phase} (hj : calls j = some q) : q.held flate ≠ some (key, codec) :=
  fun hheld => hkey ((h.sound j q hj).held key codec hheld).1

theorem Sound.dropped {keys : List Key} (h : ∀ key ∈ keys, ∀ v ∈ versions, v.blobKey ≠ some key) :
    Sound flate versions objects (.dropping keys) where
  held _ _ hheld := by cases hheld
  inserted _ _ hp := by cases hp
  collected _ _ hp := by cases hp
  dropping keys' hp := by
    cases hp
    exact h

theorem Sound.gathered (before : ℕ) (keys : List Key) :
    Sound flate versions objects (.gathered before keys) where
  held _ _ hheld := by cases hheld
  inserted _ _ hp := by cases hp
  collected _ _ hp := by cases hp
  dropping _ hp := by cases hp

/-! ### Runs -/

/-- Nobody has the key. -/
def Fresh (flate : Flate) (s : Archive) (key : Key) : Prop :=
  (∀ v ∈ s.db.versions, v.blobKey ≠ some key) ∧
  ∀ i p, s.calls i = some p → key ∉ p.listed ∧ ∀ codec, p.held flate ≠ some (key, codec)

/-- Random keys are new, and when `DeleteIdle` deletes, the documents are idle whose versions it has
selected before. -/
def Safe (flate : Flate) (s : Archive) : Action → Prop
  | .act i (.put random) => ∀ c, s.calls i = some (.locked c) → s.Fresh flate (.version c.id random)
  | .act i .delete => ∀ before keys, s.calls i = some (.gathered before keys) →
      ∀ v ∈ s.db.versions, ∀ key ∈ keys, v.blobKey = some key →
        ∃ d ∈ s.db.documents, d.id = v.doc ∧ s.db.idle before d
  | _ => True

/-- The invariant. -/
structure Kept (flate : Flate) (s : Archive) : Prop where
  intact : Intact flate s.db.versions s.objects s.calls
  snapshots (d : DocumentRow) (key : Key) : d ∈ s.db.documents → d.snapshotKey = some key →
    ¬key.IsVersion

variable {s' : Archive}

theorem Kept.start (h : s.Kept flate) (i : ℕ) (op : Op) : (s.start i op).Kept flate := by
  have hset : ∀ {p : Phase}, p.Idle flate → (s.setCall i p).Kept flate :=
    fun hp => ⟨h.intact.setIdle hp i, h.snapshots⟩
  cases op with
  | saveVersion id stateVector payload minAge =>
    simp only [Archive.start]
    split
    · exact h
    · exact hset ⟨rfl, rfl⟩
  | pruneVersions id keep =>
    simp only [Archive.start]
    split
    · exact h
    · exact hset ⟨rfl, rfl⟩
  | delete id => exact hset ⟨rfl, rfl⟩
  | deleteIdle before => exact hset ⟨rfl, rfl⟩

theorem Kept.deleted (h : s.Kept flate) {gone : DocumentRow → Bool} {keys : List Key} (i : ℕ)
    (hheld : ∀ key ∈ keys, ∀ j q, j ≠ i → s.calls j = some q → ∀ codec,
      q.held flate ≠ some (key, codec))
    (hkeys : ∀ key ∈ keys, ∀ v ∈ s.db.versions, v.blobKey = some key →
      ∃ d ∈ s.db.documents, d.id = v.doc ∧ gone d) :
    ({ s with db := s.db.deleteDocuments gone }.setCall i (.dropping keys)).Kept flate where
  intact := by
    refine (h.intact.shrink (fun v hv => (Database.mem_versions_deleteDocuments.1 hv).1)
      fun _ _ => .inl rfl).list (.dropped fun key hkey v hv hvk => ?_) rfl hheld
    obtain ⟨hv, hstays⟩ := Database.mem_versions_deleteDocuments.1 hv
    obtain ⟨d, hd, hid, hgone⟩ := hkeys key hkey v hv hvk
    exact hstays d hd hgone hid
  snapshots d key hd := h.snapshots d key (List.mem_of_mem_filter hd)

/-- The object of a new version is put under a key that nobody has, so no other one is
overwritten. -/
theorem Kept.put (h : s.Kept flate) {c : Save} {random : Bytes}
    (hfresh : s.Fresh flate (.version c.id random)) (i : ℕ) :
    ({ s with
      objects := Function.update s.objects (.version c.id random) (some (pack flate c.payload).1)
      }.setCall i (.put c (.version c.id random))).Kept flate := by
  obtain ⟨hrows, hcalls⟩ := hfresh
  have hin : Intact flate s.db.versions
      (Function.update s.objects (.version c.id random) (some (pack flate c.payload).1))
      s.calls := by
    refine h.intact.shrink (fun _ hv => hv) fun key _ => ?_
    by_cases hkey : key = .version c.id random
    · subst hkey
      exact .inr ⟨hrows, fun j q hj => (hcalls j q hj).2⟩
    · exact .inl (Function.update_of_ne hkey ..)
  refine ⟨hin.setCall ⟨?_, nofun, nofun, nofun⟩ fun j q hji hj => ⟨?_, ?_⟩, h.snapshots⟩
  · rintro key codec ⟨⟩
    exact ⟨trivial, ⟨c.payload, Function.update_self .., rfl⟩, hrows⟩
  · rintro key codec ⟨⟩
    exact hcalls j q hj
  · intro key codec hkey
    refine ⟨by simp [Phase.listed], ?_⟩
    rintro codec' ⟨⟩
    exact (hcalls j q hj).2 codec hkey

theorem Kept.insert (h : s.Kept flate) {c : Save} (hi : s.calls i = some (.put c key)) :
    Intact flate s.db.versions s.objects
      (Function.update s.calls i (some (.inserted (s.rowOf flate c key) key))) := by
  have hin := h.intact
  refine hin.setCall ⟨?_, ?_, nofun, nofun⟩ fun j q hji hj => ⟨?_, ?_⟩
  · rintro key' codec ⟨⟩
    exact (hin.sound i _ hi).held key _ rfl
  · rintro row key' ⟨⟩
    rfl
  · rintro key' codec ⟨⟩
    exact hin.apart i j _ q hji.symm hi hj key _ rfl
  · intro key' codec hkey
    refine ⟨by simp [Phase.listed], ?_⟩
    rintro codec' ⟨⟩
    exact (hin.apart j i q _ hji hj hi _ codec hkey).2 _ rfl

theorem Kept.discard (h : s.Kept flate) {c : Save} (hi : s.calls i = some (.put c key)) :
    (s.setCall i (.dropping [key])).Kept flate := by
  have hin := h.intact
  refine ⟨hin.list (.dropped fun key' hkey => ?_) rfl fun key' hkey j q hji hj codec => ?_,
    h.snapshots⟩
  · cases List.mem_singleton.1 hkey
    exact ((hin.sound i _ hi).held key _ rfl).2.2
  · cases List.mem_singleton.1 hkey
    exact (hin.apart i j _ q hji.symm hi hj key _ rfl).2 codec

theorem Kept.prune (h : s.Kept flate) (i : ℕ) (id : UUID) (keep : ℕ) :
    ({ s with db := (s.db.pruneVersions id keep).1 }.setCall i
      (.dropping (s.db.pruneVersions id keep).2)).Kept flate := by
  have hin := h.intact
  refine ⟨(hin.shrink (fun v hv => Database.mem_versions_of_pruneVersions hv)
    fun _ _ => .inl rfl).list (.dropped fun key hkey v hv hvk => ?_) rfl
    fun key hkey j q _ hj codec => ?_, h.snapshots⟩
  · obtain ⟨w, hw, hgone, hwk⟩ := Database.mem_keys_pruneVersions hkey
    cases hin.single w v key hw (Database.mem_versions_of_pruneVersions hv) hwk hvk
    exact hgone hv
  · obtain ⟨w, hw, -, hwk⟩ := Database.mem_keys_pruneVersions hkey
    exact hin.not_held hw hwk hj

theorem Kept.blobKey_ne (h : s.Kept flate) {d : DocumentRow} {v : VersionRow}
    (hd : d ∈ s.db.documents) (hdk : d.snapshotKey = some key) (hv : v ∈ s.db.versions) :
    v.blobKey ≠ some key := by
  intro hvk
  obtain ⟨key', hvk', hver, -⟩ := h.intact.row v hv
  cases hvk.symm.trans hvk'
  exact h.snapshots d key hd hdk hver

theorem Kept.collect (h : s.Kept flate) (i : ℕ) (id : UUID) :
    (s.setCall i (.collected id (s.db.blobKeysFor id))).Kept flate := by
  have hin := h.intact
  refine ⟨hin.list ⟨nofun, nofun, ?_, nofun⟩ rfl fun key hkey j q _ hj codec => ?_, h.snapshots⟩
  · rintro id' keys ⟨⟩ key hkey v hv hvk
    rcases Database.mem_blobKeysFor.1 hkey with ⟨d, hd, -, hdk⟩ | ⟨w, hw, hdoc, hwk⟩
    · exact absurd hvk (h.blobKey_ne hd hdk hv)
    · cases hin.single v w key hv hw hvk hwk
      exact hdoc
  · rcases Database.mem_blobKeysFor.1 hkey with ⟨d, hd, -, hdk⟩ | ⟨w, hw, -, hwk⟩
    · exact hin.not_held_snapshot (h.snapshots d key hd hdk) hj
    · exact hin.not_held hw hwk hj

theorem Kept.delete (h : s.Kept flate) {id : UUID} {keys : List Key}
    (hi : s.calls i = some (.collected id keys)) (hfound : (s.db.find id).isSome) :
    ({ s with db := s.db.deleteDocuments (·.id = id) }.setCall i (.dropping keys)).Kept flate := by
  have hin := h.intact
  refine h.deleted i (fun key hkey j q hji hj codec hheld => ?_) fun key hkey v hv hvk => ?_
  · exact (hin.apart j i q _ hji hj hi key codec hheld).1 hkey
  · obtain ⟨d, hd⟩ := Option.isSome_iff_exists.1 hfound
    have hid : d.id = id := by simpa using List.find?_some hd
    refine ⟨d, List.mem_of_find?_eq_some hd, ?_, by simpa using hid⟩
    rw [hid, (hin.sound i _ hi).collected id keys rfl key hkey v hv hvk]

theorem Kept.deleteIdle (h : s.Kept flate) {before : ℕ} {keys : List Key}
    (hi : s.calls i = some (.gathered before keys))
    (hsafe : ∀ v ∈ s.db.versions, ∀ key ∈ keys, v.blobKey = some key →
      ∃ d ∈ s.db.documents, d.id = v.doc ∧ s.db.idle before d) :
    ({ s with db := (s.db.deleteIdle before).1 }.setCall i
      (.dropping ((s.db.deleteIdle before).2 ++ keys))).Kept flate := by
  have hin := h.intact
  refine h.deleted i (fun key hkey j q hji hj codec hheld => ?_) fun key hkey v hv hvk => ?_
  · rcases List.mem_append.1 hkey with hkey | hkey
    · obtain ⟨d, hd, hdk⟩ := Database.mem_keys_deleteIdle hkey
      exact hin.not_held_snapshot (h.snapshots d key hd hdk) hj hheld
    · exact (hin.apart j i q _ hji hj hi key codec hheld).1 hkey
  · rcases List.mem_append.1 hkey with hkey | hkey
    · obtain ⟨d, hd, hdk⟩ := Database.mem_keys_deleteIdle hkey
      exact absurd hvk (h.blobKey_ne hd hdk hv)
    · exact hsafe v hv key hkey hvk

/-- `dropBlob`: nobody else has the key, whether or not the object goes. -/
theorem Kept.drop (h : s.Kept flate) {keys : List Key}
    (hi : s.calls i = some (.dropping (key :: keys))) (ok : Bool) :
    ({ s with
      objects := if ok then Function.update s.objects key none else s.objects
      }.setCall i (.dropping keys)).Kept flate := by
  have hin := h.intact
  have hs := hin.sound i _ hi
  refine ⟨(hin.shrink (fun _ hv => hv) fun key' _ => ?_).list
    (.dropped fun key' hkey => hs.dropping _ rfl key' (by simp [hkey])) rfl
    fun key' hkey j q hji hj codec hheld => ?_, h.snapshots⟩
  · by_cases hkey : key' = key
    · subst hkey
      refine .inr ⟨hs.dropping _ rfl key' (by simp), fun j q hj codec hheld => ?_⟩
      by_cases hji : j = i
      · subst hji
        cases hi.symm.trans hj
        cases hheld
      · exact (hin.apart j i q _ hji hj hi key' codec hheld).1 (by simp [Phase.listed])
    · refine .inl ?_
      cases ok
      · rfl
      · exact Function.update_of_ne hkey ..
  · exact (hin.apart j i q _ hji hj hi key' codec hheld).1 (by simp_all [Phase.listed])

theorem Kept.act (h : s.Kept flate) (hi : s.calls i = some p) {a : Act}
    (hsafe : Safe flate s (.act i a)) (hact : s.act flate i p a = some s') : s'.Kept flate := by
  have hin := h.intact
  unfold Archive.act at hact
  split at hact
  next c =>
    split at hact
    · cases hact
      exact ⟨hin.setIdle ⟨rfl, rfl⟩ i, h.snapshots⟩
    · cases hact
  next c random =>
    cases hact
    exact h.put (hsafe c hi) i
  next c key ok =>
    split at hact
    · cases hact
      exact ⟨h.insert hi, h.snapshots⟩
    · cases hact
      exact h.discard hi
  next row key =>
    cases hact
    exact ⟨hin.commit hi, h.snapshots⟩
  next id keep =>
    cases hact
    exact h.prune i id keep
  next id =>
    cases hact
    exact h.collect i id
  next id keys =>
    split at hact
    · cases hact
    · split at hact
      next hfound =>
        cases hact
        exact h.delete hi hfound
      next =>
        cases hact
        exact ⟨hin.endCall i, h.snapshots⟩
  next before =>
    cases hact
    refine ⟨hin.list (.gathered before _) rfl fun key hkey j q _ hj codec => ?_, h.snapshots⟩
    obtain ⟨v, hv, hvk⟩ := Database.mem_versions_of_idleVersionKeys hkey
    exact hin.not_held hv hvk hj
  next before keys =>
    split at hact
    · cases hact
    · cases hact
      exact h.deleteIdle hi (hsafe before keys hi)
  next key keys ok =>
    cases hact
    exact h.drop hi ok
  next =>
    cases hact
    exact ⟨hin.endCall i, h.snapshots⟩
  next => cases hact

theorem Kept.step (h : s.Kept flate) {a : Action} (hsafe : Safe flate s a)
    (hstep : s.step flate a = some s') : s'.Kept flate := by
  have hin := h.intact
  cases a with
  | start i op =>
    simp only [Archive.step] at hstep
    split at hstep
    · cases hstep
    · cases hstep
      exact h.start i op
  | act i a =>
    simp only [Archive.step] at hstep
    split at hstep
    next p hi => exact h.act hi hsafe hstep
    next => cases hstep
  | stop i =>
    cases hstep
    exact ⟨hin.endCall i, h.snapshots⟩
  | ensure id owner =>
    cases hstep
    refine ⟨hin.shrink (fun v hv => ?_) fun _ _ => .inl rfl, fun d key hd hkey => ?_⟩
    · rwa [Database.versions_ensureIn] at hv
    · rcases Database.snapshotKey_ensureIn hd with hnone | hd
      · rw [hnone] at hkey
        cases hkey
      · exact h.snapshots d key hd hkey
  | append id payloads =>
    simp only [Archive.step] at hstep
    split at hstep
    next db seqs happ =>
      cases hstep
      obtain ⟨hversions, hdocuments⟩ := Database.versions_append happ
      refine ⟨hin.shrink (fun v hv => hversions ▸ hv) fun _ _ => .inl rfl, fun d key hd => ?_⟩
      exact h.snapshots d key (hdocuments ▸ hd)
    next => cases hstep
  | compact id codec folded =>
    simp only [Archive.step] at hstep
    split at hstep
    next db hcomp =>
      cases hstep
      refine ⟨hin.shrink (fun v hv => Database.versions_compact hcomp ▸ hv) fun _ _ => .inl rfl,
        fun d key hd hkey => ?_⟩
      rcases Database.snapshotKey_compact hcomp hd with heq | ⟨d', hd', heq⟩
      · cases heq.symm.trans hkey
        exact not_false
      · exact h.snapshots d' key hd' (heq ▸ hkey)
    next => cases hstep
  | object id seq body =>
    cases hstep
    refine ⟨hin.shrink (fun _ hv => hv) fun key hver => .inl (Function.update_of_ne ?_ ..),
      h.snapshots⟩
    rintro rfl
    exact hver
  | tick =>
    cases hstep
    exact ⟨hin, h.snapshots⟩

end

end Archive

open Archive in
/-- **Every version is readable** in every run in which random keys are new and each `DeleteIdle`
still finds idle, when it deletes, the documents whose versions it has selected. -/
theorem versions_keep_objects {flate : Flate} {l : List Action} {s : Archive}
    (hl : Machine.Along (Archive.step flate) (Safe flate) {} l)
    (hrun : Machine.run (Archive.step flate) {} l = some s) :
    (∀ v ∈ s.db.versions, ∀ key, v.blobKey = some key → (s.objects key).isSome) ∧
    ∀ v ∈ s.db.versions, ∃ payload, s.loadVersion flate v.doc v.id = some (.ok payload) := by
  have hstart : Kept flate {} := ⟨⟨by simp, by simp, by simp, by simp⟩, by simp⟩
  have hkept : s.Kept flate := Machine.invariant (fun h ha hs => h.step ha hs) hstart hl hrun
  constructor
  · intro v hv key hkey
    obtain ⟨key', hkey', -, payload, hbody, -⟩ := hkept.intact.row v hv
    cases hkey.symm.trans hkey'
    simp [hbody]
  · intro v hv
    -- the row that is found is one of the rows, if not `v`
    obtain ⟨w, hw⟩ : ∃ w, s.db.versions.find? (fun w => w.doc = v.doc ∧ w.id = v.id) = some w := by
      rw [← Option.isSome_iff_exists, List.find?_isSome]
      exact ⟨v, hv, by simp⟩
    obtain ⟨key, hkey, -, hholds⟩ := hkept.intact.row w (List.mem_of_find?_eq_some hw)
    obtain ⟨payload, hread⟩ := hholds.readBlob w.payload
    refine ⟨payload, ?_⟩
    rw [loadVersion, hw, Option.map_some, hkey, hread]

namespace Archive.Sample

/-- Nothing is compressed. -/
def verbatim : Flate := Flate.verbatim

/-- The runs below compress nothing. -/
def step : Archive → Action → Option Archive := Archive.step verbatim

/-- A document, and another one. -/
def old : UUID := nilUUID

/-- The other one. -/
def young : UUID := documentNamespace

/-- A version of `old` is saved, up to where the object is put. -/
def saving : List Action :=
  [.ensure old nilUUID, .start 0 (.saveVersion old [0] [1] 0), .act 0 .lock]

/-- The version is committed, and later one of `young` is saved. -/
def saved : List Action :=
  [.act 0 (.insert true), .act 0 .commit, .tick, .tick, .ensure young nilUUID,
    .start 0 (.saveVersion young [0] [1] 0), .act 0 .lock]

/-- `DeleteIdle` selects the version of `old`. -/
def sweeping : List Action :=
  [.act 0 (.insert true), .act 0 .commit, .start 1 (.deleteIdle 1), .act 1 .collect]

/-- It has deleted. -/
def swept : List Action := [.act 1 (.drop true), .act 1 .finish]

/-- A run in which `old` stays idle. -/
def quiet : List Action :=
  saving ++ [.act 0 (.put [7])] ++ saved ++ [.act 0 (.put [8])] ++ sweeping ++
    [.act 1 .delete] ++ swept

/-- A run in which somebody types in `old` after its version was selected. -/
def busy : List Action :=
  saving ++ [.act 0 (.put [7])] ++ saved ++ [.act 0 (.put [8])] ++ sweeping ++
    [.append old [[1]], .act 1 .delete] ++ swept

end Archive.Sample

open Archive Archive.Sample in
/-- A sweep of a document that stays idle. The version of the other one is still there. -/
theorem other_version_stays : ∃ s, Machine.run step {} quiet = some s ∧
    s.db.versions.map (·.doc) = [young] ∧ (s.objects (.version old [7])) = none ∧
    ∀ v ∈ s.db.versions, ∃ payload, s.loadVersion verbatim v.doc v.id = some (.ok payload) := by
  have hsafe : Machine.Along step (Safe verbatim) {} quiet := by
    refine .cons trivial rfl (.cons trivial rfl (.cons trivial rfl (.cons ?_ rfl (.cons trivial rfl
      (.cons trivial rfl (.cons trivial rfl (.cons trivial rfl (.cons trivial rfl (.cons trivial rfl
      (.cons trivial rfl (.cons ?_ rfl (.cons trivial rfl (.cons trivial rfl (.cons trivial rfl
      (.cons trivial rfl (.cons ?_ rfl (.cons trivial rfl (.cons trivial rfl
      trivial))))))))))))))))))
    -- the states in which a key is drawn, and the one in which documents are deleted
    · rintro c ⟨⟩
      exact ⟨nofun, by rintro (_ | i) p ⟨⟩; exact ⟨nofun, nofun⟩⟩
    · rintro c ⟨⟩
      exact ⟨by decide, by rintro (_ | i) p ⟨⟩; exact ⟨nofun, nofun⟩⟩
    · rintro before keys ⟨⟩
      decide
  exact ⟨_, rfl, rfl, rfl, (versions_keep_objects hsafe rfl).2⟩

open Archive Archive.Sample in
/-- **A document that becomes active loses its version**: the row is there, and the object it names
is not. -/
theorem active_document_loses_version : ∃ s, Machine.run step {} busy = some s ∧
    s.db.documents.map (·.id) = [young, old] ∧
    s.db.versions.map (fun v => (v.doc, v.id, v.blobKey)) =
      [(young, 2, some (.version young [8])), (old, 1, some (.version old [7]))] ∧
    s.objects (.version old [7]) = none ∧
    s.loadVersion verbatim old 1 = some (.error (.missing (.version old [7]))) :=
  ⟨_, rfl, rfl, rfl, rfl, rfl⟩

end YCollab.Store
