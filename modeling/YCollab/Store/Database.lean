import Mathlib.Data.List.Sort
import YCollab.Store.Pack
import YCollab.Store.Uuid

/-!
# The tables

`internal/store/schema.sql` and the statements that `internal/store` runs on it, each of them as
one function. Calls that run several statements, in transactions or not, are state machines over
these (see `Store.Archive`).

Times are natural numbers. Of the columns, `name`, `label` and the two that record sizes are left
out: no statement here decides anything by them.
-/

namespace YCollab.Store

/-- A key in object storage: the source writes `snapshots/<id>/<seq>` and
`versions/<id>/<random>`. -/
inductive Key where
  /-- `snapshotKey`. -/
  | snapshot (id : UUID) (seq : ℕ)
  /-- `versionKey`. -/
  | version (id : UUID) (random : Bytes)
  deriving DecidableEq

/-- A row of `documents`. -/
structure DocumentRow where
  id : UUID
  owner : UUID
  /-- The snapshot, unless it is an object. -/
  snapshot : Option Bytes := none
  codec : Codec := .raw
  /-- The object that is the snapshot; the source has the empty text for none. -/
  snapshotKey : Option Key := none
  snapshotSeq : ℕ := 0
  updatedAt : ℕ
  deriving DecidableEq

/-- A row of `doc_updates`. -/
structure UpdateRow where
  doc : UUID
  seq : ℕ
  payload : Bytes
  createdAt : ℕ
  deriving DecidableEq

/-- A row of `doc_versions`. -/
structure VersionRow where
  doc : UUID
  id : ℕ
  createdAt : ℕ
  stateVector : Bytes
  /-- The version, unless it is an object. -/
  payload : Bytes
  codec : Codec
  /-- The object that is the version; the source has the empty text for none. -/
  blobKey : Option Key

/-- What is committed. -/
structure Database where
  documents : List DocumentRow := []
  updates : List UpdateRow := []
  versions : List VersionRow := []
  /-- The next value of the identity column of `doc_updates`. -/
  nextSeq : ℕ := 1
  /-- The next value of the identity column of `doc_versions`. -/
  nextVersion : ℕ := 1

/-- Why `Compact` fails. -/
inductive CompactErr where
  /-- There is no such document. -/
  | missing
  /-- `ErrStaleSnapshot`: the stored snapshot is as new. -/
  | stale
  deriving DecidableEq

namespace Database

variable (db : Database)

/-! ### Documents -/

/-- The row of a document. -/
def find (id : UUID) : Option DocumentRow := db.documents.find? (·.id = id)

/-- `ensureIn`: the row is created unless it is there, and its owner is read back. -/
def ensureIn (id owner : UUID) (now : ℕ) : Database × UUID :=
  match db.find id with
  | some d => (db, d.owner)
  | none => ({ db with documents := { id, owner, updatedAt := now } :: db.documents }, owner)

/-- Documents are deleted, and everything that refers to them goes with them. -/
def deleteDocuments (p : DocumentRow → Bool) : Database :=
  let gone := db.documents.filter p
  { db with
    documents := db.documents.filter (! p ·)
    updates := db.updates.filter fun u => gone.all (·.id ≠ u.doc)
    versions := db.versions.filter fun v => gone.all (·.id ≠ v.doc) }

/-- The condition of both statements of `DeleteIdle`. -/
def idle (before : ℕ) (d : DocumentRow) : Bool :=
  d.updatedAt < before ∧ db.updates.all fun u => u.doc = d.id → u.createdAt < before

/-! ### The log -/

/-- `Append`: the rows get the next numbers. There is no log without its document. -/
def append (id : UUID) (payloads : List Bytes) (now : ℕ) : Option (Database × List ℕ) :=
  if payloads = [] then some (db, [])
  else
    match db.find id with
    | none => none
    | some _ =>
      let seqs := List.range' db.nextSeq payloads.length
      let rows := List.zipWith (fun seq payload => ⟨id, seq, payload, now⟩) seqs payloads
      some ({ db with
        updates := db.updates ++ rows
        nextSeq := db.nextSeq + payloads.length }, seqs)

/-- The transaction of `Compact` as it is committed: the snapshot is replaced by one that covers the
rows `folded`, and they are deleted. Nothing happens if the stored snapshot is as new. -/
def compact (id : UUID) (snapshot : Option Bytes) (codec : Codec) (key : Option Key)
    (folded : List ℕ) (now : ℕ) : Except CompactErr Database :=
  let watermark := folded.foldl max 0
  match db.find id with
  | none => .error .missing
  | some d =>
    if d.snapshotSeq < watermark then
      .ok { db with
        documents := db.documents.map fun d =>
          if d.id = id then
            { d with snapshot, codec, snapshotKey := key, snapshotSeq := watermark,
                     updatedAt := now }
          else d
        updates := db.updates.filter fun u => ¬(u.doc = id ∧ u.seq ∈ folded) }
    else .error .stale

/-- The log of a document, in the order of its numbers. -/
def logOf (id : UUID) : List UpdateRow :=
  (db.updates.filter (·.doc = id)).insertionSort fun u u' => u.seq ≤ u'.seq

/-! ### Versions -/

/-- The newest version of a document, by number. -/
def newest (id : UUID) : Option VersionRow :=
  (db.versions.filter (·.doc = id)).foldl
    (fun best v =>
      match best with
      | some b => if b.id < v.id then some v else some b
      | none => some v) none

/-- Whether the insert of `SaveVersion` writes a row: the document is there, and its newest version
is old enough and another one. -/
def saysNew (id : UUID) (stateVector : Bytes) (minAge : ℤ) (now : ℕ) : Bool :=
  (db.find id).isSome && !(db.newest id).any fun v =>
    (v.createdAt : ℤ) > now - minAge ∨ v.stateVector = stateVector

/-- The delete of `PruneVersions`, and the keys it returns. -/
def pruneVersions (id : UUID) (keep : ℕ) : Database × List Key :=
  let kept := (((db.versions.filter (·.doc = id)).map (·.id)).insertionSort (· ≥ ·)).take keep
  let goes (v : VersionRow) : Bool := v.doc = id ∧ v.id ∉ kept
  ({ db with versions := db.versions.filter (! goes ·) },
    (db.versions.filter goes).filterMap (·.blobKey))

/-- `blobKeysFor`. -/
def blobKeysFor (id : UUID) : List Key :=
  (db.documents.filter (·.id = id)).filterMap (·.snapshotKey) ++
    (db.versions.filter (·.doc = id)).filterMap (·.blobKey)

/-- The keys that `DeleteIdle` selects before it deletes. -/
def idleVersionKeys (before : ℕ) : List Key :=
  (db.versions.filter fun v => db.documents.any fun d => d.id = v.doc ∧ db.idle before d).filterMap
    (·.blobKey)

/-- The delete of `DeleteIdle`, and the keys it returns. -/
def deleteIdle (before : ℕ) : Database × List Key :=
  (db.deleteDocuments (db.idle before),
    (db.documents.filter (db.idle before)).filterMap (·.snapshotKey))

/-! ### What the statements leave and return -/

variable {db}

theorem mem_versions_deleteDocuments {p : DocumentRow → Bool} {v : VersionRow} :
    v ∈ (db.deleteDocuments p).versions ↔
      v ∈ db.versions ∧ ∀ d ∈ db.documents, p d → d.id ≠ v.doc := by
  simp only [deleteDocuments, List.mem_filter, List.all_eq_true, and_imp, decide_eq_true_eq]

theorem mem_versions_of_pruneVersions {id : UUID} {keep : ℕ} {v : VersionRow}
    (h : v ∈ (db.pruneVersions id keep).1.versions) : v ∈ db.versions :=
  List.mem_of_mem_filter h

theorem mem_keys_pruneVersions {id : UUID} {keep : ℕ} {key : Key}
    (h : key ∈ (db.pruneVersions id keep).2) :
    ∃ v ∈ db.versions, v ∉ (db.pruneVersions id keep).1.versions ∧ v.blobKey = some key := by
  obtain ⟨v, hv, hkey⟩ := List.mem_filterMap.1 h
  obtain ⟨hv, hgoes⟩ := List.mem_filter.1 hv
  refine ⟨v, hv, fun hkept => ?_, hkey⟩
  have hstays := (List.mem_filter.1 hkept).2
  simp only [hgoes, Bool.not_true, Bool.false_eq_true] at hstays

theorem mem_blobKeysFor {id : UUID} {key : Key} : key ∈ db.blobKeysFor id ↔
    (∃ d ∈ db.documents, d.id = id ∧ d.snapshotKey = some key) ∨
      ∃ v ∈ db.versions, v.doc = id ∧ v.blobKey = some key := by
  simp [blobKeysFor, and_assoc]

theorem mem_versions_of_idleVersionKeys {before : ℕ} {key : Key}
    (h : key ∈ db.idleVersionKeys before) : ∃ v ∈ db.versions, v.blobKey = some key := by
  obtain ⟨v, hv, hkey⟩ := List.mem_filterMap.1 h
  exact ⟨v, List.mem_of_mem_filter hv, hkey⟩

theorem mem_keys_deleteIdle {before : ℕ} {key : Key} (h : key ∈ (db.deleteIdle before).2) :
    ∃ d ∈ db.documents, d.snapshotKey = some key := by
  obtain ⟨d, hd, hkey⟩ := List.mem_filterMap.1 h
  exact ⟨d, List.mem_of_mem_filter hd, hkey⟩

theorem versions_ensureIn (id owner : UUID) (now : ℕ) :
    (db.ensureIn id owner now).1.versions = db.versions := by
  unfold ensureIn
  split <;> rfl

theorem versions_append {id : UUID} {payloads : List Bytes} {now : ℕ} {db' : Database}
    {seqs : List ℕ} (h : db.append id payloads now = some (db', seqs)) :
    db'.versions = db.versions ∧ db'.documents = db.documents := by
  unfold append at h
  split at h
  · cases h
    exact ⟨rfl, rfl⟩
  · split at h
    · cases h
    · cases h
      exact ⟨rfl, rfl⟩

theorem versions_compact {id : UUID} {snapshot : Option Bytes} {codec : Codec} {key : Option Key}
    {folded : List ℕ} {now : ℕ} {db' : Database}
    (h : db.compact id snapshot codec key folded now = .ok db') : db'.versions = db.versions := by
  simp only [compact] at h
  split at h
  · cases h
  · split at h
    · cases h
      rfl
    · cases h

theorem snapshotKey_compact {id : UUID} {snapshot : Option Bytes} {codec : Codec}
    {key : Option Key} {folded : List ℕ} {now : ℕ} {db' : Database}
    (h : db.compact id snapshot codec key folded now = .ok db') {d : DocumentRow}
    (hd : d ∈ db'.documents) :
    d.snapshotKey = key ∨ ∃ d' ∈ db.documents, d.snapshotKey = d'.snapshotKey := by
  simp only [compact] at h
  split at h
  · cases h
  · split at h
    · cases h
      obtain ⟨d', hd', rfl⟩ := List.mem_map.1 hd
      split
      · exact .inl rfl
      · exact .inr ⟨d', hd', rfl⟩
    · cases h

theorem snapshotKey_ensureIn {id owner : UUID} {now : ℕ} {d : DocumentRow}
    (hd : d ∈ (db.ensureIn id owner now).1.documents) : d.snapshotKey = none ∨ d ∈ db.documents := by
  unfold ensureIn at hd
  split at hd
  · exact .inr hd
  · rcases List.mem_cons.1 hd with rfl | hd
    · exact .inl rfl
    · exact .inr hd

end Database

/-! ### Objects -/

/-- What is under each key. -/
abbrev Objects := Key → Option Bytes

/-- Why a payload cannot be read. -/
inductive ReadErr where
  /-- The object does not exist. -/
  | missing (key : Key)
  | unpack (err : UnpackErr)
  deriving DecidableEq

/-- `readBlob`: the bytes of a row, from wherever the row says they are. -/
def readBlob (flate : Flate) (objects : Objects) (key : Option Key) (inline : Bytes)
    (codec : Codec) : Except ReadErr Bytes :=
  match key with
  | none => (unpack flate inline codec).mapError .unpack
  | some key =>
    match objects key with
    | none => .error (.missing key)
    | some body => (unpack flate body codec).mapError .unpack

/-- The object under `key` is a payload that was packed with this codec. -/
def Objects.Holds (flate : Flate) (objects : Objects) (key : Key) (codec : Codec) : Prop :=
  ∃ payload, objects key = some (pack flate payload).1 ∧ codec = (pack flate payload).2

theorem Objects.Holds.readBlob {flate : Flate} {objects : Objects} {key : Key} {codec : Codec}
    (h : objects.Holds flate key codec) (inline : Bytes) :
    ∃ payload, readBlob flate objects (some key) inline codec = .ok payload := by
  obtain ⟨payload, hbody, rfl⟩ := h
  refine ⟨payload, ?_⟩
  simp only [Store.readBlob, hbody, unpack_pack]
  rfl

end YCollab.Store
