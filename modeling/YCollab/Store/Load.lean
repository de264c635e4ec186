import YCollab.Store.Database

/-!
# Loading a document

`Load`: the row of a document is created unless it is there, its snapshot is read from wherever the
row says it is, and every row of the log that is left comes with it. Here the statements of a call
see one state of the database; `Append` and `Compact` are the functions of `Store.Database`.

What a load returns is told by the row and the log alone (`Database.load_eq`), so the rest of the
module says what `Append` and `Compact` do to these two.
-/

namespace YCollab.Store

/-- What a room needs to restore a document. -/
structure Document where
  /-- The snapshot, unpacked; nothing if there never was one. -/
  snapshot : Option Bytes
  updates : List Bytes
  /-- The numbers of these updates. -/
  seqs : List ℕ

/-- Why `Load` fails. -/
inductive LoadErr where
  /-- `ErrWrongOwner`. -/
  | wrongOwner
  | missing
  | read (err : ReadErr)
  deriving DecidableEq

/-- The snapshot that a row has, from wherever the row says it is. -/
def DocumentRow.readSnapshot (flate : Flate) (objects : Objects) (d : DocumentRow) :
    Except ReadErr (Option Bytes) :=
  if d.snapshot = none ∧ d.snapshotKey = none then .ok none
  else (readBlob flate objects d.snapshotKey (d.snapshot.getD []) d.codec).map some

theorem DocumentRow.readSnapshot_inline (flate : Flate) (objects : Objects) {d : DocumentRow}
    {b : Bytes} (hs : d.snapshot = some (pack flate b).1) (hc : d.codec = (pack flate b).2)
    (hk : d.snapshotKey = none) : d.readSnapshot flate objects = .ok (some b) := by
  unfold readSnapshot
  rw [if_neg (by simp [hs]), hk, hs, hc]
  simp only [readBlob, Option.getD_some, unpack_pack]
  rfl

/-- What holds of a snapshot can be decided by reading it. -/
instance DocumentRow.decidableSnapshot {P : Bytes → Prop} [DecidablePred P] (flate : Flate)
    (objects : Objects) (d : DocumentRow) :
    Decidable (∀ b, d.readSnapshot flate objects = .ok (some b) → P b) :=
  match d.readSnapshot flate objects with
  | .ok (some b) => decidable_of_iff (P b) ⟨fun h _ hb => by cases hb; exact h, fun h => h b rfl⟩
  | .ok none => .isTrue nofun
  | .error _ => .isTrue nofun

namespace Database

variable {flate : Flate} {objects : Objects} {db db' : Database} {id owner : UUID} {now : ℕ}
  {d : DocumentRow} {payloads : List Bytes} {seqs folded : List ℕ}

/-- `Load`. -/
def load (flate : Flate) (objects : Objects) (db : Database) (id owner : UUID) (now : ℕ) :
    Except LoadErr (Database × Document) :=
  let (db, found) := db.ensureIn id owner now
  if found ≠ owner then .error .wrongOwner
  else
    match db.find id with
    | none => .error .missing
    | some d =>
      match d.readSnapshot flate objects with
      | .error err => .error (.read err)
      | .ok snapshot =>
        let rows := db.logOf id
        .ok (db, ⟨snapshot, rows.map (·.payload), rows.map (·.seq)⟩)

theorem load_eq (hd : db.find id = some d) (howner : d.owner = owner) :
    db.load flate objects id owner now =
      match d.readSnapshot flate objects with
      | .error err => .error (.read err)
      | .ok snapshot => .ok (db, ⟨snapshot, (db.logOf id).map (·.payload),
          (db.logOf id).map (·.seq)⟩) := by
  unfold load ensureIn
  rw [hd]
  simp only [howner, ne_eq, not_true_eq_false, if_false, hd]

/-- The row that a load has read. -/
theorem exists_row_of_load {doc : Document}
    (h : db.load flate objects id owner now = .ok (db', doc)) :
    ∃ d, db'.find id = some d ∧ d.owner = owner ∧
      d.readSnapshot flate objects = .ok doc.snapshot ∧
      doc.updates = (db'.logOf id).map (·.payload) ∧ doc.seqs = (db'.logOf id).map (·.seq) := by
  unfold load at h
  cases hd : db.find id with
  | some d =>
    simp only [ensureIn, hd] at h
    split at h
    · cases h
    next howner =>
      split at h
      · cases h
      next snapshot hs =>
        cases h
        exact ⟨d, hd, not_not.1 howner, hs, rfl, rfl⟩
  | none =>
    simp only [ensureIn, hd, ne_eq, not_true_eq_false, if_false] at h
    split at h
    · cases h
    next d hd' =>
      split at h
      · cases h
      next snapshot hs =>
        cases h
        refine ⟨d, hd', ?_, hs, rfl, rfl⟩
        simp only [find, List.find?_cons, decide_true, Option.some.injEq] at hd'
        rw [← hd']

theorem ensureIn_of_load {doc : Document}
    (h : db.load flate objects id owner now = .ok (db', doc)) :
    db' = (db.ensureIn id owner now).1 := by
  unfold load at h
  simp only at h
  split at h
  · cases h
  · split at h
    · cases h
    · split at h
      · cases h
      · cases h
        rfl

theorem owner_of_load {doc : Document} (h : db.load flate objects id owner now = .ok (db', doc))
    (hd : db.find id = some d) : d.owner = owner := by
  simp only [load, ensureIn, hd] at h
  split at h
  · cases h
  next howner => exact not_not.1 howner

theorem updates_of_load {doc : Document} (h : db.load flate objects id owner now = .ok (db', doc)) :
    db'.updates = db.updates ∧ db'.nextSeq = db.nextSeq := by
  rw [ensureIn_of_load h]
  unfold ensureIn
  split <;> exact ⟨rfl, rfl⟩

theorem versions_of_load {doc : Document}
    (h : db.load flate objects id owner now = .ok (db', doc)) :
    db'.versions = db.versions ∧ db'.nextVersion = db.nextVersion := by
  rw [ensureIn_of_load h]
  unfold ensureIn
  split <;> exact ⟨rfl, rfl⟩

theorem find_of_load {doc : Document} (h : db.load flate objects id owner now = .ok (db', doc))
    (hd : db'.find id = some d) :
    db.find id = some d ∨ db.find id = none ∧ d = { id, owner, updatedAt := now } := by
  rw [ensureIn_of_load h, ensureIn] at hd
  split at hd
  · exact .inl hd
  next hnone => exact .inr ⟨hnone, by simpa [find, eq_comm] using hd⟩

theorem mem_of_find (h : db.find id = some d) : d ∈ db.documents ∧ d.id = id :=
  ⟨List.mem_of_find?_eq_some h, by simpa using List.find?_some h⟩

theorem mem_logOf {u : UpdateRow} : u ∈ db.logOf id ↔ u ∈ db.updates ∧ u.doc = id := by
  simp [logOf, (List.perm_insertionSort _ _).mem_iff]

/-! ### Appending -/

/-- The rows that `Append` writes. -/
def newRows (db : Database) (id : UUID) (payloads : List Bytes) (now : ℕ) : List UpdateRow :=
  List.zipWith (fun seq payload => ⟨id, seq, payload, now⟩)
    (List.range' db.nextSeq payloads.length) payloads

theorem append_eq (hd : db.find id = some d) (hne : payloads ≠ []) :
    db.append id payloads now = some ({ db with
      updates := db.updates ++ db.newRows id payloads now
      nextSeq := db.nextSeq + payloads.length }, List.range' db.nextSeq payloads.length) := by
  unfold append
  rw [if_neg hne, hd]
  rfl

theorem documents_append (h : db.append id payloads now = some (db', seqs)) :
    db'.documents = db.documents := by
  unfold append at h
  split at h
  · cases h
    rfl
  · split at h <;> cases h
    rfl

theorem find_append (h : db.append id payloads now = some (db', seqs)) (id' : UUID) :
    db'.find id' = db.find id' := by
  rw [find, documents_append h, find]

theorem mem_newRows {u : UpdateRow} (h : u ∈ db.newRows id payloads now) :
    u.doc = id ∧ db.nextSeq ≤ u.seq ∧ u.seq < db.nextSeq + payloads.length ∧
      u.payload ∈ payloads := by
  obtain ⟨n, hn, hu⟩ := List.getElem_of_mem h
  simp only [newRows, List.length_zipWith, List.length_range', min_self] at hn
  simp only [newRows, List.getElem_zipWith, List.getElem_range', Nat.one_mul] at hu
  subst hu
  exact ⟨rfl, Nat.le_add_right .., Nat.add_lt_add_left hn _, List.getElem_mem hn⟩

theorem exists_newRows (id : UUID) (now : ℕ) {n : ℕ}
    (h : n ∈ List.range' db.nextSeq payloads.length) :
    ∃ u ∈ db.newRows id payloads now, u.seq = n := by
  obtain ⟨k, hk, rfl⟩ := List.mem_range'.1 h
  refine ⟨(db.newRows id payloads now).get ⟨k, by simpa [newRows] using hk⟩, List.get_mem .., ?_⟩
  simp [newRows]

theorem orderedInsert_append {u : UpdateRow} {l new : List UpdateRow}
    (h : ∀ v ∈ new, u.seq ≤ v.seq) :
    (l ++ new).orderedInsert (fun u u' => u.seq ≤ u'.seq) u =
      l.orderedInsert (fun u u' => u.seq ≤ u'.seq) u ++ new := by
  induction l with
  | nil =>
    cases new with
    | nil => rfl
    | cons v new => exact if_pos (h v List.mem_cons_self)
  | cons v l ih =>
    simp only [List.cons_append, List.orderedInsert_cons]
    split
    · rfl
    · rw [ih, List.cons_append]

theorem insertionSort_append {l new : List UpdateRow} (hnew : new.Pairwise (·.seq ≤ ·.seq))
    (h : ∀ u ∈ l, ∀ v ∈ new, u.seq ≤ v.seq) :
    (l ++ new).insertionSort (fun u u' => u.seq ≤ u'.seq) =
      l.insertionSort (fun u u' => u.seq ≤ u'.seq) ++ new := by
  induction l with
  | nil => exact List.Pairwise.insertionSort_eq hnew
  | cons u l ih =>
    rw [List.cons_append, List.insertionSort_cons, List.insertionSort_cons,
      ih fun v hv => h v (List.mem_cons_of_mem _ hv)]
    exact orderedInsert_append (h u List.mem_cons_self)

theorem logOf_append (hdb : ∀ u ∈ db.updates, u.seq < db.nextSeq) (payload : Bytes) (n : ℕ) :
    { db with
      updates := db.updates ++ db.newRows id [payload] now
      nextSeq := n }.logOf id = db.logOf id ++ [⟨id, db.nextSeq, payload, now⟩] := by
  have hrows : db.newRows id [payload] now = [⟨id, db.nextSeq, payload, now⟩] := rfl
  simp only [logOf, hrows, List.filter_append, List.filter_singleton, decide_true, cond_true]
  refine insertionSort_append (List.pairwise_singleton ..) fun u hu v hv => ?_
  obtain rfl := List.mem_singleton.1 hv
  exact (hdb u (List.mem_filter.1 hu).1).le

/-! ### Compacting -/

/-- The number that `Compact` records with the snapshot: the greatest of the rows it covers. -/
def watermark (folded : List ℕ) : ℕ := folded.foldl max 0

theorem foldl_max_le {n m : ℕ} (hm : m ≤ n) (h : ∀ seq ∈ folded, seq ≤ n) :
    folded.foldl max m ≤ n := by
  induction folded generalizing m with
  | nil => exact hm
  | cons seq folded ih =>
    exact ih (max_le hm (h seq (by simp))) fun seq' hseq' => h seq' (by simp [hseq'])

theorem le_foldl_max {m : ℕ} : m ≤ folded.foldl max m := by
  induction folded generalizing m with
  | nil => exact le_rfl
  | cons seq folded ih => exact (le_max_left m seq).trans ih

theorem le_watermark {seq : ℕ} (h : seq ∈ folded) : seq ≤ watermark folded := by
  unfold watermark
  obtain ⟨A, B, rfl⟩ := List.append_of_mem h
  rw [List.foldl_append, List.foldl_cons]
  exact (le_max_right _ seq).trans le_foldl_max

theorem watermark_le {n : ℕ} (h : ∀ seq ∈ folded, seq ≤ n) : watermark folded ≤ n :=
  foldl_max_le (Nat.zero_le n) h

variable {snapshot : Option Bytes} {codec : Codec} {key : Option Key}

/-- `Compact` of rows of which one is newer than the stored snapshot. -/
theorem compact_ok (hd : db.find id = some d) (hlt : d.snapshotSeq < watermark folded) :
    ∃ db', db.compact id snapshot codec key folded now = .ok db' ∧
      db'.find id = some { d with
        snapshot, codec, snapshotKey := key, snapshotSeq := watermark folded, updatedAt := now } ∧
      db'.nextSeq = db.nextSeq ∧
      db'.updates = db.updates.filter fun u => ¬(u.doc = id ∧ u.seq ∈ folded) := by
  simp only [compact, hd]
  rw [if_pos (show d.snapshotSeq < folded.foldl max 0 from hlt)]
  refine ⟨_, rfl, ?_, rfl, rfl⟩
  have hfind : ∀ l : List DocumentRow, l.find? (·.id = id) = some d →
      (l.map fun d => if d.id = id then { d with
        snapshot, codec, snapshotKey := key, snapshotSeq := watermark folded, updatedAt := now }
        else d).find? (·.id = id) = some { d with
        snapshot, codec, snapshotKey := key, snapshotSeq := watermark folded
        updatedAt := now } := by
    intro l
    induction l with
    | nil => simp
    | cons d₀ l ih =>
      intro hl
      by_cases hid : d₀.id = id
      · rw [List.find?_cons_of_pos (by simpa using hid)] at hl
        cases hl
        simp [hid]
      · rw [List.find?_cons_of_neg (by simpa using hid)] at hl
        rw [List.map_cons, List.find?_cons_of_neg (by simp [hid])]
        exact ih hl
  exact hfind db.documents hd

theorem older_of_compact (h : db.compact id snapshot codec key folded now = .ok db') :
    ∃ d, db.find id = some d ∧ d.snapshotSeq < watermark folded := by
  unfold compact at h
  simp only at h
  split at h
  · cases h
  next d hd =>
    split at h
    next hlt => exact ⟨d, hd, hlt⟩
    next => cases h

theorem find_of_compact (h : db.compact id snapshot codec key folded now = .ok db') :
    ∃ d, db.find id = some d ∧ d.snapshotSeq < watermark folded ∧ db'.find id = some { d with
      snapshot, codec, snapshotKey := key, snapshotSeq := watermark folded, updatedAt := now } := by
  obtain ⟨d, hd, hlt⟩ := older_of_compact h
  obtain ⟨db₁, h₁, hfind, -⟩ := compact_ok hd hlt
  cases h.symm.trans h₁
  exact ⟨d, hd, hlt, hfind⟩

theorem updates_of_compact (h : db.compact id snapshot codec key folded now = .ok db') :
    db'.updates = db.updates.filter fun u => ¬(u.doc = id ∧ u.seq ∈ folded) := by
  obtain ⟨d, hd, hlt⟩ := older_of_compact h
  obtain ⟨db₁, h₁, -, -, hupdates⟩ := compact_ok hd hlt
  cases h.symm.trans h₁
  exact hupdates

theorem find_of_compact_of_ne {id' : UUID} (hne : id' ≠ id)
    (h : db.compact id' snapshot codec key folded now = .ok db') : db'.find id = db.find id := by
  have hfind : ∀ (l : List DocumentRow) (f : DocumentRow → DocumentRow),
      (∀ d, (f d).id = d.id) →
      (l.map fun d => if d.id = id' then f d else d).find? (·.id = id) = l.find? (·.id = id) := by
    intro l f hf
    induction l with
    | nil => rfl
    | cons d l ih =>
      by_cases hid : d.id = id
      · simp [hid, hne.symm]
      · by_cases hid' : d.id = id' <;> simp [hid, hid', hne, hf, ih]
  unfold compact at h
  simp only at h
  split at h
  · cases h
  · split at h
    · cases h
      exact hfind _ _ fun _ => rfl
    · cases h

theorem newer_of_compact {err : CompactErr}
    (h : db.compact id snapshot codec key folded now = .error err) :
    err = .missing ∧ db.find id = none ∨
      err = .stale ∧ ∃ d, db.find id = some d ∧ watermark folded ≤ d.snapshotSeq := by
  unfold compact at h
  simp only at h
  split at h
  next hd =>
    cases h
    exact .inl ⟨rfl, hd⟩
  next d hd =>
    split at h
    next => cases h
    next hlt =>
      cases h
      exact .inr ⟨rfl, d, hd, Nat.not_lt.1 hlt⟩

/-! ### Versions -/

/-- `SaveVersion` without object storage, and whether a row was written. -/
def saveVersion (flate : Flate) (db : Database) (id : UUID) (now : ℕ) (payload stateVector : Bytes)
    (minAge : ℤ) : Database × Bool :=
  if payload ≠ [] ∧ db.saysNew id stateVector minAge now then
    ({ db with
      versions := ⟨id, db.nextVersion, now, stateVector, (pack flate payload).1,
        (pack flate payload).2, none⟩ :: db.versions
      nextVersion := db.nextVersion + 1 }, true)
  else (db, false)

/-- The two databases have the same documents and the same log: they differ in versions only. -/
structure SameLog (db db' : Database) : Prop where
  documents : db'.documents = db.documents
  updates : db'.updates = db.updates
  nextSeq : db'.nextSeq = db.nextSeq

theorem SameLog.find (h : SameLog db db') : db'.find id = db.find id := by
  rw [Database.find, Database.find, h.documents]

theorem SameLog.logOf (h : SameLog db db') : db'.logOf id = db.logOf id := by
  rw [Database.logOf, Database.logOf, h.updates]

/-- The document keeps its row, and rows are added at the end of its log. -/
structure Grows (id : UUID) (db db' : Database) : Prop where
  find : ∀ d ∈ db.find id, db'.find id = some d
  nextSeq : db.nextSeq ≤ db'.nextSeq
  log : db.logOf id <+: db'.logOf id

instance : Decidable (Grows id db db') :=
  decidable_of_iff ((∀ d ∈ db.find id, db'.find id = some d) ∧ db.nextSeq ≤ db'.nextSeq ∧
      db.logOf id <+: db'.logOf id)
    ⟨fun ⟨h₁, h₂, h₃⟩ => ⟨h₁, h₂, h₃⟩, fun h => ⟨h.1, h.2, h.3⟩⟩

theorem SameLog.grows (h : SameLog db db') (id : UUID) : Grows id db db' where
  find _ hd := h.find.trans hd
  nextSeq := h.nextSeq.ge
  log := h.logOf ▸ List.prefix_refl _

theorem ensureIn_grows (db : Database) (id owner : UUID) (now : ℕ) :
    Grows id db (db.ensureIn id owner now).1 := by
  unfold ensureIn
  cases hd : db.find id with
  | some d => exact ⟨fun _ h => h, le_rfl, List.prefix_refl _⟩
  | none =>
    refine ⟨fun d hmem => ?_, le_rfl, List.prefix_refl _⟩
    rw [hd] at hmem
    cases hmem

theorem saveVersion_sameLog (flate : Flate) (db : Database) (id : UUID) (now : ℕ)
    (payload sv : Bytes) (minAge : ℤ) :
    db.SameLog (db.saveVersion flate id now payload sv minAge).1 := by
  unfold saveVersion
  split <;> exact ⟨rfl, rfl, rfl⟩

end Database

end YCollab.Store
