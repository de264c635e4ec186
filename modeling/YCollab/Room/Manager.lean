import Mathlib.Data.List.Nodup
import YCollab.Store.Uuid

/-!
# The registry of resident rooms

`internal/room/registry.go`: the manager keeps the rooms of a node by *name*, while a room reads
and writes its document by *id*. Every method takes the manager's lock, so a run is a sequence of
locked sections, in any order the callers happen to get the lock: a call of `Join` is the section
`resident`, the query of `settleOwner`, which holds no lock and has an answer the manager does
not choose, and the section `open` that starts the room; a room that stops calls `forget`.

`NoShared` says that two rooms of the registry never have one document.
`one_room_per_document_iff` says for which names this is so in every run: exactly for those that
are told apart by what they spell. `cases_share_a_room` is a run with one UUID in two cases, after
which one document has two rooms.
-/

namespace YCollab.Room

open Store

/-- `ManagerConfig`, as far as the registry reads it. -/
structure ManagerConfig where
  /-- Resident rooms at most; zero is no limit. -/
  maxRooms : ℕ := 0
  /-- Estimated bytes of the resident documents at most; zero is no limit. -/
  maxMemory : ℕ := 0
  /-- Whether the rooms have a store, which then knows who owns a document. -/
  store : Bool := false

/-- What the registry knows of a resident room. -/
structure Resident where
  /-- Which room it is; the source compares pointers. -/
  serial : ℕ
  /-- The name it is registered under. -/
  name : Bytes
  /-- The id its document is stored under. -/
  docID : UUID
  /-- The owner the room was opened for. -/
  owner : UUID
  /-- What the room last published as its size. -/
  bytes : ℕ
  /-- The entry of `used`, which has the same keys as `rooms`. -/
  used : ℕ
  deriving DecidableEq

/-- `Manager`, with the calls of `Join` that are between two locked sections. -/
structure Manager where
  /-- Set by `Wait`. -/
  closed : Bool := false
  /-- The map `rooms`. -/
  rooms : List Resident := []
  /-- The counter behind `used`. -/
  clock : ℕ := 0
  /-- Rooms created so far. -/
  created : ℕ := 0
  /-- Calls (name and owner) that found no room and are asking the store. -/
  asking : List (Bytes × Bytes) := []
  /-- Calls the store has answered, waiting for the lock. -/
  settled : List (Bytes × Bytes) := []

/-- What a locked section tells its caller. -/
inductive Answer where
  /-- The room with this serial. -/
  | room (serial : ℕ)
  /-- `ErrWrongOwner`. -/
  | wrongOwner
  /-- `ErrManagerClosed`. -/
  | closed
  /-- A limit is in the way; these rooms may be evicted, least recently used first. -/
  | full (candidates : List ℕ)
  /-- No room has the name. -/
  | absent
  deriving DecidableEq

namespace Manager

variable (sha1 : Sha1) (cfg : ManagerConfig) (m : Manager)

/-- The room registered under `name`. -/
def find (name : Bytes) : Option Resident := m.rooms.find? fun r => r.name = name

/-- `touch`. -/
def touch (name : Bytes) : Manager :=
  { m with
    clock := m.clock + 1
    rooms := m.rooms.map fun r => if r.name = name then { r with used := m.clock + 1 } else r }

/-- `byLeastRecentlyUsed`. -/
def byLeastRecentlyUsed : List ℕ :=
  (m.rooms.mergeSort fun a b => a.used ≤ b.used).map Resident.serial

/-- `overBudget`, with `residentBytes` inside. -/
def overBudget : Bool := cfg.maxMemory > 0 && (m.rooms.map Resident.bytes).sum > cfg.maxMemory

/-- A resident room is handed out to its owner only. -/
def handOut (r : Resident) (name owner : Bytes) : Manager × Answer :=
  if r.owner ≠ ownerID sha1 owner then (m, .wrongOwner) else (m.touch name, .room r.serial)

/-- `resident`, the first locked section of `tryGet`; a call that finds no room goes on to ask the
store. -/
def resident (name owner : Bytes) : Manager × Answer :=
  match m.find name with
  | some r => m.handOut sha1 r name owner
  | none => ({ m with asking := (name, owner) :: m.asking }, .absent)

/-- `settleOwner`: the answer of `Ensure` is the owner found, or nothing if the query failed.
Without a store the caller's word stands. -/
def settleOwner (name owner : Bytes) (found : Option UUID) : Manager :=
  if (name, owner) ∈ m.asking then
    let m := { m with asking := m.asking.erase (name, owner) }
    if cfg.store = false ∨ found = some (ownerID sha1 owner) then
      { m with settled := (name, owner) :: m.settled }
    else m
  else m

/-- `New` and the registration of the new room. -/
def start (name owner : Bytes) : Manager × Answer :=
  ({ m with
      clock := m.clock + 1
      created := m.created + 1
      rooms :=
        ⟨m.created, name, documentID sha1 name, ownerID sha1 owner, 0, m.clock + 1⟩ :: m.rooms },
    .room m.created)

/-- The second locked section of `tryGet`. -/
def tryGet (name owner : Bytes) : Manager × Answer :=
  match m.find name with
  | some r => m.handOut sha1 r name owner
  | none =>
    if m.closed then (m, .closed)
    else if cfg.maxRooms > 0 ∧ m.rooms.length ≥ cfg.maxRooms then (m, .full m.byLeastRecentlyUsed)
    else if m.overBudget cfg then (m, .full m.byLeastRecentlyUsed)
    else m.start sha1 name owner

/-- `forget`, called by a room as it stops. -/
def forget (name : Bytes) (serial : ℕ) : Manager :=
  { m with rooms := m.rooms.filter fun r => ¬(r.name = name ∧ r.serial = serial) }

end Manager

/-- `strings.Trim(path, "/")`. -/
def trimSlashes (path : Bytes) : Bytes :=
  ((path.dropWhile (· = 0x2f)).reverse.dropWhile (· = 0x2f)).reverse

/-- The names the gateway admits: not empty, without a slash. -/
def Admissible (name : Bytes) : Prop := name ≠ [] ∧ 0x2f ∉ name

instance : DecidablePred Admissible := fun _ => inferInstanceAs (Decidable (_ ∧ _))

/-- One locked section, or one answer of the store. -/
inductive Step where
  /-- A request for `path` that acts for `owner`. -/
  | join (path owner : Bytes)
  /-- The store's answer to a call that found no room. -/
  | settle (name owner : Bytes) (found : Option UUID)
  /-- The second locked section of a call the store has answered. -/
  | open (name owner : Bytes)
  /-- The room stops, for any reason. -/
  | forget (name : Bytes) (serial : ℕ)
  /-- A room publishes its size. -/
  | measured (serial bytes : ℕ)
  /-- `Wait`. -/
  | wait

/-- The name a step brings in. -/
def Step.name? : Step → Option Bytes
  | .join path _ => some (trimSlashes path)
  | _ => none

namespace Manager

variable (sha1 : Sha1) (cfg : ManagerConfig)

/-- One section under the lock, or `Wait`. -/
def step (m : Manager) : Step → Manager
  | .join path owner =>
    let name := trimSlashes path
    if Admissible name then (m.resident sha1 name owner).1 else m
  | .settle name owner found => m.settleOwner sha1 cfg name owner found
  | .open name owner =>
    if (name, owner) ∈ m.settled then
      ({ m with settled := m.settled.erase (name, owner) }.tryGet sha1 cfg name owner).1
    else m
  | .forget name serial => m.forget name serial
  | .measured serial bytes =>
    { m with rooms := m.rooms.map fun r => if r.serial = serial then { r with bytes } else r }
  | .wait => { m with closed := true }

/-- The state after a sequence of steps. -/
def run (steps : List Step) : Manager := steps.foldl (step sha1 cfg) {}

/-- Two entries of the registry never have one document. -/
def NoShared (m : Manager) : Prop := ∀ r ∈ m.rooms, ∀ r' ∈ m.rooms, r.docID = r'.docID → r = r'

/-- What every run keeps: a room has the id of its name, and names are registered once. -/
structure Registered (names : Set Bytes) (m : Manager) : Prop where
  asking : ∀ c ∈ m.asking, c.1 ∈ names
  settled : ∀ c ∈ m.settled, c.1 ∈ names
  rooms : ∀ r ∈ m.rooms, r.name ∈ names ∧ r.docID = documentID sha1 r.name
  once : (m.rooms.map Resident.name).Nodup

variable {sha1} {cfg} {names : Set Bytes} {m : Manager}

namespace Registered

theorem map_rooms (h : Registered sha1 names m) {m' : Manager} {f : Resident → Resident}
    (ha : m'.asking = m.asking) (hs : m'.settled = m.settled) (hr : m'.rooms = m.rooms.map f)
    (hf : ∀ r, (f r).name = r.name ∧ (f r).docID = r.docID) : Registered sha1 names m' where
  asking := ha ▸ h.asking
  settled := hs ▸ h.settled
  rooms := by
    rw [hr]
    intro r hr'
    obtain ⟨r, hmem, rfl⟩ := List.mem_map.1 hr'
    rw [(hf r).1, (hf r).2]
    exact h.rooms r hmem
  once := by
    have hname : Resident.name ∘ f = Resident.name := funext fun r => (hf r).1
    rw [hr, List.map_map, hname]
    exact h.once

theorem touch (h : Registered sha1 names m) (name : Bytes) : Registered sha1 names (m.touch name) :=
  h.map_rooms rfl rfl rfl fun r => by split <;> exact ⟨rfl, rfl⟩

theorem handOut (h : Registered sha1 names m) (r : Resident) (name owner : Bytes) :
    Registered sha1 names (m.handOut sha1 r name owner).1 := by
  unfold Manager.handOut
  split
  · exact h
  · exact h.touch name

theorem start (h : Registered sha1 names m) {name owner : Bytes} (hname : name ∈ names)
    (hfree : m.find name = none) : Registered sha1 names (m.start sha1 name owner).1 where
  asking := h.asking
  settled := h.settled
  rooms := List.forall_mem_cons.2 ⟨⟨hname, rfl⟩, h.rooms⟩
  once := by
    refine List.nodup_cons.2 ⟨fun hmem => ?_, h.once⟩
    obtain ⟨r, hr, heq⟩ := List.mem_map.1 hmem
    have := List.find?_eq_none.1 hfree r hr
    simp [heq] at this

theorem tryGet (h : Registered sha1 names m) {name owner : Bytes} (hname : name ∈ names) :
    Registered sha1 names (m.tryGet sha1 cfg name owner).1 := by
  unfold Manager.tryGet
  split
  next r _ => exact h.handOut r name owner
  next hfree =>
    split
    · exact h
    · split
      · exact h
      · split
        · exact h
        · exact h.start hname hfree

theorem step (h : Registered sha1 names m) {s : Step} (hs : ∀ n ∈ s.name?, n ∈ names) :
    Registered sha1 names (m.step sha1 cfg s) := by
  cases s with
  | join path owner =>
    have hname := hs _ rfl
    simp only [Manager.step, resident]
    split
    · split
      next r _ => exact h.handOut r _ owner
      next => exact ⟨List.forall_mem_cons.2 ⟨hname, h.asking⟩, h.settled, h.rooms, h.once⟩
    · exact h
  | settle name owner found =>
    simp only [Manager.step, settleOwner]
    split
    next hmem =>
      have herase : ∀ c ∈ m.asking.erase (name, owner), c.1 ∈ names :=
        fun c hc => h.asking c (List.mem_of_mem_erase hc)
      split
      · exact ⟨herase, List.forall_mem_cons.2 ⟨h.asking _ hmem, h.settled⟩, h.rooms, h.once⟩
      · exact ⟨herase, h.settled, h.rooms, h.once⟩
    next => exact h
  | «open» name owner =>
    simp only [Manager.step]
    split
    next hmem =>
      have herased : Registered sha1 names { m with settled := m.settled.erase (name, owner) } :=
        ⟨h.asking, fun c hc => h.settled c (List.mem_of_mem_erase hc), h.rooms, h.once⟩
      exact herased.tryGet (h.settled _ hmem)
    next => exact h
  | forget name serial =>
    exact ⟨h.asking, h.settled, fun r hr => h.rooms r (List.mem_of_mem_filter hr),
      h.once.sublist (List.filter_sublist.map _)⟩
  | measured serial bytes =>
    exact h.map_rooms rfl rfl rfl fun r => by split <;> exact ⟨rfl, rfl⟩
  | wait => exact ⟨h.asking, h.settled, h.rooms, h.once⟩

theorem noShared (h : Registered sha1 names m) (hinj : Set.InjOn (documentID sha1) names) :
    m.NoShared := by
  intro r hr r' hr' hid
  obtain ⟨hn, hd⟩ := h.rooms r hr
  obtain ⟨hn', hd'⟩ := h.rooms r' hr'
  have hname : r.name = r'.name := hinj hn hn' (by rw [← hd, ← hd', hid])
  exact List.inj_on_of_nodup_map h.once hr hr' hname

end Registered

theorem registered_run {steps : List Step} (h : ∀ s ∈ steps, ∀ n ∈ s.name?, n ∈ names) :
    Registered sha1 names (run sha1 cfg steps) := by
  have hfold : ∀ (l : List Step) (m : Manager), Registered sha1 names m →
      (∀ s ∈ l, ∀ n ∈ s.name?, n ∈ names) → Registered sha1 names (l.foldl (step sha1 cfg) m) := by
    intro l
    induction l with
    | nil => exact fun m hm _ => hm
    | cons s l ih =>
      intro m hm hl
      obtain ⟨hs, hl⟩ := List.forall_mem_cons.1 hl
      exact ih _ (hm.step hs) hl
  exact hfold steps {} ⟨by simp, by simp, by simp, List.nodup_nil⟩ h

/-- A request for `name` by nobody's tenant and the sections that open its room. -/
def opening (name : Bytes) : List Step := [.join name [], .settle name [] none, .open name []]

end Manager

theorem trimSlashes_of_admissible {name : Bytes} (h : Admissible name) :
    trimSlashes name = name := by
  have hkeep : ∀ l : Bytes, 0x2f ∉ l → l.dropWhile (· = 0x2f) = l := by
    intro l hl
    cases l with
    | nil => rfl
    | cons c l =>
      have hc : c ≠ 0x2f := fun hc => hl (hc ▸ List.mem_cons_self ..)
      simp [List.dropWhile, hc]
  rw [trimSlashes, hkeep _ h.2, hkeep _ (by simpa using h.2), List.reverse_reverse]

namespace Manager

variable {sha1 : Sha1} {names : Set Bytes} {m : Manager}

variable (sha1) in
theorem opening_rooms {name : Bytes} (hname : Admissible name) (hopen : m.closed = false)
    (hfree : m.find name = none) : ∃ r,
      ((opening name).foldl (step sha1 {}) m).rooms = r :: m.rooms ∧
      r.name = name ∧ r.docID = documentID sha1 name ∧
      ((opening name).foldl (step sha1 {}) m).closed = false := by
  have hjoin : m.step sha1 {} (.join name []) =
      { m with asking := (name, []) :: m.asking } := by
    simp only [step, trimSlashes_of_admissible hname, if_pos hname, resident, hfree]
  have hsettle : ({ m with asking := (name, []) :: m.asking } : Manager).step sha1 {}
      (.settle name [] none) = { m with settled := (name, []) :: m.settled } := by
    simp [step, settleOwner]
  have hopens : ({ m with settled := (name, []) :: m.settled } : Manager).step sha1 {}
      (.open name []) = (m.start sha1 name []).1 := by
    have hget : m.tryGet sha1 {} name [] = m.start sha1 name [] := by
      simp [tryGet, hfree, hopen, overBudget]
    rw [← hget]
    simp [step]
  rw [opening, List.foldl_cons, List.foldl_cons, List.foldl_cons, List.foldl_nil, hjoin, hsettle,
    hopens]
  exact ⟨_, rfl, rfl, rfl, hopen⟩

/-- **A document has one room in every run exactly when the names of the run are told apart by
what they spell**, and then, equivalently, they have an id each. The hash is assumed to tell
them apart. -/
theorem one_room_per_document_iff (hadm : ∀ n ∈ names, Admissible n)
    (hsha : Set.InjOn (uuidV5 sha1 documentNamespace) names) :
    ((∀ cfg steps, (∀ s ∈ steps, ∀ n ∈ Step.name? s, n ∈ names) → (run sha1 cfg steps).NoShared) ↔
      Unambiguous sha1 names) ∧
    (Set.InjOn (documentID sha1) names ↔ Unambiguous sha1 names) := by
  refine ⟨⟨fun h => ?_, fun h cfg steps hsteps => ?_⟩, documentID_injOn_iff hsha⟩
  · rw [← documentID_injOn_iff hsha]
    intro a ha b hb hid
    by_contra hne
    -- the run that opens a room for each of the two names
    obtain ⟨ra, hra, hna, hda, hopen⟩ :=
      opening_rooms sha1 (m := {}) (hadm a ha) rfl rfl
    have hfree : ((opening a).foldl (step sha1 {}) {}).find b = none := by
      simp [find, hra, hna, hne]
    obtain ⟨rb, hrb, hnb, hdb, -⟩ := opening_rooms sha1 (hadm b hb) hopen hfree
    have hrun : (run sha1 {} (opening a ++ opening b)).rooms = [rb, ra] := by
      rw [run, List.foldl_append, hrb, hra]
    have hnames : ∀ s ∈ opening a ++ opening b, ∀ n ∈ Step.name? s, n ∈ names := by
      simp [opening, Step.name?, trimSlashes_of_admissible (hadm a ha),
        trimSlashes_of_admissible (hadm b hb), ha, hb]
    have hsame := h {} _ hnames ra (by simp [hrun]) rb (by simp [hrun]) (by rw [hda, hdb, hid])
    exact hne (by rw [← hna, ← hnb, hsame])
  · exact (registered_run hsteps).noShared ((documentID_injOn_iff hsha).2 h)

namespace Sample

/-- `f81d4fae-7dec-11d0-a765-00a0c91e6bf6`, the UUID of the source's comment. -/
def lowerName : Bytes :=
  groupText [0xf8, 0x1d, 0x4f, 0xae, 0x7d, 0xec, 0x11, 0xd0,
    0xa7, 0x65, 0x00, 0xa0, 0xc9, 0x1e, 0x6b, 0xf6]

/-- The same UUID in capitals. -/
def upperName : Bytes := lowerName.map fun c => if 0x61 ≤ c ∧ c ≤ 0x66 then c - 0x20 else c

/-- The name `notes`, which is hashed. -/
def notes : Bytes := [0x6e, 0x6f, 0x74, 0x65, 0x73]

/-- A digest that shows the name. -/
def shown : Sha1 := ⟨fun b => (b.drop 16 ++ List.replicate 20 0).take 20, by simp⟩

end Sample

open Sample

/-- The registry of a node that serves `notes` and one UUID, in lower case only. -/
theorem notes_have_one_room : Unambiguous shown {notes, lowerName} ∧
    ∀ cfg steps, (∀ s ∈ steps, ∀ n ∈ Step.name? s, n ∈ ({notes, lowerName} : Set Bytes)) →
      (run shown cfg steps).NoShared := by
  have hadm : ∀ n ∈ ({notes, lowerName} : Set Bytes), Admissible n := by
    rintro n (rfl | rfl) <;> decide
  have hsha : Set.InjOn (uuidV5 shown documentNamespace) {notes, lowerName} := by
    rintro a (rfl | rfl) b (rfl | rfl) h
    · rfl
    · exact absurd h (by decide)
    · exact absurd h (by decide)
    · rfl
  have hnames : Unambiguous shown {notes, lowerName} := by
    constructor
    · rintro a (rfl | rfl) b (rfl | rfl) <;> decide
    · rintro a (rfl | rfl) b (rfl | rfl) <;> decide
  exact ⟨hnames, (one_room_per_document_iff hadm hsha).1.2 hnames⟩

/-- **One UUID in two cases opens two rooms on one document**, whatever the hash is. -/
theorem cases_share_a_room : Admissible upperName ∧ Admissible lowerName ∧
    ∀ sha1 : Sha1, Set.InjOn (uuidV5 sha1 documentNamespace) {upperName, lowerName} →
      ¬(run sha1 {} (opening upperName ++ opening lowerName)).NoShared := by
  refine ⟨by decide, by decide, fun sha1 _ h => ?_⟩
  have hrooms : (run sha1 {} (opening upperName ++ opening lowerName)).rooms =
      [⟨1, lowerName, documentID sha1 lowerName, nilUUID, 0, 2⟩,
        ⟨0, upperName, documentID sha1 lowerName, nilUUID, 0, 1⟩] := rfl
  have hmem : ∀ r ∈ [_, _], r ∈ (run sha1 {} (opening upperName ++ opening lowerName)).rooms :=
    fun r hr => hrooms ▸ hr
  have hsame := h _ (hmem _ (List.mem_cons_self ..)) _
    (hmem _ (List.mem_cons_of_mem _ (List.mem_cons_self ..))) rfl
  exact Nat.one_ne_zero (congrArg Resident.serial hsame)

end Manager

end YCollab.Room
