import YCollab.Room.Writer

/-!
# The rooms of one document on one node

`internal/room/registry.go` and `stop` in `room.go`: at most one room is registered under a name,
but a room leaves the registry before it has written itself out. So a document may have, next to
the room that is registered, any number of older rooms that are still writing. A `Node` has all of
them in the order they were created, over one database; each is a `Session`, and their actions
interleave in any way.

What is kept under the name is one field: which room is registered. `Manager` models the registry
for all names, and how a name and an owner lead to a room.
-/

namespace YCollab.Room

open Lib0 Crdt Protocol Store

/-- Where a room is in its life. -/
inductive Stage where
  /-- It is registered, and `Run` has not loaded the document yet. -/
  | loading
  /-- It takes commands. -/
  | running (s : Session)
  /-- `stop` has taken it out of the registry and waits for the writer. -/
  | stopping (s : Session)
  /-- The channel `done` is closed. There is no session if the load has failed. -/
  | done (s : Option Session)

/-- The room takes commands, or will. -/
def Stage.Live : Stage → Prop
  | .loading | .running _ => True
  | .stopping _ | .done _ => False

/-- The rooms of one document, first to last, and the database. A session's own copy of the
database is not read. -/
structure Node where
  db : Database
  rooms : List Stage := []
  /-- The room that is registered. -/
  registered : Option ℕ := none

namespace Node

/-- What happens on a node. -/
inductive Act where
  /-- `tryGet` finds no room under the name and starts one. -/
  | open
  /-- `Run` loads the document. -/
  | load (k : ℕ) (now : ℕ) (clock : ℤ)
  /-- A room takes a turn, or its writer does something. -/
  | act (k : ℕ) (a : Action)
  /-- The writer is done, and `stop` closes `done`. -/
  | finish (k : ℕ)
  /-- Somebody else changes the database. -/
  | outside (db : Database)

variable (p : Storage) (limits : Limits) (cfg : Config) (n : Node)

/-- The room is in another stage now. -/
def put (k : ℕ) (stage : Stage) : Node := { n with rooms := n.rooms.set k stage }

/-- `forget`, called by a room as it stops. -/
def forget (k : ℕ) : Node :=
  { n with registered := if n.registered = some k then none else n.registered }

/-- What a room or its writer does to the database. -/
def work (s : Session) : Action → Option Session
  | .elsewhere .. => none
  | a => { s with db := n.db }.step p cfg a

/-- One step, if it can happen. -/
def step : Act → Option Node
  | .open =>
    if n.registered = none then
      some { n with rooms := n.rooms ++ [.loading], registered := some n.rooms.length }
    else none
  | .load k now clock =>
    match n.rooms[k]? with
    | some .loading =>
      match Session.load p limits n.db now clock with
      | .ok s => some { n.put k (.running s) with db := s.db }
      | .error _ => some ((n.put k (.done none)).forget k)
    | _ => none
  | .act k a =>
    match n.rooms[k]? with
    | some (.running s) => (n.work p cfg s a).map fun s' =>
        if s'.room.stopped then { (n.put k (.stopping s')).forget k with db := s'.db }
        else { n.put k (.running s') with db := s'.db }
    | some (.stopping s) => (n.work p cfg s a).map fun s' =>
        { n.put k (.stopping s') with db := s'.db }
    | _ => none
  | .finish k =>
    match n.rooms[k]? with
    | some (.stopping s) => if s.writer.done then some (n.put k (.done (some s))) else none
    | _ => none
  | .outside db => some { n with db }

/-! ### What a step can do -/

variable {p limits cfg n} {n' : Node} {k j : ℕ} {stage : Stage} {a : Act}

/-- What a step can do. -/
inductive Stepped (p : Storage) (limits : Limits) (cfg : Config) (n : Node) :
    Act → Node → Prop where
  | open (hnone : n.registered = none) : Stepped p limits cfg n .open
      { n with rooms := n.rooms ++ [.loading], registered := some n.rooms.length }
  | loaded {k now : ℕ} {clock : ℤ} {s : Session} (hk : n.rooms[k]? = some .loading)
      (hload : Session.load p limits n.db now clock = .ok s) :
      Stepped p limits cfg n (.load k now clock) { n.put k (.running s) with db := s.db }
  | failed {k now : ℕ} {clock : ℤ} (hk : n.rooms[k]? = some .loading) :
      Stepped p limits cfg n (.load k now clock) ((n.put k (.done none)).forget k)
  | worked {k : ℕ} {a : Action} {s s' : Session} (hk : n.rooms[k]? = some (.running s))
      (hwork : n.work p cfg s a = some s') (hrun : s'.room.stopped = false) :
      Stepped p limits cfg n (.act k a) { n.put k (.running s') with db := s'.db }
  | stopped {k : ℕ} {a : Action} {s s' : Session} (hk : n.rooms[k]? = some (.running s))
      (hwork : n.work p cfg s a = some s') (hstop : s'.room.stopped = true) :
      Stepped p limits cfg n (.act k a) { (n.put k (.stopping s')).forget k with db := s'.db }
  | wrote {k : ℕ} {a : Action} {s s' : Session} (hk : n.rooms[k]? = some (.stopping s))
      (hwork : n.work p cfg s a = some s') :
      Stepped p limits cfg n (.act k a) { n.put k (.stopping s') with db := s'.db }
  | finished {k : ℕ} {s : Session} (hk : n.rooms[k]? = some (.stopping s))
      (hdone : s.writer.done = true) :
      Stepped p limits cfg n (.finish k) (n.put k (.done (some s)))
  | outside {db : Database} : Stepped p limits cfg n (.outside db) { n with db }

theorem stepped (h : n.step p limits cfg a = some n') : Stepped p limits cfg n a n' := by
  cases a with
  | «open» =>
    simp only [step] at h
    split at h
    next hnone =>
      cases h
      exact .open hnone
    · cases h
  | load k now clock =>
    simp only [step] at h
    split at h
    next hk =>
      split at h
      next s hload =>
        cases h
        exact .loaded hk hload
      · cases h
        exact .failed hk
    · cases h
  | act k a =>
    simp only [step] at h
    split at h
    next s hk =>
      obtain ⟨s', hwork, heq⟩ := Option.map_eq_some_iff.1 h
      split at heq
      next hstop =>
        cases heq
        exact .stopped hk hwork hstop
      next hrun =>
        cases heq
        exact .worked hk hwork (by simpa using hrun)
    next s hk =>
      obtain ⟨s', hwork, heq⟩ := Option.map_eq_some_iff.1 h
      cases heq
      exact .wrote hk hwork
    · cases h
  | finish k =>
    simp only [step] at h
    split at h
    next s hk =>
      split at h
      next hdone =>
        cases h
        exact .finished hk hdone
      · cases h
    · cases h
  | outside db =>
    cases h
    exact .outside

theorem act_of_done {s : Option Session} (hk : n.rooms[k]? = some (.done s)) (a : Action) :
    n.step p limits cfg (.act k a) = none := by
  simp only [step, hk]

/-! ### The rooms -/

theorem rooms_put_of_ne (h : j ≠ k) : (n.put k stage).rooms[j]? = n.rooms[j]? := by
  simp [put, h.symm]

theorem rooms_put {stage' : Stage} (h : n.rooms[k]? = some stage') :
    (n.put k stage).rooms[k]? = some stage := by
  have hlt : k < n.rooms.length := (List.getElem?_eq_some_iff.1 h).1
  simp [put, hlt]

@[simp] theorem rooms_forget : (n.forget k).rooms = n.rooms := rfl

theorem rooms_of_step (h : n.step p limits cfg a = some n') :
    n'.rooms = n.rooms ∨ n'.rooms = n.rooms ++ [.loading] ∨
      ∃ k stage stage', n.rooms[k]? = some stage ∧ (∀ s, stage ≠ .done s) ∧
        n'.rooms = n.rooms.set k stage' := by
  cases stepped h with
  | «open» hnone => exact .inr (.inl rfl)
  | @loaded k now clock s hk hload =>
    exact .inr (.inr ⟨k, .loading, .running s, hk, fun _ h => Stage.noConfusion h, rfl⟩)
  | @failed k now clock hk =>
    exact .inr (.inr ⟨k, .loading, .done none, hk, fun _ h => Stage.noConfusion h, rfl⟩)
  | @worked k a s s' hk hwork hrun =>
    exact .inr (.inr ⟨k, .running s, .running s', hk, fun _ h => Stage.noConfusion h, rfl⟩)
  | @stopped k a s s' hk hwork hstop =>
    exact .inr (.inr ⟨k, .running s, .stopping s', hk, fun _ h => Stage.noConfusion h, rfl⟩)
  | @wrote k a s s' hk hwork =>
    exact .inr (.inr ⟨k, .stopping s, .stopping s', hk, fun _ h => Stage.noConfusion h, rfl⟩)
  | @finished k s hk hdone =>
    exact .inr (.inr ⟨k, .stopping s, .done (some s), hk, fun _ h => Stage.noConfusion h, rfl⟩)
  | outside => exact .inl rfl

theorem done_of_step {s : Option Session} (h : n.step p limits cfg a = some n')
    (hj : n.rooms[j]? = some (.done s)) : n'.rooms[j]? = some (.done s) := by
  have hlt : j < n.rooms.length := (List.getElem?_eq_some_iff.1 hj).1
  obtain heq | heq | ⟨k, stage, stage', hk, hnot, heq⟩ := rooms_of_step h <;> rw [heq]
  · exact hj
  · rw [List.getElem?_append_left hlt]
    exact hj
  · have hne : k ≠ j := by
      rintro rfl
      rw [hj] at hk
      cases hk
      exact hnot s rfl
    rw [List.getElem?_set_ne hne]
    exact hj

theorem length_of_step (h : n.step p limits cfg a = some n') :
    n.rooms.length ≤ n'.rooms.length := by
  obtain heq | heq | ⟨k, stage, stage', -, -, heq⟩ := rooms_of_step h <;> rw [heq]
  · simp
  · rw [List.length_set]

/-- A room that loads or takes commands is the one that is registered. -/
def Registered (n : Node) : Prop :=
  ∀ k stage, n.rooms[k]? = some stage → stage.Live → n.registered = some k

theorem Registered.put (h : n.Registered) {stage' : Stage} (hk : n.rooms[k]? = some stage')
    (hlive : stage.Live → stage'.Live) : (n.put k stage).Registered := by
  intro j stage₁ hj hlive₁
  by_cases hjk : j = k
  · subst hjk
    rw [rooms_put hk] at hj
    cases hj
    exact h j stage' hk (hlive hlive₁)
  · rw [rooms_put_of_ne hjk] at hj
    exact h j stage₁ hj hlive₁

theorem Registered.forget (h : n.Registered) (hk : n.rooms[k]? = some stage) (hnot : ¬stage.Live) :
    (n.forget k).Registered := by
  intro j stage₁ hj hlive₁
  have hreg : n.registered = some j := h j stage₁ hj hlive₁
  have hne : n.registered ≠ some k := by
    rintro heq
    obtain rfl : j = k := Option.some.inj (hreg.symm.trans heq)
    rw [rooms_forget, hk] at hj
    cases hj
    exact hnot hlive₁
  rw [Node.forget, if_neg hne]
  exact hreg

theorem Registered.step (h : n.Registered) (hstep : n.step p limits cfg a = some n') :
    n'.Registered := by
  cases stepped hstep with
  | «open» hnone =>
    intro j stage hj hlive
    by_cases hlt : j < n.rooms.length
    · rw [List.getElem?_append_left hlt] at hj
      cases hnone.symm.trans (h j stage hj hlive)
    · have hle : j < n.rooms.length + 1 := by
        simpa using (List.getElem?_eq_some_iff.1 hj).1
      rw [show n.rooms.length = j by omega]
  | loaded hk hload => exact h.put hk id
  | @failed k now clock hk =>
    have hput : (n.put k (.done none)).Registered := h.put hk False.elim
    exact hput.forget (rooms_put hk) id
  | worked hk hwork hrun => exact h.put hk id
  | @stopped k a s s' hk hwork hstop =>
    have hput : (n.put k (.stopping s')).Registered := h.put hk False.elim
    exact hput.forget (rooms_put hk) id
  | wrote hk hwork => exact h.put hk id
  | finished hk hdone => exact h.put hk id
  | outside => exact h

end Node

end YCollab.Room
