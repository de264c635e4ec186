import YCollab.Room.Eviction
import YCollab.Room.Node

/-!
# Rooms one after the other

A room that stops writes out everything it has recorded, and a room that starts reads everything
that is stored; so nothing is lost between the two if the second loads after the first is done.
The registry does not see to that: a room leaves it before it writes itself out, and the next one
may load at any time after.

`Apart` is the condition that a room loads only while no other writes. As long as it is met, what
was once recorded is held by the room that writes or, while none does, by the database (`Held`);
every step keeps that (`Held.step`).
-/

namespace YCollab.Room

open Lib0 Crdt Protocol Store

/-- The session of a room that may write. -/
def Stage.session : Stage → Option Session
  | .running s | .stopping s => some s
  | .loading | .done _ => none

namespace Node

variable {p : Storage} {limits : Limits} {cfg : Config} {n n' : Node} {a : Act} {j k : ℕ}
  {s t : Session} {doc : Doc}

/-- The session of room `k`, if it may write. -/
def session (n : Node) (k : ℕ) : Option Session := n.rooms[k]?.bind Stage.session

/-- No room writes. -/
def Quiet (n : Node) : Prop := ∀ stage ∈ n.rooms, stage.session.isNone

instance : Decidable n.Quiet := inferInstanceAs (Decidable (∀ stage ∈ n.rooms, _))

theorem quiet_iff : n.Quiet ↔ ∀ k, n.session k = none := by
  constructor
  · intro h k
    cases hk : n.rooms[k]? with
    | none => simp [session, hk]
    | some stage =>
      rw [session, hk]
      exact Option.isNone_iff_eq_none.1 (h stage (List.mem_of_getElem? hk))
  · intro h stage hmem
    obtain ⟨k, hk⟩ := List.getElem?_of_mem hmem
    have hnone := h k
    rw [session, hk] at hnone
    exact Option.isNone_iff_eq_none.2 hnone

/-- What has to hold of a step, in the state it happens in, for rooms to follow one another. -/
def Apart (p : Storage) (cfg : Config) (n : Node) : Act → Prop
  | .load .. => n.Quiet ∧ Session.Orderly p n.db
  | .act k a => ∀ s ∈ n.session k, Session.Fits p cfg { s with db := n.db } a
  | .outside db => n.db.Grows p.id db
  | .open | .finish _ => True

instance (n : Node) : ∀ a, Decidable (n.Apart p cfg a)
  | .load .. => inferInstanceAs (Decidable (_ ∧ _))
  | .act k a =>
    inferInstanceAs (Decidable (∀ s ∈ n.session k, Session.Fits p cfg { s with db := n.db } a))
  | .outside db => inferInstanceAs (Decidable (n.db.Grows p.id db))
  | .open | .finish _ => inferInstanceAs (Decidable True)

/-! ### What a step does to the sessions -/

theorem session_put {stage stage' : Stage} (hk : n.rooms[k]? = some stage') (j : ℕ) :
    (n.put k stage).session j = if j = k then stage.session else n.session j := by
  unfold session
  split
  next heq =>
    rw [heq, rooms_put hk]
    rfl
  next hne => rw [rooms_put_of_ne hne]

theorem session_of_work {s' : Session} {a : Action} (h : n.work p cfg s a = some s') :
    { s with db := n.db }.step p cfg a = some s' := by
  cases a with
  | elsewhere => cases h
  | _ => exact h

/-- What a step can do to the sessions. -/
inductive Turned (p : Storage) (limits : Limits) (cfg : Config) (n n' : Node) : Act → Prop where
  /-- No room has written. -/
  | same {a : Act} (hact : ∀ k a', a ≠ .act k a') (hdb : n'.db = n.db ∨ a = .outside n'.db)
      (h : ∀ j, n'.session j = n.session j) : Turned p limits cfg n n' a
  | loaded {k now : ℕ} {clock : ℤ} {s : Session}
      (hload : Session.load p limits n.db now clock = .ok s) (hdb : n'.db = s.db)
      (h : ∀ j, n'.session j = if j = k then some s else n.session j) :
      Turned p limits cfg n n' (.load k now clock)
  | worked {k : ℕ} {a : Action} {s s' : Session} (hk : n.session k = some s)
      (hstep : { s with db := n.db }.step p cfg a = some s') (hdb : n'.db = s'.db)
      (h : ∀ j, n'.session j = if j = k then some s' else n.session j) :
      Turned p limits cfg n n' (.act k a)
  | finished {k : ℕ} {s : Session} (hk : n.session k = some s) (hdone : s.writer.done = true)
      (hdb : n'.db = n.db) (h : ∀ j, n'.session j = if j = k then none else n.session j) :
      Turned p limits cfg n n' (.finish k)

theorem turned (h : n.step p limits cfg a = some n') : Turned p limits cfg n n' a := by
  cases stepped h with
  | «open» hnone =>
    refine .same nofun (.inl rfl) fun j => ?_
    simp only [session, List.getElem?_append]
    split
    · rfl
    next hle =>
      rw [List.getElem?_eq_none (Nat.not_lt.1 hle)]
      cases j - n.rooms.length <;> rfl
  | @loaded k now clock s hk hload => exact .loaded hload rfl (session_put hk)
  | @failed k now clock hk =>
    refine .same nofun (.inl rfl) fun j => (session_put hk j).trans ?_
    split
    next heq =>
      rw [heq, session, hk]
      rfl
    · rfl
  | @worked k a s s' hk hwork hrun =>
    exact .worked (by rw [session, hk]; rfl) (session_of_work hwork) rfl (session_put hk)
  | @stopped k a s s' hk hwork hstop =>
    exact .worked (by rw [session, hk]; rfl) (session_of_work hwork) rfl (session_put hk)
  | @wrote k a s s' hk hwork =>
    exact .worked (by rw [session, hk]; rfl) (session_of_work hwork) rfl (session_put hk)
  | @finished k s hk hdone =>
    exact .finished (by rw [session, hk]; rfl) hdone rfl (session_put hk)
  | outside => exact .same nofun (.inr rfl) fun _ => rfl

/-! ### What is held -/

/-- At most one room writes, and it has everything it may have to write. -/
structure Sequential (p : Storage) (n : Node) : Prop where
  one : ∀ {j k s t}, n.session j = some s → n.session k = some t → j = k
  lasting : ∀ {k s}, n.session k = some s → { s with db := n.db }.Lasting p

/-- The document is in the room that writes, or is given back by the database. -/
def Held (p : Storage) (n : Node) (doc : Doc) : Prop :=
  (∀ k s, n.session k = some s → s.marked.Contains doc) ∧
    (n.Quiet → Session.GivesBack p n.db doc)

theorem grows_of_same (hapart : n.Apart p cfg a) (h : n'.db = n.db ∨ a = .outside n'.db) :
    n.db.Grows p.id n'.db := by
  rcases h with h | rfl
  · rw [h]
    exact ⟨fun _ hd => hd, le_rfl, List.prefix_refl _⟩
  · exact hapart

theorem Sequential.step (h : n.Sequential p) (hstore : cfg.store = true)
    (hapart : n.Apart p cfg a) (hstep : n.step p limits cfg a = some n') : n'.Sequential p := by
  cases turned hstep with
  | same hact hdb hsame =>
    refine ⟨fun {j k s t} hj hk => ?_, fun {k s} hk => ?_⟩
    · exact h.one ((hsame j).symm.trans hj) ((hsame k).symm.trans hk)
    · exact (h.lasting ((hsame k).symm.trans hk)).grows (grows_of_same hapart hdb)
  | @loaded k now clock s hload hdb hput =>
    -- nobody else writes
    have honly : ∀ {j t}, n'.session j = some t → j = k ∧ t = s := by
      intro j t hj
      rw [hput j] at hj
      split at hj
      next heq => exact ⟨heq, (Option.some.inj hj).symm⟩
      · rw [quiet_iff.1 hapart.1 j] at hj
        cases hj
    refine ⟨fun hi hj => (honly hi).1.trans (honly hj).1.symm, fun hj => ?_⟩
    obtain ⟨-, rfl⟩ := honly hj
    rw [hdb]
    exact Session.lasting_load hapart.2 hload
  | @worked k a s s' hk hwork hdb hput =>
    have honly : ∀ {j t}, n'.session j = some t → j = k ∧ t = s' := by
      intro j t hj
      rw [hput j] at hj
      split at hj
      next heq => exact ⟨heq, (Option.some.inj hj).symm⟩
      next hne => exact absurd (h.one hj hk) hne
    refine ⟨fun hi hj => (honly hi).1.trans (honly hj).1.symm, fun hj => ?_⟩
    obtain ⟨-, rfl⟩ := honly hj
    rw [hdb]
    exact (h.lasting hk).step hstore (hapart s hk) hwork
  | @finished k s hk hdone hdb hput =>
    have hnone : ∀ j, n'.session j = none := by
      intro j
      rw [hput j]
      split
      · rfl
      next hne =>
        cases hj : n.session j with
        | none => rfl
        | some t => exact absurd (h.one hj hk) hne
    refine ⟨fun {j k s t} hj => ?_, fun {j s} hj => ?_⟩ <;>
    · rw [hnone j] at hj
      cases hj

/-- **What is held stays held.** -/
theorem Held.step (h : n.Held p doc) (hseq : n.Sequential p) (hapart : n.Apart p cfg a)
    (hstep : n.step p limits cfg a = some n') : n'.Held p doc := by
  cases turned hstep with
  | same hact hdb hsame =>
    refine ⟨fun k s hk => h.1 k s ((hsame k).symm.trans hk), fun hquiet => ?_⟩
    have hbefore : n.Quiet := quiet_iff.2 fun k => (hsame k).symm.trans (quiet_iff.1 hquiet k)
    exact (h.2 hbefore).grows (grows_of_same hapart hdb)
  | @loaded k now clock s hload hdb hput =>
    -- the room has loaded what the database gives back
    have hloaded : s.marked.Contains doc := (h.2 hapart.1).of_load hload
    refine ⟨fun j t hj => ?_, fun hquiet => ?_⟩
    · rw [hput j] at hj
      split at hj
      · cases hj
        exact hloaded
      · exact h.1 j t hj
    · have hnone := quiet_iff.1 hquiet k
      rw [hput k, if_pos rfl] at hnone
      cases hnone
  | @worked k a s s' hk hwork hdb hput =>
    refine ⟨fun j t hj => ?_, fun hquiet => ?_⟩
    · rw [hput j] at hj
      split at hj
      · cases hj
        exact ((hseq.lasting hk).marked_mono (hapart s hk) hwork).trans (h.1 k s hk)
      · exact h.1 j t hj
    · have hnone := quiet_iff.1 hquiet k
      rw [hput k, if_pos rfl] at hnone
      cases hnone
  | @finished k s hk hdone hdb hput =>
    refine ⟨fun j t hj => ?_, fun _ => ?_⟩
    · rw [hput j] at hj
      split at hj
      · cases hj
      · exact h.1 j t hj
    · obtain ⟨d, snapshot, d', hd, hread, hrestore, hcontains⟩ := (hseq.lasting hk).givesBack hdone
      rw [hdb]
      exact ⟨d, snapshot, d', hd, hread, hrestore, hcontains.trans (h.1 k s hk)⟩

/-- What a room has just recorded is held. -/
theorem held_of_recorded (hseq : n.Sequential p) {i : Input} {b : Bytes} (hk : n.session k = some s)
    (hstep : n.step p limits cfg (.act k (.turn i)) = some n')
    (hrecorded : (s.room.turn cfg i).room.recorded = s.room.recorded ++ [b]) :
    n'.Held p (s.room.turn cfg i).room.doc := by
  cases turned hstep with
  | same hact hdb hsame => exact absurd rfl (hact _ _)
  | @worked k a s₀ s' hk₀ hwork hdb hput =>
    obtain rfl : s₀ = s := Option.some.inj (hk₀.symm.trans hk)
    cases Session.stepped hwork
    have hmarked : ({ s₀ with db := n.db }.turn cfg i).marked = (s₀.room.turn cfg i).room.doc := by
      rw [Session.turn_of_recorded_append (s := { s₀ with db := n.db }) hrecorded]
    refine ⟨fun j t hj => ?_, fun hquiet => ?_⟩
    · rw [hput j] at hj
      split at hj
      · cases hj
        rw [hmarked]
        exact .refl _
      next hne => exact absurd (hseq.one hj hk) hne
    · have hnone := quiet_iff.1 hquiet k
      rw [hput k, if_pos rfl] at hnone
      cases hnone

end Node

end YCollab.Room
