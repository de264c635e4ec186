import Mathlib.Algebra.BigOperators.Group.Finset.Basic
import Mathlib.Algebra.BigOperators.Group.Finset.Piecewise
import Mathlib.Algebra.BigOperators.Ring.Finset
import Mathlib.Algebra.Order.BigOperators.Group.Finset
import Mathlib.Data.Fintype.BigOperators
import YCollab.Room.Fanout

/-!
# Rooms of one document on several nodes

Every node has its own room, and what one room publishes may reach the others: each envelope at most
once each room, late, in any order or not at all. A room drops the envelopes that carry the id of
its own node (`joinBus`).

`updates_do_not_multiply` bounds what a whole run publishes: an update once for each local update
that was accepted and once for each answer to a state vector, a cursor once for each local cursor
that was accepted and once for each connection, when it goes.
-/

namespace YCollab.Room

open Lib0 Crdt Protocol

/-- An envelope that has reached a room. -/
structure Delivery (ι : Type) where
  src : ι
  /-- The how-manieth envelope of `src` it is. -/
  index : ℕ
  dst : ι
  env : Envelope

/-- The rooms of one document, one for each node, and what has happened so far. -/
structure Cluster (ι : Type) where
  rooms : ι → Room
  /-- The envelopes that have been handled. -/
  delivered : List (Delivery ι) := []
  /-- The frames that were sent to local connections. -/
  frames : List (Conn × Bytes × Bool) := []
  /-- How many local updates and cursors a room has accepted. -/
  accepted : ι → Kind → ℕ := fun _ _ => 0
  /-- How many connections have joined a room. -/
  joins : ι → ℕ := fun _ => 0

namespace Cluster

/-- What happens next. -/
inductive Step (ι : Type) where
  /-- A room handles a command or a tick. -/
  | command (i : ι) (c : Command) (now : ℤ) (outcomes : List Bool)
  /-- An envelope of one room reaches another. -/
  | deliver (src : ι) (index : ℕ) (dst : ι) (now : ℤ) (outcomes : List Bool)

/-- The command makes somebody join. -/
def isJoin : Command → Bool
  | .join _ => true
  | _ => false

variable {ι : Type} [DecidableEq ι] (cfg : ι → Config)

/-- A room takes a turn. -/
def turn (c : Cluster ι) (i : ι) (input : Input) : Cluster ι :=
  let h := (c.rooms i).turn (cfg i) input
  { c with rooms := Function.update c.rooms i h.room, frames := c.frames ++ h.sends }

/-- The envelope does not get to `dst`: it is the node's own, it got there before, or the room has
stopped. -/
def Barred (c : Cluster ι) (src : ι) (index : ℕ) (dst : ι) (env : Envelope) : Prop :=
  env.origin = (cfg dst).nodeID ∨ (c.rooms dst).stopped = true ∨
    ∃ d ∈ c.delivered, d.src = src ∧ d.index = index ∧ d.dst = dst

instance (c : Cluster ι) (src : ι) (index : ℕ) (dst : ι) (env : Envelope) :
    Decidable (c.Barred cfg src index dst env) :=
  inferInstanceAs (Decidable (_ ∨ _ ∨ _))

/-- One step. -/
def step (c : Cluster ι) : Step ι → Cluster ι
  | .command i cmd now outcomes =>
    if (c.rooms i).stopped then c
    else
      { c.turn cfg i ⟨.command cmd, now, outcomes⟩ with
        accepted := fun j k => c.accepted j k +
          if j = i ∧ (c.rooms i).accepts now cmd = some k then 1 else 0
        joins := fun j => c.joins j + if j = i ∧ isJoin cmd then 1 else 0 }
  | .deliver src index dst now outcomes =>
    match (c.rooms src).published[index]? with
    | none => c
    | some env =>
      if c.Barred cfg src index dst env then c
      else
        { c.turn cfg dst ⟨.remote env, now, outcomes⟩ with
          delivered := ⟨src, index, dst, env⟩ :: c.delivered }

/-- The cluster after a sequence of steps. -/
def run (c : Cluster ι) (steps : List (Step ι)) : Cluster ι := steps.foldl (step cfg) c

/-- How many state vectors of `src` have been answered by `dst`. -/
def answered (c : Cluster ι) (src dst : ι) : ℕ :=
  c.delivered.countP fun d => d.src = src ∧ d.dst = dst ∧ d.env.kind = .stateVector

variable {cfg} {c : Cluster ι}

variable (cfg) in
theorem turn_published (c : Cluster ι) (i : ι) (input : Input) (j : ι) :
    ∃ l, ((c.turn cfg i input).rooms j).published = (c.rooms j).published ++ l ∧
      ∀ e ∈ l, e.origin = (cfg j).nodeID := by
  by_cases hj : j = i
  · subst hj
    simp only [turn, Function.update_self]
    exact (turn_emits (c.rooms j) input).grown
  · exact ⟨[], by simp [turn, hj], by simp⟩

theorem turn_getElem? {i j : ι} {input : Input} {n : ℕ} {env : Envelope}
    (h : (c.rooms j).published[n]? = some env) :
    ((c.turn cfg i input).rooms j).published[n]? = some env := by
  obtain ⟨l, hl, -⟩ := turn_published cfg c i input j
  rw [hl, List.getElem?_append_left (List.getElem?_eq_some_iff.1 h).1]
  exact h

variable (cfg) in
theorem turn_load (c : Cluster ι) (i : ι) (input : Input) (j : ι) (k : Kind) :
    ((c.turn cfg i input).rooms j).load k ≤
      (c.rooms j).load k + if j = i then (c.rooms i).allowance input k else 0 := by
  by_cases hj : j = i
  · subst hj
    have hemits : Emits (cfg j) (c.rooms j) _ _ := turn_emits (c.rooms j) input
    simpa [turn] using hemits.load k
  · simp [turn, hj]

theorem allowance_command (r : Room) (cmd : Command) (now : ℤ) (outcomes : List Bool) {k : Kind}
    (hk : k ≠ .stateVector) : r.allowance ⟨.command cmd, now, outcomes⟩ k ≤
      (if r.accepts now cmd = some k then 1 else 0) +
        if isJoin cmd ∧ k = .awareness then 1 else 0 := by
  cases cmd with
  | join conn =>
    by_cases hk' : k = .awareness
    · simp [allowance, isJoin, hk']
    · simp [allowance, Pi.single_eq_of_ne hk']
  | tick => simp [allowance, Pi.single_eq_of_ne hk]
  | _ =>
    simp only [allowance]
    generalize r.accepts now _ = o
    cases o with
    | none => simp
    | some k' =>
      by_cases hk' : k = k'
      · simp [hk']
      · simp [Pi.single_eq_of_ne hk']

/-- What holds in every run of what has been published and delivered. -/
structure Counted [Fintype ι] (cfg : ι → Config) (c : Cluster ι) : Prop where
  origin (i : ι) : ∀ e ∈ (c.rooms i).published, e.origin = (cfg i).nodeID
  delivered : ∀ d ∈ c.delivered, (c.rooms d.src).published[d.index]? = some d.env ∧
    d.env.origin ≠ (cfg d.dst).nodeID
  once : c.delivered.Pairwise fun d d' => ¬(d'.src = d.src ∧ d'.index = d.index ∧ d'.dst = d.dst)
  updates (i : ι) : (c.rooms i).load .update ≤ c.accepted i .update + ∑ j, c.answered j i
  awareness (i : ι) : (c.rooms i).load .awareness ≤ c.accepted i .awareness + c.joins i

variable [Fintype ι]

theorem Counted.of_fresh (hrooms : ∀ i, (c.rooms i).published = [] ∧ (c.rooms i).conns = [])
    (hnone : c.delivered = []) : c.Counted cfg where
  origin i := by simp [(hrooms i).1]
  delivered := by simp [hnone]
  once := by simp [hnone]
  updates i := by simp [load, count, (hrooms i).1]
  awareness i := by simp [load, count, (hrooms i).1, (hrooms i).2]

theorem Counted.turn_origin (h : c.Counted cfg) (i : ι) (input : Input) (j : ι) :
    ∀ e ∈ ((c.turn cfg i input).rooms j).published, e.origin = (cfg j).nodeID := by
  obtain ⟨l, hl, hid⟩ := turn_published cfg c i input j
  intro e he
  rw [hl] at he
  exact (List.mem_append.1 he).elim (h.origin j e) (hid e)

/-- A room handles a command. -/
theorem Counted.command (h : c.Counted cfg) (i : ι) (cmd : Command) (now : ℤ)
    (outcomes : List Bool) : (c.step cfg (.command i cmd now outcomes)).Counted cfg := by
  simp only [step]
  split
  · exact h
  refine ⟨h.turn_origin i _, fun d hd => ⟨turn_getElem? (h.delivered d hd).1, (h.delivered d hd).2⟩,
    h.once, fun j => ?_, fun j => ?_⟩
  · have hload := turn_load cfg c i ⟨.command cmd, now, outcomes⟩ j .update
    have hallow := allowance_command (c.rooms i) cmd now outcomes (k := .update) nofun
    have hold := h.updates j
    simp only [reduceCtorEq, and_false, if_false, Nat.add_zero] at hallow
    change _ ≤ c.accepted j .update + (if _ then 1 else 0) + ∑ j', c.answered j' j
    by_cases hj : j = i
    · simp only [hj, true_and, if_true] at hload hold ⊢
      omega
    · simp only [hj, false_and, if_false] at hload ⊢
      omega
  · have hload := turn_load cfg c i ⟨.command cmd, now, outcomes⟩ j .awareness
    have hallow := allowance_command (c.rooms i) cmd now outcomes (k := .awareness) nofun
    have hold := h.awareness j
    simp only [and_true] at hallow
    change _ ≤ c.accepted j .awareness + (if _ then 1 else 0) + (c.joins j + if _ then 1 else 0)
    by_cases hj : j = i
    · simp only [hj, true_and, if_true] at hload hold ⊢
      omega
    · simp only [hj, false_and, if_false] at hload ⊢
      omega

theorem answered_cons (c : Cluster ι) (d : Delivery ι) (dst : ι) :
    ∑ src, ({ c with delivered := d :: c.delivered } : Cluster ι).answered src dst =
      (∑ src, c.answered src dst) + if d.dst = dst ∧ d.env.kind = .stateVector then 1 else 0 := by
  have hcons : ∀ src, ({ c with delivered := d :: c.delivered } : Cluster ι).answered src dst =
      c.answered src dst +
        if d.src = src then (if d.dst = dst ∧ d.env.kind = .stateVector then 1 else 0) else 0 := by
    intro src
    simp only [answered, List.countP_cons, decide_eq_true_eq, ite_and]
  rw [Finset.sum_congr rfl fun src _ => hcons src, Finset.sum_add_distrib, Finset.sum_ite_eq,
    if_pos (Finset.mem_univ _)]

/-- An envelope reaches a room. -/
theorem Counted.deliver (h : c.Counted cfg) (src : ι) (index : ℕ) (dst : ι) (now : ℤ)
    (outcomes : List Bool) : (c.step cfg (.deliver src index dst now outcomes)).Counted cfg := by
  simp only [step]
  split
  · exact h
  next env henv =>
    split
    · exact h
    next hfree =>
      simp only [Barred, not_or, not_exists, not_and] at hfree
      obtain ⟨hother, -, hnew⟩ := hfree
      refine ⟨h.turn_origin dst _, fun d hd => ?_, ?_, fun j => ?_, fun j => ?_⟩
      · rcases List.mem_cons.1 hd with rfl | hd
        · exact ⟨turn_getElem? henv, hother⟩
        · exact ⟨turn_getElem? (h.delivered d hd).1, (h.delivered d hd).2⟩
      · exact List.pairwise_cons.2 ⟨fun d hd ⟨h₁, h₂, h₃⟩ => hnew d hd h₁ h₂ h₃, h.once⟩
      · have hload := turn_load cfg c dst ⟨.remote env, now, outcomes⟩ j .update
        have hold := h.updates j
        have hsum := answered_cons c ⟨src, index, dst, env⟩ j
        have hallow : (c.rooms dst).allowance ⟨.remote env, now, outcomes⟩ .update =
            if env.kind = .stateVector then 1 else 0 := by
          simp only [allowance]
          split <;> rfl
        rw [hallow] at hload
        change _ ≤ c.accepted j .update +
          ∑ j', ({ c with delivered := ⟨src, index, dst, env⟩ :: c.delivered } : Cluster ι).answered
            j' j
        rw [hsum]
        simp only [ite_and, eq_comm] at hload hold ⊢
        omega
      · have hload := turn_load cfg c dst ⟨.remote env, now, outcomes⟩ j .awareness
        have hold := h.awareness j
        have hzero : (c.rooms dst).allowance ⟨.remote env, now, outcomes⟩ .awareness = 0 := by
          simp only [allowance]
          split <;> rfl
        rw [hzero, ite_self] at hload
        exact hload.trans hold

theorem Counted.step (h : c.Counted cfg) (s : Step ι) : (c.step cfg s).Counted cfg := by
  cases s with
  | command i cmd now outcomes => exact h.command i cmd now outcomes
  | deliver src index dst now outcomes => exact h.deliver src index dst now outcomes

theorem Counted.run (h : c.Counted cfg) (steps : List (Step ι)) :
    (c.run cfg steps).Counted cfg := by
  induction steps generalizing c with
  | nil => exact h
  | cons s steps ih => exact ih (h.step s)

/-- Places of a list that all satisfy `p` are no more than there are. -/
theorem length_le_countP {α : Type} {p : α → Bool} {l : List α} {ns : List ℕ} (hns : ns.Nodup)
    (hp : ∀ n ∈ ns, ∃ a, l[n]? = some a ∧ p a) : ns.length ≤ l.countP p := by
  induction l using List.reverseRecOn generalizing ns with
  | nil =>
    cases ns with
    | nil => simp
    | cons n ns => simpa using hp n
  | append_singleton l a ih =>
    have herase := ih (hns.erase l.length) fun n hn => by
      obtain ⟨hne, hn⟩ := (hns.mem_erase_iff).1 hn
      obtain ⟨b, hb, hpb⟩ := hp n hn
      have hlt := (List.getElem?_eq_some_iff.1 hb).1
      rw [List.length_append, List.length_singleton] at hlt
      exact ⟨b, by rwa [List.getElem?_append_left (by omega)] at hb, hpb⟩
    rw [List.countP_append]
    by_cases hlast : l.length ∈ ns
    · obtain ⟨b, hb, hpb⟩ := hp _ hlast
      obtain rfl : a = b := by simpa using hb
      have hlen := List.length_erase_of_mem hlast
      rw [List.countP_singleton, if_pos hpb]
      omega
    · rw [List.erase_of_not_mem hlast] at herase
      omega

theorem Counted.answered_le (h : c.Counted cfg) (src dst : ι) :
    c.answered src dst ≤ (c.rooms src).count .stateVector := by
  rw [answered, List.countP_eq_length_filter, ← List.length_map Delivery.index]
  refine length_le_countP ?_ fun n hn => ?_
  · refine List.pairwise_map.2 (List.Pairwise.imp_of_mem ?_ (h.once.filter _))
    intro d d' hd hd' hne heq
    simp only [List.mem_filter, decide_eq_true_eq] at hd hd'
    exact hne ⟨hd'.2.1.trans hd.2.1.symm, heq.symm, hd'.2.2.1.trans hd.2.2.1.symm⟩
  · obtain ⟨d, hd, rfl⟩ := List.mem_map.1 hn
    simp only [List.mem_filter, decide_eq_true_eq] at hd
    obtain ⟨hd, rfl, -, hkind⟩ := hd
    exact ⟨d.env, (h.delivered d hd).1, by simpa using hkind⟩

theorem Counted.answered_self (h : c.Counted cfg) (i : ι) : c.answered i i = 0 := by
  refine List.countP_eq_zero.2 fun d hd => ?_
  simp only [decide_eq_true_eq, not_and]
  intro hsrc hdst
  obtain ⟨hpub, hother⟩ := h.delivered d hd
  rw [hdst, ← hsrc] at hother
  exact absurd (h.origin _ _ (List.mem_of_getElem? hpub)) hother

theorem Counted.sum_answered_le (h : c.Counted cfg) (src : ι) :
    ∑ dst, c.answered src dst ≤ (Fintype.card ι - 1) * (c.rooms src).count .stateVector := by
  rw [← Finset.sum_erase _ (h.answered_self src), ← Finset.card_univ,
    ← Finset.card_erase_of_mem (Finset.mem_univ src)]
  exact Finset.sum_le_card_nsmul _ _ _ fun dst _ => h.answered_le src dst

/-- **Updates neither circulate nor multiply.** -/
theorem updates_do_not_multiply {rooms : ι → Room}
    (hrooms : ∀ i, (rooms i).published = [] ∧ (rooms i).conns = []) (steps : List (Step ι)) :
    let c := run cfg ⟨rooms, [], [], fun _ _ => 0, fun _ => 0⟩ steps
    (∀ i env now outcomes, env.kind = .update ∨ env.kind = .awareness →
      ∀ e ∈ ((c.rooms i).turn (cfg i) ⟨.remote env, now, outcomes⟩).room.published.drop
          (c.rooms i).published.length,
        e.kind ≠ .update ∧ e.kind ≠ .stateVector) ∧
      ∑ i, (c.rooms i).count .update ≤
        ∑ i, c.accepted i .update + (Fintype.card ι - 1) * ∑ i, (c.rooms i).count .stateVector ∧
      ∑ i, (c.rooms i).count .awareness ≤ ∑ i, c.accepted i .awareness + ∑ i, c.joins i := by
  intro c
  have hc : c.Counted cfg := (Counted.of_fresh hrooms rfl).run steps
  refine ⟨fun i env now outcomes hkind e he => ?_, ?_, ?_⟩
  · have hpub := remote_publishes (c.rooms i) (by rcases hkind with h | h <;> simp [h]) now
      outcomes e he
    simp [hpub]
  · have hstep : ∑ i, (c.rooms i).count .update ≤
        ∑ i, (c.accepted i .update + ∑ j, c.answered j i) :=
      Finset.sum_le_sum fun i _ => hc.updates i
    rw [Finset.sum_add_distrib, Finset.sum_comm (f := fun i j => c.answered j i)] at hstep
    refine hstep.trans (Nat.add_le_add_left ?_ _)
    rw [Finset.mul_sum]
    exact Finset.sum_le_sum fun i _ => hc.sum_answered_le i
  · have hstep : ∑ i, (c.rooms i).count .awareness ≤ ∑ i, (c.accepted i .awareness + c.joins i) :=
      Finset.sum_le_sum fun i _ => (Nat.le_add_right _ _).trans (hc.awareness i)
    rwa [Finset.sum_add_distrib] at hstep

namespace Duet

/-- Two nodes. -/
def nodes (i : Bool) : Config := { bus := true, nodeID := i.toNat }

/-- A client that may write. -/
def ann : Conn := ⟨1, true⟩

/-- Ann joins one of the rooms and types a letter, which reaches the other. -/
def steps : List (Step Bool) :=
  [.command false (.join ann) 0 [],
    .command false (.frame ann (writeUpdate [1, 1, 1, 0, 4, 1, 1, 116, 1, 97, 0])) 0 [],
    .deliver false 0 true 0 []]

/-- What comes of it. -/
def after : Cluster Bool :=
  run nodes ⟨fun _ => Room.new {} 0, [], [], fun _ _ => 0, fun _ => 0⟩ steps

end Duet

/-- Ann's letter is published, once. -/
theorem letter_published_once : (Duet.after.delivered.length, (Duet.after.rooms true).doc.state 1) =
      (1, 1) ∧ ∑ i, (Duet.after.rooms i).count .update ≤ 1 := by
  refine ⟨by decide +kernel, ?_⟩
  have hbound : _ ∧ ∑ i, (Duet.after.rooms i).count .update ≤ _ ∧ _ :=
    updates_do_not_multiply (fun _ => ⟨rfl, rfl⟩) Duet.steps
  refine hbound.2.1.trans (le_of_eq ?_)
  decide +kernel

end Cluster

end YCollab.Room
