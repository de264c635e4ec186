import YCollab.Data.Machine
import YCollab.Room.Absorbed
import YCollab.Room.Node

/-!
# What `Evict` promises

`Manager.Evict` looks the name up, asks the room it finds to stop, and waits until that room has
written itself out; if no room is registered it returns at once. Its callers delete the document
afterwards, or give it to another owner, so no room that was there before should write any more.

A room that is stopping has left the registry and is still writing. `evicted_room_is_done` says
that the promise is kept if there is no such room at the time of the look-up;
`stopping_room_writes_on` is what happens otherwise.
-/

namespace YCollab.Room

open Lib0 Crdt Protocol Store

/-- How far a call of `Evict` has come. -/
inductive EvictProgress where
  /-- The name has not been looked up yet. -/
  | called
  /-- `EvictIfIdle` has sent the command to room `k`. -/
  | asked (k : ℕ)
  /-- The room has answered. -/
  | answered (k : ℕ) (yes : Bool)
  /-- `Evict` waits for the room's `done`. -/
  | waiting (k : ℕ)
  | returned (out : Bool)
  deriving DecidableEq

/-- A call of `Evict`. -/
structure EvictCall where
  /-- How many rooms had been created when it began. -/
  before : ℕ
  progress : EvictProgress := .called

/-- The rooms of one document, and the calls of `Evict` with its name. -/
structure Evicting where
  node : Node
  calls : List EvictCall := []

namespace Evicting

/-- What happens. -/
inductive Act where
  | node (a : Node.Act)
  /-- A call begins. -/
  | call
  /-- A call looks the name up. -/
  | look (c : ℕ)
  /-- The room handles the command of a call. -/
  | handle (c : ℕ) (now : ℤ) (outcomes : List Bool)
  /-- A call reads the room's answer. -/
  | reply (c : ℕ)
  /-- A call finds the room gone: the mailbox is closed, or `done` is. -/
  | gone (c : ℕ)
  /-- A call sees the end of the room it has waited for. -/
  | finished (c : ℕ)

variable (p : Storage) (limits : Limits) (cfg : Config) (e : Evicting)

/-- A call goes on. -/
def put (c : ℕ) (call : EvictCall) (progress : EvictProgress) : Evicting :=
  { e with calls := e.calls.set c { call with progress } }

/-- What room `k` answers to the command. -/
def answer (k : ℕ) (i : Input) : Bool :=
  match e.node.rooms[k]? with
  | some (.running s) => ((s.room.turn cfg i).reply matches some (.evicted true))
  | _ => false

/-- The channel `done` of room `k` is closed. -/
def Over (k : ℕ) : Prop := (e.node.rooms[k]?).any (· matches .done _)

instance (k : ℕ) : Decidable (e.Over k) := inferInstanceAs (Decidable (_ = true))

/-- One step, if it can happen. -/
def step : Act → Option Evicting
  | .node a => (e.node.step p limits cfg a).map fun node => { e with node }
  | .call => some { e with calls := e.calls ++ [{ before := e.node.rooms.length }] }
  | .look c =>
    match e.calls[c]? with
    | some ⟨before, .called⟩ =>
      match e.node.registered with
      | some k => some (e.put c ⟨before, .called⟩ (.asked k))
      | none => some (e.put c ⟨before, .called⟩ (.returned true))
    | _ => none
  | .handle c now outcomes =>
    match e.calls[c]? with
    | some ⟨before, .asked k⟩ =>
      let i : Input := ⟨.command .evict, now, outcomes⟩
      (e.node.step p limits cfg (.act k (.turn i))).map fun node =>
        { e.put c ⟨before, .asked k⟩ (.answered k (e.answer cfg k i)) with node }
    | _ => none
  | .reply c =>
    match e.calls[c]? with
    | some ⟨before, .answered k yes⟩ =>
      some (e.put c ⟨before, .answered k yes⟩ (if yes then .waiting k else .returned false))
    | _ => none
  | .gone c =>
    match e.calls[c]? with
    | some ⟨before, .asked k⟩ =>
      if e.Over k then some (e.put c ⟨before, .asked k⟩ (.waiting k)) else none
    | some ⟨before, .answered k yes⟩ =>
      -- the answer and the end are both there, and `select` takes either
      if e.Over k then some (e.put c ⟨before, .answered k yes⟩ (.waiting k)) else none
    | _ => none
  | .finished c =>
    match e.calls[c]? with
    | some ⟨before, .waiting k⟩ =>
      if e.Over k then some (e.put c ⟨before, .waiting k⟩ (.returned true)) else none
    | _ => none

/-- The state after a list of steps, if they can happen. -/
def run (e : Evicting) (l : List Act) : Option Evicting := Machine.run (step p limits cfg) e l

/-- No room that was created before the call is stopping when the name is looked up. -/
def Settled (e : Evicting) : Act → Prop
  | .look c => ∀ call ∈ e.calls[c]?, ∀ k < call.before,
      ¬(e.node.rooms[k]?).any (· matches .stopping _)
  | _ => True

instance (e : Evicting) : ∀ a, Decidable (e.Settled a)
  | .look c => inferInstanceAs (Decidable (∀ call ∈ e.calls[c]?, _))
  | .node _ | .call | .handle .. | .reply _ | .gone _ | .finished _ =>
    inferInstanceAs (Decidable True)

/-! ### What a call knows -/

variable {p limits cfg e} {e' : Evicting} {c k : ℕ} {call : EvictCall} {a : Act}

/-- The rooms that a call can still be waiting for. -/
def EvictProgress.target : EvictProgress → Set ℕ
  | .called | .returned false => Set.univ
  | .asked k | .answered k _ | .waiting k => {k}
  | .returned true => ∅

/-- Every room that was there before the call is done, but for the one it waits for. -/
def Clears (node : Node) (call : EvictCall) : Prop :=
  call.before ≤ node.rooms.length ∧
    ∀ k < call.before, k ∉ EvictProgress.target call.progress →
      ∃ s, node.rooms[k]? = some (.done s)

/-- What holds of the calls. -/
structure Clear (e : Evicting) : Prop where
  registered : e.node.Registered
  clears : ∀ call ∈ e.calls, Clears e.node call

theorem over_iff : e.Over k ↔ ∃ s, e.node.rooms[k]? = some (.done s) := by
  unfold Over
  cases h : e.node.rooms[k]? with
  | none => simp
  | some stage => cases stage <;> simp

theorem Clears.step {node node' : Node} {a : Node.Act} (h : Clears node call)
    (hstep : node.step p limits cfg a = some node') : Clears node' call := by
  refine ⟨h.1.trans (Node.length_of_step hstep), fun k hk hnot => ?_⟩
  obtain ⟨s, hs⟩ := h.2 k hk hnot
  exact ⟨s, Node.done_of_step hstep hs⟩

theorem Clear.node (h : e.Clear) {node : Node} {a : Node.Act}
    (hstep : e.node.step p limits cfg a = some node) : { e with node }.Clear :=
  ⟨h.registered.step hstep, fun call hcall => (h.clears call hcall).step hstep⟩

theorem Clear.put (h : e.Clear) (hc : e.calls[c]? = some call) {progress : EvictProgress}
    (hclears : ∀ k < call.before, k ∈ EvictProgress.target call.progress →
      k ∉ EvictProgress.target progress → ∃ s, e.node.rooms[k]? = some (.done s)) :
    (e.put c call progress).Clear := by
  refine ⟨h.registered, fun call' hmem => ?_⟩
  rcases List.mem_or_eq_of_mem_set hmem with hmem | rfl
  · exact h.clears call' hmem
  · have hcall := h.clears call (List.mem_of_getElem? hc)
    refine ⟨hcall.1, fun k hk hnot => ?_⟩
    by_cases htarget : k ∈ EvictProgress.target call.progress
    · exact hclears k hk htarget hnot
    · exact hcall.2 k hk htarget

theorem Clear.look (h : e.Clear) (hc : e.calls[c]? = some call) (hsettled : e.Settled (.look c))
    (hk : k < call.before) (hne : e.node.registered ≠ some k) :
    ∃ s, e.node.rooms[k]? = some (.done s) := by
  have hlt : k < e.node.rooms.length := hk.trans_le (h.clears call (List.mem_of_getElem? hc)).1
  obtain ⟨stage, hstage⟩ : ∃ stage, e.node.rooms[k]? = some stage :=
    ⟨_, List.getElem?_eq_getElem hlt⟩
  cases stage with
  | loading => exact absurd (h.registered k _ hstage trivial) hne
  | running s => exact absurd (h.registered k _ hstage trivial) hne
  | stopping s =>
    have hnot := hsettled call hc k hk
    rw [hstage] at hnot
    exact absurd rfl hnot
  | done s => exact ⟨s, hstage⟩

theorem Clear.step (h : e.Clear) (hsettled : e.Settled a)
    (hstep : e.step p limits cfg a = some e') : e'.Clear := by
  cases a with
  | node a =>
    obtain ⟨node, hnode, rfl⟩ := Option.map_eq_some_iff.1 hstep
    exact h.node hnode
  | call =>
    cases hstep
    refine ⟨h.registered, fun call hmem => ?_⟩
    rcases List.mem_append.1 hmem with hmem | hmem
    · exact h.clears call hmem
    · obtain rfl := List.mem_singleton.1 hmem
      exact ⟨le_rfl, fun k _ hnot => absurd trivial hnot⟩
  | look c =>
    simp only [Evicting.step] at hstep
    split at hstep
    next before hc =>
      split at hstep
      next k hreg =>
        cases hstep
        refine h.put hc fun j hj _ hnot => h.look hc hsettled hj ?_
        rw [hreg]
        exact fun heq => hnot (Option.some.inj heq).symm
      next hreg =>
        cases hstep
        exact h.put hc fun j hj _ _ => h.look hc hsettled hj (by rw [hreg]; nofun)
    · cases hstep
  | handle c now outcomes =>
    simp only [Evicting.step] at hstep
    split at hstep
    next before k hc =>
      obtain ⟨node, hnode, rfl⟩ := Option.map_eq_some_iff.1 hstep
      have hput : (e.put c ⟨before, .asked k⟩ (.answered k (e.answer cfg k
          ⟨.command .evict, now, outcomes⟩))).Clear := h.put hc fun j _ hj hnot => absurd hj hnot
      exact hput.node hnode
    · cases hstep
  | reply c =>
    simp only [Evicting.step] at hstep
    split at hstep
    next before k yes hc =>
      cases hstep
      refine h.put hc fun j _ hj hnot => absurd ?_ hnot
      cases yes with
      | true => exact hj
      | false => trivial
    · cases hstep
  | gone c =>
    simp only [Evicting.step] at hstep
    split at hstep
    next before k hc =>
      split at hstep
      · cases hstep
        exact h.put hc fun j _ hj hnot => absurd hj hnot
      · cases hstep
    next before k yes hc =>
      split at hstep
      · cases hstep
        exact h.put hc fun j _ hj hnot => absurd hj hnot
      · cases hstep
    · cases hstep
  | finished c =>
    simp only [Evicting.step] at hstep
    split at hstep
    next before k hc =>
      split at hstep
      next hover =>
        cases hstep
        refine h.put hc fun j _ hj _ => ?_
        obtain rfl : j = k := hj
        exact over_iff.1 hover
      · cases hstep
    · cases hstep

/-- **A document that `Evict` reports as out of memory is out of this node's hands**: if no room
that was there before the call was stopping when the name was looked up, none of them does anything
any more. -/
theorem evicted_room_is_done {db : Database} {l : List Act}
    (hsettled : Machine.Along (step p limits cfg) Settled { node := { db } } l)
    (hrun : run p limits cfg { node := { db } } l = some e) (hcall : call ∈ e.calls)
    (hout : call.progress = .returned true) (hk : k < call.before) (a : Action) :
    e.node.step p limits cfg (.act k a) = none := by
  have hinit : Clear { node := { db } } := ⟨fun k stage h => (by cases h), nofun⟩
  have hclear : e.Clear :=
    Machine.invariant (fun h hs hstep => h.step hs hstep) hinit hsettled hrun
  obtain ⟨s, hs⟩ := (hclear.clears call hcall).2 k hk (by rw [hout]; exact id)
  exact Node.act_of_done hs a

open Session.Visit

/-- The first room of the document stops on command and writes itself out. -/
def writesOut : List Node.Act :=
  [.act 0 (.take 0 .ok .ok), .act 0 (.compact 0 .ok), .act 0 (.exit 0 .ok), .finish 0]

/-- A room is open, and `Evict` waits for its end. -/
def patient : List Act :=
  [.node .open, .node (.load 0 0 0), .call, .look 0, .handle 0 0 []] ++ writesOut.map .node ++
    [.reply 0, .finished 0]

/-- The call returns when the room has written itself out. -/
theorem patient_evict_returns : ∃ e,
    run place {} config { node := { db := stored letter } } patient = some e ∧
    e.calls.map (·.progress) = [.returned true] ∧ e.node.db.updates = [] ∧
    ∀ a, e.node.step place {} config (.act 0 a) = none := by
  have hrun : (run place {} config { node := { db := stored letter } } patient).map
      (fun e => (e.calls.map (fun c => (c.before, c.progress)), e.node.db.updates.length)) =
        some ([(1, .returned true)], 0) := by decide +kernel
  obtain ⟨e, he, hfacts⟩ := Option.map_eq_some_iff.1 hrun
  obtain ⟨hcalls, hupdates⟩ := Prod.mk.inj hfacts
  obtain ⟨call, rest, heq, hcall, hrest⟩ := List.map_eq_cons_iff.1 hcalls
  obtain rfl := List.map_eq_nil_iff.1 hrest
  obtain ⟨hbefore, hprogress⟩ := Prod.mk.inj hcall
  have hsettled : Machine.Along (step place {} config) Settled
      { node := { db := stored letter } } patient := by decide +kernel
  refine ⟨e, he, by simp [heq, hprogress], List.length_eq_zero_iff.1 hupdates, fun a => ?_⟩
  exact evicted_room_is_done hsettled he (by simp [heq]) hprogress (by rw [hbefore]; decide) a

/-- A room has evicted itself, and `Evict` finds nobody registered. -/
def hasty : List Act :=
  [.node .open, .node (.load 0 0 0), .node (.act 0 (.turn ⟨.command .evict, 0, []⟩)), .call,
    .look 0]

/-- **`Evict` returns while a room is writing**: it has left the registry, and its compaction is
still to come. -/
theorem stopping_room_writes_on : ∃ e node,
    run place {} config { node := { db := stored letter } } hasty = some e ∧
    e.calls.map (fun c => (c.before, c.progress)) = [(1, .returned true)] ∧
    e.node.db.updates.map (·.seq) = [1] ∧
    Machine.run (Node.step place {} config) e.node
      [.act 0 (.take 0 .ok .ok), .act 0 (.compact 0 .ok)] = some node ∧ node.db.updates = [] :=
  ⟨_, _, rfl, rfl, rfl, rfl, rfl⟩

end Evicting

end YCollab.Room
