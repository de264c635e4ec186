import YCollab.Data.Machine
import YCollab.Lib0.Encoder

/-!
# Subscriptions on the Redis bus

`Redis` of `internal/cluster/redis.go`: the rooms of a node share one connection to Redis. The
table of handlers is changed under a mutex, but SUBSCRIBE and UNSUBSCRIBE are sent after it is
released, so a room that opens while another one of the same name closes may be left in the table
without a subscription (`new_room_deaf`).

`subscribed_rooms_hear` says when every room hears its channel: `Subscribe` is only called on a
channel that nobody is busy with, and for which no SUBSCRIBE and no confirmation is under way.

The connection is a queue of commands that Redis executes in order; the confirmations come back
through the receive loop. That the whole bus is closed, or the connection lost, is not modelled.
-/

namespace YCollab.Bus

open Lib0

/-- `r.channel(room)`. -/
def channel (pre room : Bytes) : Bytes := pre ++ [58, 114, 111, 111, 109, 58] ++ room

/-- A command that was sent to Redis. -/
inductive Command where
  | subscribe (channel : Bytes)
  | unsubscribe (channel : Bytes)
  deriving DecidableEq

/-- The channel of a command. -/
def Command.channel : Command → Bytes
  | .subscribe ch => ch
  | .unsubscribe ch => ch

/-- Where a subscription is: in `Subscribe`, in use, or in `Close`. -/
inductive Phase where
  /-- It is in the table of handlers; `first` if it was the first of its channel. -/
  | registered (first : Bool)
  /-- It is in the table of those who wait for a confirmation. -/
  | pending
  /-- SUBSCRIBE was sent. -/
  | sent
  /-- `subscribeAndWait` is about to return. -/
  | leaving (ok : Bool)
  /-- `Subscribe` is about to close the subscription, and to fail. -/
  | failing
  /-- `Subscribe` has returned it. -/
  | subscribed
  /-- It is out of the table of handlers; `empty` if it was the last of its channel. -/
  | removed (empty : Bool)
  | closed
  deriving DecidableEq

/-- A subscription. -/
structure Sub where
  channel : Bytes
  phase : Phase

/-- The bus of a node, and the server it talks to. -/
structure Redis where
  subs : ℕ → Option Sub := fun _ => none
  handlers : Bytes → List ℕ := fun _ => []
  /-- Whose `ready` is waiting for the confirmation of a channel. -/
  pending : Bytes → Option ℕ := fun _ => none
  /-- The `ready` of which subscriptions is closed. -/
  ready : ℕ → Bool := fun _ => false
  /-- The commands that Redis has not executed yet. -/
  wire : List Command := []
  /-- The channels that Redis has the connection down for. -/
  subscribed : Bytes → Bool := fun _ => false
  /-- The confirmations that the receive loop has not seen yet. -/
  confirmations : List Bytes := []

/-- What `Subscribe` or `Close` does next. -/
inductive Act where
  /-- Go on to the next section, where there is no choice. -/
  | goOn
  /-- `ps.Subscribe`, which may fail. -/
  | send (ok : Bool)
  /-- `ready` is closed. -/
  | confirmed
  /-- The context has ended. -/
  | giveUp
  /-- `Close`, up to the end of its section under the mutex. -/
  | close
  /-- `ps.Unsubscribe`, which may fail. -/
  | unsubscribe (ok : Bool)

/-- What happens next. -/
inductive Action where
  /-- `Subscribe`, up to the end of its section under the mutex. -/
  | subscribe (id : ℕ) (room : Bytes)
  | act (id : ℕ) (act : Act)
  /-- Redis executes a command. -/
  | execute
  /-- The receive loop sees a confirmation. -/
  | receive

namespace Redis

variable (pre : Bytes) (s : Redis)

/-- The subscription goes on to `phase`. -/
def setPhase (id : ℕ) (sub : Sub) (phase : Phase) : Redis :=
  { s with subs := Function.update s.subs id (some { sub with phase }) }

/-- What the subscription `id`, which is at `sub`, makes of an action. -/
def act (id : ℕ) (sub : Sub) (act : Act) : Option Redis :=
  match sub.phase, act with
  | .registered false, .goOn => some (s.setPhase id sub .subscribed)
  | .registered true, .goOn =>
    some ({ s with
      pending := Function.update s.pending sub.channel (some id)
      ready := Function.update s.ready id false }.setPhase id sub .pending)
  | .pending, .send true =>
    some ({ s with wire := s.wire ++ [Command.subscribe sub.channel] }.setPhase id sub .sent)
  | .pending, .send false => some (s.setPhase id sub (.leaving false))
  | .sent, .confirmed => if s.ready id then some (s.setPhase id sub (.leaving true)) else none
  | .sent, .giveUp => some (s.setPhase id sub (.leaving false))
  | .leaving ok, .goOn =>
    some ({ s with pending := Function.update s.pending sub.channel none }.setPhase id sub
      (if ok then .subscribed else .failing))
  | .subscribed, .close => some (close id sub)
  | .failing, .close => some (close id sub)
  | .removed true, .unsubscribe ok =>
    some ({ s with
      wire := if ok then s.wire ++ [Command.unsubscribe sub.channel] else s.wire }.setPhase
        id sub .closed)
  | .removed false, .goOn => some (s.setPhase id sub .closed)
  | _, _ => none
where
  /-- The section of `Close` under the mutex. -/
  close (id : ℕ) (sub : Sub) : Redis :=
    let listeners := (s.handlers sub.channel).erase id
    { s with handlers := Function.update s.handlers sub.channel listeners }.setPhase id sub
      (.removed listeners.isEmpty)

/-- One action: a call is made or goes on, Redis executes, or the receive loop reads. -/
def step : Action → Option Redis
  | .subscribe id room =>
    match s.subs id with
    | some _ => none
    | none =>
      let ch := channel pre room
      some ({ s with handlers := Function.update s.handlers ch (s.handlers ch ++ [id]) }.setPhase id
        ⟨ch, .closed⟩ (.registered (s.handlers ch).isEmpty))
  | .act id a =>
    match s.subs id with
    | some sub => s.act id sub a
    | none => none
  | .execute =>
    match s.wire with
    | [] => none
    | .subscribe ch :: wire =>
      some { s with
        wire
        subscribed := Function.update s.subscribed ch true
        confirmations := s.confirmations ++ [ch] }
    | .unsubscribe ch :: wire =>
      some { s with wire, subscribed := Function.update s.subscribed ch false }
  | .receive =>
    match s.confirmations with
    | [] => none
    | ch :: confirmations =>
      match s.pending ch with
      | some id =>
        some { s with
          confirmations
          pending := Function.update s.pending ch none
          ready := Function.update s.ready id true }
      | none => some { s with confirmations }

end Redis

/-- The subscription `id` goes on from `sub` to `phase`, and the rest of the bus from `s` to `s'`;
the new phase is entered afterwards. -/
inductive Acted (s : Redis) (id : ℕ) (sub : Sub) : Act → Redis → Phase → Prop
  | skip : sub.phase = .registered false → Acted s id sub .goOn s .subscribed
  | enter : sub.phase = .registered true →
      Acted s id sub .goOn
        { s with
          pending := Function.update s.pending sub.channel (some id)
          ready := Function.update s.ready id false } .pending
  | send : sub.phase = .pending →
      Acted s id sub (.send true) { s with wire := s.wire ++ [Command.subscribe sub.channel] } .sent
  | sendFailed : sub.phase = .pending → Acted s id sub (.send false) s (.leaving false)
  | confirmed : sub.phase = .sent → s.ready id = true →
      Acted s id sub .confirmed s (.leaving true)
  | giveUp : sub.phase = .sent → Acted s id sub .giveUp s (.leaving false)
  | finish {ok : Bool} : sub.phase = .leaving ok →
      Acted s id sub .goOn { s with pending := Function.update s.pending sub.channel none }
        (if ok then .subscribed else .failing)
  | close : sub.phase = .subscribed ∨ sub.phase = .failing →
      Acted s id sub .close
        { s with handlers :=
            Function.update s.handlers sub.channel ((s.handlers sub.channel).erase id) }
        (.removed ((s.handlers sub.channel).erase id).isEmpty)
  | unsubscribe {ok : Bool} : sub.phase = .removed true →
      Acted s id sub (.unsubscribe ok)
        { s with wire := if ok then s.wire ++ [Command.unsubscribe sub.channel] else s.wire }
        .closed
  | done : sub.phase = .removed false → Acted s id sub .goOn s .closed

namespace Redis

variable (s : Redis)

theorem acted_of_act {s' : Redis} {id : ℕ} {sub : Sub} {a : Act} (h : s.act id sub a = some s') :
    ∃ s₁ phase, Acted s id sub a s₁ phase ∧ s' = s₁.setPhase id sub phase := by
  unfold act at h
  split at h
  next hp => exact ⟨_, _, .skip hp, (Option.some.inj h).symm⟩
  next hp => exact ⟨_, _, .enter hp, (Option.some.inj h).symm⟩
  next hp => exact ⟨_, _, .send hp, (Option.some.inj h).symm⟩
  next hp => exact ⟨_, _, .sendFailed hp, (Option.some.inj h).symm⟩
  next hp =>
    split at h
    next hr => exact ⟨_, _, .confirmed hp hr, (Option.some.inj h).symm⟩
    next => cases h
  next hp => exact ⟨_, _, .giveUp hp, (Option.some.inj h).symm⟩
  next ok hp => exact ⟨_, _, .finish hp, (Option.some.inj h).symm⟩
  next hp => exact ⟨_, _, .close (.inl hp), (Option.some.inj h).symm⟩
  next hp => exact ⟨_, _, .close (.inr hp), (Option.some.inj h).symm⟩
  next ok hp => exact ⟨_, _, .unsubscribe hp, (Option.some.inj h).symm⟩
  next hp => exact ⟨_, _, .done hp, (Option.some.inj h).symm⟩
  next => cases h

/-! ### What holds of a channel -/

/-- The commands of a channel that Redis has not executed. -/
def commands (ch : Bytes) : List Command := s.wire.filter fun c => c.channel = ch

/-- Redis has the connection down for the channel, and is not told anything else. -/
def On (ch : Bytes) : Prop := s.subscribed ch = true ∧ s.commands ch = []

/-- No SUBSCRIBE for the channel is under way, and no confirmation. -/
def Unsent (ch : Bytes) : Prop :=
  Command.subscribe ch ∉ s.wire ∧ ch ∉ s.confirmations

end Redis

/-- The subscription is in the table of handlers. -/
def Phase.Live : Phase → Prop
  | .removed _ => False
  | .closed => False
  | _ => True

/-- `Subscribe` is running, and has to see to it that Redis is told. -/
def Phase.Opening : Phase → Prop
  | .registered first => first = true
  | .pending => True
  | .sent => True
  | .leaving _ => True
  | .failing => True
  | _ => False

/-- The subscription may be waiting for a confirmation. -/
def Phase.Waits : Phase → Prop
  | .pending => True
  | .sent => True
  | .leaving _ => True
  | _ => False

/-- `Subscribe` or `Close` is running. -/
def Phase.Busy : Phase → Prop
  | .subscribed => False
  | .closed => False
  | _ => True

namespace Redis

variable {pre} {s s' : Redis} {ch : Bytes}

/-- What the phase of a subscription says about its channel. -/
def Holds (s : Redis) (ch : Bytes) (id : ℕ) : Phase → Prop
  | .registered true => s.Unsent ch
  | .registered false => s.On ch
  | .pending => s.Unsent ch ∧ s.ready id = false
  | .sent => s.On ch ∨ ch ∉ s.confirmations ∧ s.ready id = false ∧
      ∃ l, s.commands ch = l ++ [.subscribe ch] ∧ Command.subscribe ch ∉ l
  | .leaving true => s.On ch
  | .subscribed => s.On ch
  | _ => True

/-- One subscription at a time sees to the channel, and nobody who has left it will still turn it
off. -/
structure Tuned (s : Redis) (ch : Bytes) : Prop where
  handlers (id : ℕ) : id ∈ s.handlers ch ↔ ∃ p, s.subs id = some ⟨ch, p⟩ ∧ p.Live
  nodup : (s.handlers ch).Nodup
  alone (id : ℕ) (p : Phase) : s.subs id = some ⟨ch, p⟩ → p.Opening → s.handlers ch = [id]
  owes (id : ℕ) (p : Phase) : s.subs id = some ⟨ch, p⟩ → p.Live →
    ∀ j, s.subs j ≠ some ⟨ch, .removed true⟩
  pending (id : ℕ) : s.pending ch = some id → ∃ p, s.subs id = some ⟨ch, p⟩ ∧ p.Waits
  holds (id : ℕ) (p : Phase) : s.subs id = some ⟨ch, p⟩ → s.Holds ch id p

/-- The two buses agree on everything about the channel. -/
structure Same (s s' : Redis) (ch : Bytes) : Prop where
  subs (id : ℕ) (p : Phase) : s'.subs id = some ⟨ch, p⟩ ↔ s.subs id = some ⟨ch, p⟩
  handlers : s'.handlers ch = s.handlers ch
  pending : s'.pending ch = s.pending ch
  ready (id : ℕ) (p : Phase) : s.subs id = some ⟨ch, p⟩ → s'.ready id = s.ready id
  commands : s'.commands ch = s.commands ch
  subscribed : s'.subscribed ch = s.subscribed ch
  confirmations : ch ∈ s'.confirmations ↔ ch ∈ s.confirmations

theorem mem_commands : Command.subscribe ch ∈ s.commands ch ↔ Command.subscribe ch ∈ s.wire := by
  simp [commands, Command.channel]

theorem Same.holds (h : Same s s' ch) {id : ℕ} {p : Phase} (hid : s.subs id = some ⟨ch, p⟩)
    (hp : s.Holds ch id p) : s'.Holds ch id p := by
  have hon : s.On ch → s'.On ch := fun ⟨h₁, h₂⟩ => ⟨h.subscribed.trans h₁, h.commands.trans h₂⟩
  have hunsent : s.Unsent ch → s'.Unsent ch := fun ⟨h₁, h₂⟩ => by
    rw [Unsent, ← mem_commands, h.commands, mem_commands, h.confirmations]
    exact ⟨h₁, h₂⟩
  unfold Holds at hp ⊢
  split at hp
  · exact hunsent hp
  · exact hon hp
  · exact ⟨hunsent hp.1, (h.ready id _ hid).trans hp.2⟩
  · refine hp.imp hon fun ⟨hc, hr, l, hl, hn⟩ => ⟨?_, (h.ready id _ hid).trans hr, l, ?_, hn⟩
    · rwa [h.confirmations]
    · rw [h.commands, hl]
  · exact hon hp
  · exact hon hp
  · trivial

theorem Tuned.of_holds (h : Tuned s ch)
    (hsubs : ∀ id p, s'.subs id = some ⟨ch, p⟩ ↔ s.subs id = some ⟨ch, p⟩)
    (hhandlers : s'.handlers ch = s.handlers ch)
    (hpending : ∀ id, s'.pending ch = some id → s.pending ch = some id)
    (hholds : ∀ id p, s.subs id = some ⟨ch, p⟩ → s.Holds ch id p → s'.Holds ch id p) :
    Tuned s' ch where
  handlers id := by
    rw [hhandlers, h.handlers]
    simp only [hsubs]
  nodup := hhandlers ▸ h.nodup
  alone id p hid hp := by
    rw [hhandlers]
    exact h.alone id p ((hsubs id p).1 hid) hp
  owes id p hid hp j hj := h.owes id p ((hsubs id p).1 hid) hp j ((hsubs j _).1 hj)
  pending id hid := by
    obtain ⟨p, hp, hw⟩ := h.pending id (hpending id hid)
    exact ⟨p, (hsubs id p).2 hp, hw⟩
  holds id p hid := hholds id p ((hsubs id p).1 hid) (h.holds id p ((hsubs id p).1 hid))

theorem Tuned.same (h : Tuned s ch) (hs : Same s s' ch) : Tuned s' ch :=
  h.of_holds hs.subs hs.handlers (fun _ hid => hs.pending ▸ hid) fun _ _ => hs.holds

theorem holds_of_not_live {id : ℕ} {p : Phase} (h : ¬p.Live) : s.Holds ch id p := by
  cases p with
  | removed empty => trivial
  | closed => trivial
  | _ => exact absurd trivial h

theorem setPhase_subs {id j : ℕ} {p p' q : Phase} :
    (s.setPhase id ⟨ch, p⟩ p').subs j = some ⟨ch, q⟩ ↔
      j = id ∧ q = p' ∨ j ≠ id ∧ s.subs j = some ⟨ch, q⟩ :=
  Machine.set_eq_some.trans (by simp)

theorem setPhase_subs_of_ne {id j : ℕ} {sub : Sub} {p q : Phase} (hch : ch ≠ sub.channel)
    (hid : ∀ q, s.subs id ≠ some ⟨ch, q⟩) :
    (s.setPhase id sub p).subs j = some ⟨ch, q⟩ ↔ s.subs j = some ⟨ch, q⟩ := by
  unfold setPhase
  by_cases hj : j = id
  · subst hj
    simp [hch.symm, hid q]
  · simp [hj]

/-- The subscription goes on and stays where it is in the table. -/
theorem Tuned.setPhase (h : Tuned s ch) {id : ℕ} {p p' : Phase} (hid : s.subs id = some ⟨ch, p⟩)
    (hsubs : s'.subs = s.subs) (hhandlers : s'.handlers ch = s.handlers ch)
    (hlive : p'.Live ↔ p.Live) (hopening : p'.Opening → p.Opening) (howes : p' ≠ .removed true)
    (hpending : ∀ j, s'.pending ch = some j → if j = id then p'.Waits else s.pending ch = some j)
    (hholds : s'.Holds ch id p')
    (hothers : ∀ j q, j ≠ id → s.subs j = some ⟨ch, q⟩ → s'.Holds ch j q) :
    Tuned (s'.setPhase id ⟨ch, p⟩ p') ch := by
  have hmem : ∀ j q, (s'.setPhase id ⟨ch, p⟩ p').subs j = some ⟨ch, q⟩ ↔
      j = id ∧ q = p' ∨ j ≠ id ∧ s.subs j = some ⟨ch, q⟩ := by
    intro j q
    rw [setPhase_subs, hsubs]
  refine ⟨fun j => ?_, hhandlers ▸ h.nodup, fun j q hj hq => ?_, fun j q hj hq k hk => ?_,
    fun j hj => ?_, fun j q hj => ?_⟩
  · change j ∈ s'.handlers ch ↔ _
    rw [hhandlers, h.handlers]
    simp only [hmem]
    by_cases hji : j = id
    · subst hji
      simp only [hid, Option.some.injEq, Sub.mk.injEq, true_and, exists_eq_left', ne_eq,
        not_true_eq_false, false_and, or_false, exists_eq_left]
      exact hlive.symm
    · simp [hji]
  · change s'.handlers ch = [j]
    rw [hhandlers]
    rcases (hmem j q).1 hj with ⟨rfl, rfl⟩ | ⟨-, hj⟩
    · exact h.alone j p hid (hopening hq)
    · exact h.alone j q hj hq
  · have hk' : s.subs k = some ⟨ch, .removed true⟩ := by
      rcases (hmem k _).1 hk with ⟨-, heq⟩ | ⟨-, hk⟩
      · exact absurd heq.symm howes
      · exact hk
    rcases (hmem j q).1 hj with ⟨rfl, rfl⟩ | ⟨-, hj⟩
    · exact h.owes j p hid (hlive.1 hq) k hk'
    · exact h.owes j q hj hq k hk'
  · have hnew := hpending j hj
    split at hnew
    next hji => exact ⟨p', (hmem j p').2 (.inl ⟨hji, rfl⟩), hnew⟩
    next hji =>
      obtain ⟨q, hq, hw⟩ := h.pending j hnew
      exact ⟨q, (hmem j q).2 (.inr ⟨hji, hq⟩), hw⟩
  · rcases (hmem j q).1 hj with ⟨rfl, rfl⟩ | ⟨hji, hj⟩
    · exact hholds
    · exact hothers j q hji hj

theorem Tuned.not_live (h : Tuned s ch) {id j : ℕ} {p q : Phase} (hid : s.subs id = some ⟨ch, p⟩)
    (hp : p.Opening) (hji : j ≠ id) (hj : s.subs j = some ⟨ch, q⟩) : ¬q.Live := by
  intro hq
  have hmem := (h.handlers j).2 ⟨q, hj, hq⟩
  rw [h.alone id p hid hp, List.mem_singleton] at hmem
  exact hji hmem

/-- `Close` takes the subscription out of the table. -/
theorem Tuned.close (h : Tuned s ch) {id : ℕ} {p : Phase} (hid : s.subs id = some ⟨ch, p⟩)
    (hp : p = .subscribed ∨ p = .failing) :
    Tuned ({ s with handlers := Function.update s.handlers ch ((s.handlers ch).erase id) }.setPhase
      id ⟨ch, p⟩ (.removed ((s.handlers ch).erase id).isEmpty)) ch := by
  have hlive : p.Live := by
    rcases hp with rfl | rfl <;> trivial
  have hwaits : ¬p.Waits := by
    rcases hp with rfl | rfl <;> exact fun hw => hw
  have hin : id ∈ s.handlers ch := (h.handlers id).2 ⟨p, hid, hlive⟩
  set s₁ : Redis :=
    { s with handlers := Function.update s.handlers ch ((s.handlers ch).erase id) }
  have hhandlers : ∀ q, (s₁.setPhase id ⟨ch, p⟩ q).handlers ch = (s.handlers ch).erase id :=
    fun _ => Function.update_self ..
  have hmem : ∀ j q q', (s₁.setPhase id ⟨ch, p⟩ q').subs j = some ⟨ch, q⟩ ↔
      j = id ∧ q = q' ∨ j ≠ id ∧ s.subs j = some ⟨ch, q⟩ := fun _ _ _ => setPhase_subs
  refine ⟨fun j => ?_, ?_, fun j q hj hq => ?_, fun j q hj hq k hk => ?_, fun j hj => ?_,
    fun j q hj => ?_⟩
  · rw [hhandlers, h.nodup.mem_erase_iff, h.handlers]
    simp only [hmem]
    constructor
    · rintro ⟨hji, q, hj, hq⟩
      exact ⟨q, .inr ⟨hji, hj⟩, hq⟩
    · rintro ⟨q, ⟨-, rfl⟩ | ⟨hji, hj⟩, hq⟩
      · exact hq.elim
      · exact ⟨hji, q, hj, hq⟩
  · rw [hhandlers]
    exact h.nodup.erase id
  · rcases (hmem j q _).1 hj with ⟨rfl, rfl⟩ | ⟨hji, hj⟩
    · exact hq.elim
    · rw [h.alone j q hj hq, List.mem_singleton] at hin
      exact absurd hin.symm hji
  · rcases (hmem j q _).1 hj with ⟨rfl, rfl⟩ | ⟨hji, hold⟩
    · exact hq.elim
    · rcases (hmem k _ _).1 hk with ⟨rfl, heq⟩ | ⟨-, hk⟩
      · -- Somebody is left, so this was not the last one.
        have hleft : j ∈ (s.handlers ch).erase k :=
          h.nodup.mem_erase_iff.2 ⟨hji, (h.handlers j).2 ⟨q, hold, hq⟩⟩
        have hempty := Phase.removed.inj heq
        rw [List.isEmpty_iff.1 hempty.symm] at hleft
        cases hleft
      · exact h.owes j q hold hq k hk
  · obtain ⟨q, hq, hw⟩ := h.pending j hj
    refine ⟨q, (hmem j q _).2 (.inr ⟨?_, hq⟩), hw⟩
    rintro rfl
    cases hid.symm.trans hq
    exact hwaits hw
  · rcases (hmem j q _).1 hj with ⟨rfl, rfl⟩ | ⟨-, hj⟩
    · trivial
    · exact h.holds j q hj

theorem Tuned.pending_of_waits (h : Tuned s ch) {id : ℕ} {p p' : Phase}
    (hid : s.subs id = some ⟨ch, p⟩) (hw : p.Waits → p'.Waits) (j : ℕ)
    (hj : s.pending ch = some j) : if j = id then p'.Waits else s.pending ch = some j := by
  split
  next hji =>
    subst hji
    obtain ⟨q, hq, hwq⟩ := h.pending j hj
    cases hid.symm.trans hq
    exact hw hwq
  next => exact hj

/-- A subscription goes on: what holds of its own channel. -/
theorem Tuned.acted {id : ℕ} {p : Phase} (h : Tuned s ch) (hid : s.subs id = some ⟨ch, p⟩) {a : Act}
    {s₁ : Redis} {phase : Phase} (hacted : Acted s id ⟨ch, p⟩ a s₁ phase) :
    Tuned (s₁.setPhase id ⟨ch, p⟩ phase) ch := by
  have hheld := h.holds id p hid
  have hothers : ∀ j q, j ≠ id → s.subs j = some ⟨ch, q⟩ → s.Holds ch j q :=
    fun j q _ hj => h.holds j q hj
  -- While a subscription is opening the channel, whatever it does to it concerns nobody else.
  have halone : p.Opening → ∀ s' j q, j ≠ id → s.subs j = some ⟨ch, q⟩ → Holds s' ch j q :=
    fun hp s' j q hji hj => holds_of_not_live (h.not_live hid hp hji hj)
  cases hacted with
  | skip hp =>
    cases hp
    exact h.setPhase hid rfl rfl .rfl nofun nofun (h.pending_of_waits hid nofun) hheld hothers
  | enter hp =>
    cases hp
    refine h.setPhase hid rfl rfl .rfl (fun _ => rfl) nofun (fun j hj => ?_)
      ⟨hheld, Function.update_self ..⟩ (halone rfl _)
    simp only [Function.update_self, Option.some.injEq] at hj
    rw [if_pos hj.symm]
    trivial
  | send hp =>
    cases hp
    obtain ⟨hunsent, hready⟩ := hheld
    refine h.setPhase hid rfl rfl .rfl (fun _ => trivial) nofun
      (h.pending_of_waits hid fun _ => trivial) (.inr ⟨hunsent.2, hready, s.commands ch, ?_, ?_⟩)
      (halone trivial _)
    · simp [commands, Command.channel]
    · rw [mem_commands]
      exact hunsent.1
  | sendFailed hp =>
    cases hp
    exact h.setPhase hid rfl rfl .rfl (fun _ => trivial) nofun
      (h.pending_of_waits hid fun _ => trivial) trivial hothers
  | confirmed hp hr =>
    cases hp
    refine h.setPhase hid rfl rfl .rfl (fun _ => trivial) nofun
      (h.pending_of_waits hid fun _ => trivial) (hheld.resolve_right ?_) hothers
    rintro ⟨-, hnot, -⟩
    rw [hr] at hnot
    cases hnot
  | giveUp hp =>
    cases hp
    exact h.setPhase hid rfl rfl .rfl (fun _ => trivial) nofun
      (h.pending_of_waits hid fun _ => trivial) trivial hothers
  | @finish ok hp =>
    cases hp
    refine h.setPhase hid rfl rfl ?_ ?_ ?_ (fun j hj => ?_) ?_ hothers
    · cases ok <;> exact .rfl
    · exact fun _ => trivial
    · cases ok <;> nofun
    · simp at hj
    · cases ok with
      | true => exact hheld
      | false => trivial
  | close hp => exact h.close hid hp
  | @unsubscribe ok hp =>
    cases hp
    refine h.setPhase hid rfl rfl .rfl nofun nofun (h.pending_of_waits hid nofun) trivial
      fun j q hji hj => holds_of_not_live fun hq => ?_
    exact h.owes j q hj hq id hid
  | done hp =>
    cases hp
    exact h.setPhase hid rfl rfl .rfl nofun nofun (h.pending_of_waits hid nofun) trivial hothers

/-- What holds of the other channels. -/
theorem same_of_acted {id : ℕ} {sub : Sub} (hid : s.subs id = some sub) (hch : ch ≠ sub.channel)
    {a : Act} {s₁ : Redis} {phase : Phase} (hacted : Acted s id sub a s₁ phase) :
    Same s (s₁.setPhase id sub phase) ch := by
  have hnot : ∀ p, s.subs id ≠ some ⟨ch, p⟩ := fun p hp => by
    cases hid.symm.trans hp
    exact hch rfl
  have hsubs : s₁.subs = s.subs := by
    cases hacted <;> rfl
  refine ⟨fun j p => ?_, ?_, ?_, fun j p hj => ?_, ?_, ?_, ?_⟩
  · rw [← hsubs] at hnot ⊢
    exact setPhase_subs_of_ne hch hnot
  · cases hacted with
    | close hp => exact Function.update_of_ne hch ..
    | _ => rfl
  · cases hacted with
    | enter hp => exact Function.update_of_ne hch ..
    | finish hp => exact Function.update_of_ne hch ..
    | _ => rfl
  · cases hacted with
    | enter hp =>
      refine Function.update_of_ne ?_ ..
      rintro rfl
      exact hnot p hj
    | _ => rfl
  · cases hacted with
    | send hp => simp [commands, setPhase, Command.channel, Ne.symm hch]
    | @unsubscribe ok hp => cases ok <;> simp [commands, setPhase, Command.channel, Ne.symm hch]
    | _ => rfl
  · cases hacted <;> rfl
  · cases hacted <;> exact .rfl

/-- Nobody is busy with the channel that is to be subscribed to, and neither a SUBSCRIBE nor a
confirmation for it is under way. -/
def Free (pre : Bytes) (s : Redis) : Action → Prop
  | .subscribe _ room =>
    (∀ j p, s.subs j = some ⟨channel pre room, p⟩ → ¬p.Busy) ∧ s.Unsent (channel pre room)
  | _ => True

/-- `Subscribe` enters a subscription into the table. -/
theorem Tuned.subscribe (h : Tuned s ch) {id : ℕ} (hid : s.subs id = none)
    (hfree : ∀ j p, s.subs j = some ⟨ch, p⟩ → ¬p.Busy) (hunsent : s.Unsent ch) :
    Tuned ({ s with handlers := Function.update s.handlers ch (s.handlers ch ++ [id]) }.setPhase id
      ⟨ch, .closed⟩ (.registered (s.handlers ch).isEmpty)) ch := by
  set s₁ : Redis := { s with handlers := Function.update s.handlers ch (s.handlers ch ++ [id]) }
  have hhandlers : ∀ q, (s₁.setPhase id ⟨ch, .closed⟩ q).handlers ch = s.handlers ch ++ [id] :=
    fun _ => Function.update_self ..
  have hmem : ∀ j q q', (s₁.setPhase id ⟨ch, .closed⟩ q').subs j = some ⟨ch, q⟩ ↔
      j = id ∧ q = q' ∨ j ≠ id ∧ s.subs j = some ⟨ch, q⟩ := fun _ _ _ => setPhase_subs
  have hnew : id ∉ s.handlers ch := by
    rw [h.handlers]
    rintro ⟨p, hp, -⟩
    cases hid.symm.trans hp
  refine ⟨fun j => ?_, ?_, fun j q hj hq => ?_, fun j q hj hq k hk => ?_, fun j hj => ?_,
    fun j q hj => ?_⟩
  · rw [hhandlers, List.mem_append, List.mem_singleton, h.handlers]
    simp only [hmem]
    constructor
    · rintro (⟨p, hj, hp⟩ | rfl)
      · refine ⟨p, .inr ⟨?_, hj⟩, hp⟩
        rintro rfl
        cases hid.symm.trans hj
      · exact ⟨_, .inl ⟨rfl, rfl⟩, trivial⟩
    · rintro ⟨p, ⟨rfl, -⟩ | ⟨-, hj⟩, hp⟩
      · exact .inr rfl
      · exact .inl ⟨p, hj, hp⟩
  · rw [hhandlers]
    refine List.nodup_append.2 ⟨h.nodup, by simp, fun a ha b hb => ?_⟩
    rw [List.mem_singleton.1 hb]
    exact ne_of_mem_of_not_mem ha hnew
  · rcases (hmem j q _).1 hj with ⟨rfl, rfl⟩ | ⟨-, hj⟩
    · rw [hhandlers, List.isEmpty_iff.1 hq]
      rfl
    · refine absurd ?_ (hfree j q hj)
      cases q with
      | subscribed => exact hq.elim
      | closed => exact hq.elim
      | _ => trivial
  · rcases (hmem k _ _).1 hk with ⟨-, heq⟩ | ⟨-, hk⟩
    · cases heq
    · exact hfree k _ hk trivial
  · obtain ⟨q, hq, hw⟩ := h.pending j hj
    refine absurd ?_ (hfree j q hq)
    cases q with
    | subscribed => exact hw.elim
    | closed => exact hw.elim
    | _ => trivial
  · rcases (hmem j q _).1 hj with ⟨rfl, rfl⟩ | ⟨-, hj⟩
    · cases hempty : (s.handlers ch).isEmpty with
      | true => exact hunsent
      | false =>
        -- Whoever is in the table is not busy, so it has subscribed.
        obtain ⟨k, hk⟩ := List.exists_mem_of_ne_nil (s.handlers ch)
          (by simpa [List.isEmpty_iff] using hempty)
        obtain ⟨p, hp, hlive⟩ := (h.handlers k).1 hk
        have hon := h.holds k p hp
        have hidle := hfree k p hp
        cases p with
        | subscribed => exact hon
        | closed => exact hlive.elim
        | _ => exact absurd trivial hidle
    · exact h.holds j q hj

/-- Redis executes a command of the channel. -/
theorem Tuned.execute (h : Tuned s ch) {c : Command} {wire : List Command}
    (hwire : s.wire = c :: wire) (hc : c.channel = ch) (hrest : s'.wire = wire)
    (hsubs : s'.subs = s.subs) (hhandlers : s'.handlers ch = s.handlers ch)
    (hpending : s'.pending = s.pending)
    (hready : s'.ready = s.ready)
    (heffect : c = .subscribe ch ∧ s'.subscribed ch = true ∨
      c = .unsubscribe ch ∧ (ch ∈ s'.confirmations → ch ∈ s.confirmations)) : Tuned s' ch := by
  have hcommands : s.commands ch = c :: s'.commands ch := by
    simp [commands, hwire, hrest, hc]
  have hnotOn : ¬s.On ch := fun hon => by
    cases hcommands.symm.trans hon.2
  refine h.of_holds (by simp [hsubs]) hhandlers (fun id hid => hpending ▸ hid) fun id p _ hheld => ?_
  have hunsent : s.Unsent ch → s'.Unsent ch := by
    rintro ⟨hno, hconf⟩
    rcases heffect with ⟨rfl, -⟩ | ⟨rfl, hsub⟩
    · rw [hwire] at hno
      exact absurd List.mem_cons_self hno
    · refine ⟨fun hin => hno ?_, fun hin => hconf (hsub hin)⟩
      rw [hwire]
      exact List.mem_cons_of_mem _ (hrest ▸ hin)
  unfold Holds at hheld ⊢
  split at hheld
  · exact hunsent hheld
  · exact absurd hheld hnotOn
  · exact ⟨hunsent hheld.1, (congrFun hready id).trans hheld.2⟩
  · obtain ⟨hconf, hr, l, hl, hno⟩ := hheld.resolve_left hnotOn
    rw [hcommands] at hl
    cases l with
    | nil =>
      rw [List.nil_append, List.cons.injEq] at hl
      obtain ⟨rfl, hnil⟩ := hl
      rcases heffect with ⟨-, hon⟩ | ⟨heq, -⟩
      · exact .inl ⟨hon, hnil⟩
      · cases heq
    | cons c' l =>
      rw [List.cons_append, List.cons.injEq] at hl
      obtain ⟨rfl, htail⟩ := hl
      rcases heffect with ⟨rfl, -⟩ | ⟨-, hsub⟩
      · exact absurd List.mem_cons_self hno
      · refine .inr ⟨fun hin => hconf (hsub hin), (congrFun hready id).trans hr, l, htail, ?_⟩
        exact fun hin => hno (List.mem_cons_of_mem _ hin)
  · exact absurd hheld hnotOn
  · exact absurd hheld hnotOn
  · trivial

theorem Tuned.receive (h : Tuned s ch) (hin : ch ∈ s.confirmations) (hsubs : s'.subs = s.subs)
    (hhandlers : s'.handlers ch = s.handlers ch) (hpending : s'.pending ch = none)
    (hwire : s'.wire = s.wire) (hsubscribed : s'.subscribed = s.subscribed) : Tuned s' ch := by
  have hon : s.On ch → s'.On ch := fun hon => by
    unfold On commands at hon ⊢
    rwa [hwire, hsubscribed]
  refine h.of_holds (by simp [hsubs]) hhandlers (fun id hid => ?_) fun id p _ hheld => ?_
  · rw [hpending] at hid
    cases hid
  unfold Holds at hheld ⊢
  split at hheld
  · exact absurd hin hheld.2
  · exact hon hheld
  · exact absurd hin hheld.1.2
  · exact .inl (hon (hheld.resolve_right fun hnot => hnot.1 hin))
  · exact hon hheld
  · exact hon hheld
  · trivial

theorem Tuned.step (h : ∀ ch, Tuned s ch) {a : Action} (hfree : Free pre s a)
    (hstep : s.step pre a = some s') (ch : Bytes) : Tuned s' ch := by
  cases a with
  | subscribe id room =>
    simp only [Redis.step] at hstep
    split at hstep
    · cases hstep
    next hid =>
      cases hstep
      by_cases hch : ch = channel pre room
      · subst hch
        exact (h _).subscribe hid hfree.1 hfree.2
      · exact (h ch).same ⟨fun j p => setPhase_subs_of_ne hch (by simp [hid]),
          Function.update_of_ne hch .., rfl, fun _ _ _ => rfl, rfl, rfl, .rfl⟩
  | act id a =>
    simp only [Redis.step] at hstep
    split at hstep
    next sub hid =>
      obtain ⟨s₁, phase, hacted, rfl⟩ := acted_of_act _ hstep
      by_cases hch : ch = sub.channel
      · subst hch
        exact (h _).acted hid hacted
      · exact (h ch).same (same_of_acted hid hch hacted)
    next => cases hstep
  | execute =>
    simp only [Redis.step] at hstep
    split at hstep
    · cases hstep
    next c wire hwire =>
      cases hstep
      by_cases hch : ch = c
      · subst hch
        exact (h ch).execute hwire rfl rfl rfl rfl rfl rfl (.inl ⟨rfl, Function.update_self ..⟩)
      · refine (h ch).same ⟨fun _ _ => .rfl, rfl, rfl, fun _ _ _ => rfl, ?_,
          Function.update_of_ne hch .., ?_⟩
        · simp [commands, hwire, Command.channel, Ne.symm hch]
        · simp [hch]
    next c wire hwire =>
      cases hstep
      by_cases hch : ch = c
      · subst hch
        exact (h ch).execute hwire rfl rfl rfl rfl rfl rfl (.inr ⟨rfl, fun hin => hin⟩)
      · refine (h ch).same ⟨fun _ _ => .rfl, rfl, rfl, fun _ _ _ => rfl, ?_,
          Function.update_of_ne hch .., .rfl⟩
        simp [commands, hwire, Command.channel, Ne.symm hch]
  | receive =>
    simp only [Redis.step] at hstep
    split at hstep
    · cases hstep
    next c confirmations hconf =>
      have hin : c ∈ s.confirmations := hconf ▸ List.mem_cons_self
      split at hstep
      next id hid =>
        cases hstep
        by_cases hch : ch = c
        · subst hch
          exact (h ch).receive hin rfl rfl (Function.update_self ..) rfl rfl
        · refine (h ch).same ⟨fun _ _ => .rfl, rfl, Function.update_of_ne hch .., fun j p hj => ?_,
            rfl, rfl, ?_⟩
          · -- The one that is told is on the other channel.
            obtain ⟨q, hq, -⟩ := (h c).pending id hid
            refine Function.update_of_ne ?_ ..
            rintro rfl
            cases hq.symm.trans hj
            exact hch rfl
          · simp [hconf, hch]
      next hid =>
        cases hstep
        by_cases hch : ch = c
        · subst hch
          exact (h ch).receive hin rfl rfl hid rfl rfl
        · refine (h ch).same ⟨fun _ _ => .rfl, rfl, rfl, fun _ _ _ => rfl, rfl, rfl, ?_⟩
          simp [hconf, hch]

theorem Tuned.empty (ch : Bytes) : Tuned {} ch where
  handlers id := by simp
  nodup := List.nodup_nil
  alone := nofun
  owes := nofun
  pending := nofun
  holds := nofun

end Redis

/-- **Every room that has subscribed hears its channel**, in every run in which `Subscribe` is only
called on channels that nobody is busy with and for which nothing is under way. -/
theorem subscribed_rooms_hear {pre : Bytes} {l : List Action} {s : Redis}
    (hl : Machine.Along (Redis.step pre) (Redis.Free pre) {} l)
    (hrun : Machine.run (Redis.step pre) {} l = some s) {id : ℕ} {sub : Sub}
    (hid : s.subs id = some sub) (hsub : sub.phase = .subscribed) :
    id ∈ s.handlers sub.channel ∧ s.subscribed sub.channel = true := by
  have htuned : ∀ ch, s.Tuned ch :=
    Machine.invariant (fun h ha hs => Redis.Tuned.step h ha hs) Redis.Tuned.empty hl hrun
  obtain ⟨ch, p⟩ := sub
  obtain rfl : p = .subscribed := hsub
  exact ⟨((htuned ch).handlers id).2 ⟨_, hid, trivial⟩, ((htuned ch).holds id _ hid).1⟩

namespace Sample

/-- The room `a` is subscribed to. -/
def opened : List Action :=
  [.subscribe 0 [97], .act 0 .goOn, .act 0 (.send true), .execute, .receive, .act 0 .confirmed,
    .act 0 .goOn]

/-- Another room of that name is subscribed to while the first one closes. -/
def reopened : List Action :=
  [.act 0 .close, .subscribe 1 [97], .act 1 .goOn, .act 1 (.send true), .act 0 (.unsubscribe true),
    .execute, .execute, .receive, .act 1 .confirmed, .act 1 .goOn]

/-- Room `b` is subscribed to while room `a` closes, and then another room `a`. -/
def inTurn : List Action :=
  [.subscribe 1 [98], .act 1 .goOn, .act 0 .close, .act 1 (.send true), .act 0 (.unsubscribe true),
    .execute, .receive, .act 1 .confirmed, .act 1 .goOn,
    .subscribe 2 [97], .act 2 .goOn, .act 2 (.send true), .execute, .execute, .receive,
    .act 2 .confirmed, .act 2 .goOn]

end Sample

open Sample

/-- The first room `a` is closed; the other two hear their channels. -/
theorem rooms_hear : ∃ s, Machine.run (Redis.step []) {} (opened ++ inTurn) = some s ∧
    s.subs 0 = some ⟨channel [] [97], .closed⟩ ∧
    s.subscribed (channel [] [98]) = true ∧ s.subscribed (channel [] [97]) = true := by
  have hfree : Machine.Along (Redis.step []) (Redis.Free []) {} (opened ++ inTurn) := by
    refine .cons ⟨nofun, nofun, nofun⟩ rfl (.cons trivial rfl (.cons trivial rfl (.cons trivial rfl
      (.cons trivial rfl (.cons trivial rfl (.cons trivial rfl (.cons ⟨?_, nofun, nofun⟩ rfl
      (.cons trivial rfl (.cons trivial rfl (.cons trivial rfl (.cons trivial rfl (.cons trivial rfl
      (.cons trivial rfl (.cons trivial rfl (.cons trivial rfl (.cons ⟨?_, by decide, nofun⟩ rfl
      (.cons trivial rfl (.cons trivial rfl (.cons trivial rfl (.cons trivial rfl (.cons trivial rfl
      (.cons trivial rfl (.cons trivial rfl trivial)))))))))))))))))))))))
    · -- room `a` is on another channel
      rintro (_ | j) p hj <;> cases hj
    · -- the first room `a` has closed; its UNSUBSCRIBE goes first
      rintro (_ | _ | j) p hj
      · cases hj
        exact id
      · cases hj
      · cases hj
  refine ⟨_, rfl, rfl, (subscribed_rooms_hear hfree rfl
    (show Redis.subs _ 1 = some ⟨channel [] [98], .subscribed⟩ from rfl) rfl).2,
    (subscribed_rooms_hear hfree rfl
    (show Redis.subs _ 2 = some ⟨channel [] [97], .subscribed⟩ from rfl) rfl).2⟩

/-- **The new room is deaf.** The UNSUBSCRIBE of the old room follows the SUBSCRIBE of the new
one. -/
theorem new_room_deaf : ∃ s, Machine.run (Redis.step []) {} (opened ++ reopened) = some s ∧
    s.handlers (channel [] [97]) = [1] ∧
    s.subs 1 = some ⟨channel [] [97], .subscribed⟩ ∧ s.subs 0 = some ⟨channel [] [97], .closed⟩ ∧
    s.wire = [] ∧ s.subscribed (channel [] [97]) = false :=
  ⟨_, rfl, rfl, rfl, rfl, rfl, rfl⟩

end YCollab.Bus
