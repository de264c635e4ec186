import YCollab.Auth.Answer
import YCollab.Data.Machine

/-!
# The authorisation callback

`Callback` of `internal/auth/callback.go`: calls of `Authorize` that share a cache of decisions and
a table of the questions that are being asked. A call looks into the cache, then joins the request
that is under way for its key or makes one itself; whoever made the request enters the decision
into the cache, takes the request out of the table and wakes those who joined.

Every section between two operations on shared state is one action of a machine: what happens
under the mutex, the arrival of a response, the end of reading it, the closing of the channel that
the others wait on. Contexts may end at any time. A request is named by the call that makes it.
`log` records what the endpoint was asked and how it answered; nothing depends on it.
-/

namespace YCollab.Auth

open Lib0

/-- The document and the token of a request. -/
abbrev Question : Type := Bytes × Bytes

/-- What the request asks. -/
def Request.question (req : Request) : Question := (req.document, req.token)

/-- The question as the endpoint reads it. -/
def wire (q : Question) : Question := (coerce q.1, coerce q.2)

/-- `req.Document + "\x00" + req.Token`. -/
def key (q : Question) : Bytes := q.1 ++ 0 :: q.2

/-- A remembered decision. -/
structure Decision where
  grant : Grant
  err : Option Err
  expires : ℤ

/-- Where a call of `Authorize` is. -/
inductive Phase where
  /-- It has not looked into the cache yet. -/
  | called
  /-- The cache has no decision. -/
  | missed
  /-- It waits for the request of the call `leader`. -/
  | waiting (leader : ℕ)
  /-- Its own request is under way. -/
  | asking
  /-- It is reading the body of the response. -/
  | reading (resp : Response)
  /-- `ask` has returned. -/
  | answered (a : Answer)
  /-- The request is out of the table; who waits for it has not been woken. -/
  | published (a : Answer)
  | returned (grant : Grant) (err : Option Err)
  deriving DecidableEq

/-- A call of `Authorize`. -/
structure Call where
  req : Request
  /-- The error of its context, once that has ended. -/
  ctx : Option Err := none
  phase : Phase := .called

/-- What the endpoint was asked, as it read it, and how it answered. -/
structure Exchange where
  question : Question
  response : Response
  deriving DecidableEq

/-- A callback and its calls. -/
structure Callback where
  calls : ℕ → Option Call := fun _ => none
  decided : List (Bytes × Decision) := []
  asking : Bytes → Option ℕ := fun _ => none
  /-- The answers of the requests whose `done` is closed. -/
  done : ℕ → Option Answer := fun _ => none
  log : List Exchange := []

/-- What a call does next. -/
inductive Act where
  /-- `cached`, at the given time. -/
  | lookup (now : ℤ)
  /-- Join whoever is asking, or become the asker. -/
  | enter
  /-- The endpoint answers. -/
  | respond (resp : Response)
  /-- There is no answer; the timeout may have passed before anything else happened. -/
  | fail (timedOut : Bool)
  /-- The body is read, or what there is of it before an error. -/
  | read (cut : Option ℕ)
  /-- The second section under the mutex, at the given time. -/
  | publish (now : ℤ)
  /-- `close(f.done)`, and return. -/
  | close
  /-- The request that was waited for is done. -/
  | wake
  /-- The context has ended while waiting. -/
  | giveUp

/-- What happens next. -/
inductive Action where
  | start (id : ℕ) (req : Request)
  /-- The context of a call ends, by cancellation or because its own deadline passed. -/
  | cancel (id : ℕ) (deadline : Bool)
  | act (id : ℕ) (act : Act)

variable (cfg : Config) (json : Json)

/-- `cached`: what is left of the cache, and a decision that has not expired. -/
def cached (decided : List (Bytes × Decision)) (key : Bytes) (now : ℤ) :
    List (Bytes × Decision) × Option Decision :=
  if cfg.cacheTTL ≤ 0 then (decided, none)
  else
    match decided.find? fun p => p.1 = key with
    | none => (decided, none)
    | some (_, d) =>
      if now < d.expires then (decided, some d) else (decided.filter fun p => p.1 ≠ key, none)

/-- `remember`: a cache that is full loses what has expired, or everything if that is not
enough. -/
def remember (decided : List (Bytes × Decision)) (key : Bytes) (a : Answer) (now : ℤ) :
    List (Bytes × Decision) :=
  let life := if 0 < a.ttl ∧ a.ttl < cfg.cacheTTL then a.ttl else cfg.cacheTTL
  let decided :=
    if cfg.cacheSize ≤ decided.length then
      let swept := decided.filter fun p => now < p.2.expires
      if cfg.cacheSize ≤ swept.length then [] else swept
    else decided
  (key, ⟨a.grant, a.err, now + life⟩) :: decided.filter fun p => p.1 ≠ key

/-- `ask` when there is no response: whether that is the caller's doing depends on how the context
of the request ended. -/
def failure (ctx : Option Err) (timedOut : Bool) : Answer :=
  if timedOut = false ∧ ctx = some .canceled then { err := some .canceled } else unavailable cfg

theorem failure_cacheable (cfg : Config) (ctx : Option Err) (timedOut : Bool) :
    (failure cfg ctx timedOut).cacheable = false := by
  unfold failure
  split
  · rfl
  · exact unavailable_cacheable

namespace Callback

variable (s : Callback)

/-- The call is now `c`. -/
def setCall (id : ℕ) (c : Call) : Callback :=
  { s with calls := Function.update s.calls id (some c) }

/-- The call goes on to `phase`. -/
def setPhase (id : ℕ) (c : Call) (phase : Phase) : Callback := s.setCall id { c with phase }

/-- What the call `id`, which is at `c`, makes of an action. -/
def act (id : ℕ) (c : Call) (act : Act) : Option Callback :=
  match c.phase, act with
  | .called, .lookup now =>
    match cached cfg s.decided (key c.req.question) now with
    | (decided, some d) => some ({ s with decided }.setPhase id c (.returned d.grant d.err))
    | (decided, none) => some ({ s with decided }.setPhase id c .missed)
  | .missed, .enter =>
    match s.asking (key c.req.question) with
    | some leader => some (s.setPhase id c (.waiting leader))
    | none =>
      some ({ s with asking := Function.update s.asking (key c.req.question) (some id) }.setPhase
        id c .asking)
  | .asking, .respond resp =>
    some ({ s with log := ⟨wire c.req.question, resp⟩ :: s.log }.setPhase id c (.reading resp))
  | .asking, .fail timedOut => some (s.setPhase id c (.answered (failure cfg c.ctx timedOut)))
  | .reading resp, .read cut =>
    let payload := resp.body.take (cut.elim maxCallbackBody (min maxCallbackBody))
    some (s.setPhase id c (.answered (answerOf cfg json c.req resp.status payload cut.isSome)))
  | .answered a, .publish now =>
    some ({ s with
      asking := Function.update s.asking (key c.req.question) none
      decided :=
        if 0 < cfg.cacheTTL ∧ a.cacheable then
          remember cfg s.decided (key c.req.question) a now
        else s.decided }.setPhase id c (.published a))
  | .published a, .close =>
    some ({ s with done := Function.update s.done id (some a) }.setPhase id c
      (.returned a.grant a.err))
  | .waiting leader, .wake =>
    match s.done leader with
    | some a => some (s.setPhase id c (.returned a.grant a.err))
    | none => none
  | .waiting _, .giveUp =>
    match c.ctx with
    | some err => some (s.setPhase id c (.returned {} (some err)))
    | none => none
  | _, _ => none

/-- One action. A call that exists is not started again, and a context ends once. -/
def step : Action → Option Callback
  | .start id req =>
    match s.calls id with
    | none => some (s.setCall id { req })
    | some _ => none
  | .cancel id deadline =>
    match s.calls id with
    | some ⟨req, none, phase⟩ =>
      some (s.setCall id ⟨req, some (if deadline then .deadlineExceeded else .canceled), phase⟩)
    | _ => none
  | .act id act =>
    match s.calls id with
    | some c => s.act cfg json id c act
    | none => none

end Callback

/-! ### What an action does -/

/-- The call `id` goes on from `c` to `phase`, and the shared state from `s` to `s'`; the new phase
is entered into `s'` afterwards. -/
inductive Acted (cfg : Config) (json : Json) (s : Callback) (id : ℕ) (c : Call) :
    Act → Callback → Phase → Prop
  | hit {now decided d} : c.phase = .called →
      cached cfg s.decided (key c.req.question) now = (decided, some d) →
      Acted cfg json s id c (.lookup now) { s with decided } (.returned d.grant d.err)
  | miss {now decided} : c.phase = .called →
      cached cfg s.decided (key c.req.question) now = (decided, none) →
      Acted cfg json s id c (.lookup now) { s with decided } .missed
  | join {leader} : c.phase = .missed → s.asking (key c.req.question) = some leader →
      Acted cfg json s id c .enter s (.waiting leader)
  | lead : c.phase = .missed → s.asking (key c.req.question) = none →
      Acted cfg json s id c .enter
        { s with asking := Function.update s.asking (key c.req.question) (some id) } .asking
  | respond {resp} : c.phase = .asking →
      Acted cfg json s id c (.respond resp)
        { s with log := ⟨wire c.req.question, resp⟩ :: s.log } (.reading resp)
  | fail {timedOut} : c.phase = .asking →
      Acted cfg json s id c (.fail timedOut) s (.answered (failure cfg c.ctx timedOut))
  | read {resp cut} : c.phase = .reading resp →
      Acted cfg json s id c (.read cut) s (.answered (answerOf cfg json c.req resp.status
        (resp.body.take (cut.elim maxCallbackBody (min maxCallbackBody))) cut.isSome))
  | publish {a now} : c.phase = .answered a →
      Acted cfg json s id c (.publish now)
        { s with
          asking := Function.update s.asking (key c.req.question) none
          decided :=
            if 0 < cfg.cacheTTL ∧ a.cacheable then
              remember cfg s.decided (key c.req.question) a now
            else s.decided } (.published a)
  | close {a} : c.phase = .published a →
      Acted cfg json s id c .close { s with done := Function.update s.done id (some a) }
        (.returned a.grant a.err)
  | wake {leader a} : c.phase = .waiting leader → s.done leader = some a →
      Acted cfg json s id c .wake s (.returned a.grant a.err)
  | giveUp {leader err} : c.phase = .waiting leader → c.ctx = some err →
      Acted cfg json s id c .giveUp s (.returned {} (some err))

variable {cfg json} {s s' : Callback} {id : ℕ} {c : Call}

theorem Acted.calls {a : Act} {s₁ : Callback} {phase : Phase}
    (h : Acted cfg json s id c a s₁ phase) : s₁.calls = s.calls := by
  cases h <;> rfl

namespace Callback

theorem acted_of_act {a : Act} (h : s.act cfg json id c a = some s') :
    ∃ s₁ phase, Acted cfg json s id c a s₁ phase ∧ s' = s₁.setPhase id c phase := by
  unfold act at h
  split at h
  next now hphase =>
    split at h
    next decided d hc => exact ⟨_, _, .hit hphase hc, (Option.some.inj h).symm⟩
    next decided hc => exact ⟨_, _, .miss hphase hc, (Option.some.inj h).symm⟩
  next hphase =>
    split at h
    next leader hl => exact ⟨_, _, .join hphase hl, (Option.some.inj h).symm⟩
    next hl => exact ⟨_, _, .lead hphase hl, (Option.some.inj h).symm⟩
  next resp hphase => exact ⟨_, _, .respond hphase, (Option.some.inj h).symm⟩
  next timedOut hphase => exact ⟨_, _, .fail hphase, (Option.some.inj h).symm⟩
  next resp cut hphase => exact ⟨_, _, .read hphase, (Option.some.inj h).symm⟩
  next a now hphase => exact ⟨_, _, .publish hphase, (Option.some.inj h).symm⟩
  next a hphase => exact ⟨_, _, .close hphase, (Option.some.inj h).symm⟩
  next leader hphase =>
    split at h
    next a ha => exact ⟨_, _, .wake hphase ha, (Option.some.inj h).symm⟩
    next => cases h
  next leader hphase =>
    split at h
    next err herr => exact ⟨_, _, .giveUp hphase herr, (Option.some.inj h).symm⟩
    next => cases h
  next => cases h

/-- What an action can do: make a call, end a context, or take a call further. -/
theorem step_cases {a : Action} (h : s.step cfg json a = some s') :
    (∃ id req, a = .start id req ∧ s.calls id = none ∧ s' = s.setCall id { req }) ∨
    (∃ id deadline c, a = .cancel id deadline ∧ s.calls id = some c ∧ c.ctx = none ∧
      s' = s.setCall id { c with
        ctx := some (if deadline then .deadlineExceeded else .canceled) }) ∨
    ∃ id act c s₁ phase, a = .act id act ∧ s.calls id = some c ∧
      Acted cfg json s id c act s₁ phase ∧ s' = s₁.setPhase id c phase := by
  cases a with
  | start id req =>
    simp only [step] at h
    split at h
    next hnone => exact .inl ⟨id, req, rfl, hnone, (Option.some.inj h).symm⟩
    next => cases h
  | cancel id deadline =>
    simp only [step] at h
    split at h
    next req phase hc =>
      exact .inr (.inl ⟨id, deadline, _, rfl, hc, rfl, (Option.some.inj h).symm⟩)
    next => cases h
  | act id act =>
    simp only [step] at h
    split at h
    next c hc =>
      obtain ⟨s₁, phase, hacted, heq⟩ := acted_of_act h
      exact .inr (.inr ⟨id, act, c, s₁, phase, rfl, hc, hacted, heq⟩)
    next => cases h

@[simp] theorem setCall_calls_self (s : Callback) (id : ℕ) (c : Call) :
    (s.setCall id c).calls id = some c := Function.update_self ..

theorem setCall_calls_of_ne (s : Callback) (c : Call) {id j : ℕ} (h : j ≠ id) :
    (s.setCall id c).calls j = s.calls j := Function.update_of_ne h ..

end Callback

/-! ### The cache -/

theorem mem_cached {decided decided' : List (Bytes × Decision)} {k : Bytes} {now : ℤ}
    {r : Option Decision} (h : cached cfg decided k now = (decided', r)) :
    (∀ p ∈ decided', p ∈ decided) ∧ ∀ d, r = some d → (k, d) ∈ decided := by
  unfold cached at h
  split at h
  · cases h
    exact ⟨fun p hp => hp, nofun⟩
  · split at h
    · cases h
      exact ⟨fun p hp => hp, nofun⟩
    next k' d hfind =>
      have hkey : k' = k := by simpa using List.find?_some hfind
      have hmem : (k, d) ∈ decided := hkey ▸ List.mem_of_find?_eq_some hfind
      split at h
      · cases h
        refine ⟨fun p hp => hp, fun d' hd' => ?_⟩
        cases hd'
        exact hmem
      · cases h
        exact ⟨fun p hp => (List.mem_filter.1 hp).1, nofun⟩

theorem mem_remember {decided : List (Bytes × Decision)} {k : Bytes} {a : Answer} {now : ℤ}
    {p : Bytes × Decision} (h : p ∈ remember cfg decided k a now) :
    p ∈ decided ∨ p.1 = k ∧ p.2.grant = a.grant ∧ p.2.err = a.err := by
  unfold remember at h
  rcases List.mem_cons.1 h with rfl | h
  · exact .inr ⟨rfl, rfl, rfl⟩
  · refine .inl ?_
    have h := (List.mem_filter.1 h).1
    split at h
    · simp only at h
      split at h
      · cases h
      · exact (List.mem_filter.1 h).1
    · exact h

namespace Sample

/-- Decisions are kept for a minute. -/
def minute : Config := { cacheTTL := 60 * 10 ^ 9 }

/-- The endpoint allows to read. -/
def yes : Bytes := [123, 34, 97, 108, 108, 111, 119, 34, 58, 116, 114, 117, 101, 125]

/-- `encoding/json`, on that answer. -/
def reader : Json where
  unmarshal b := if b = yes then some { allow := some true } else none
  valid b := b = yes

end Sample

end YCollab.Auth
