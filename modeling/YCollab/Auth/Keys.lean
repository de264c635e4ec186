import YCollab.Auth.Callback
import Mathlib.Data.Set.Function

/-!
# Whose answer a grant is

The cache and the table of requests are indexed by one string that is made of two. Grants and
refusals come from the endpoint's answers about the same document and token in every run if and
only if no two of the questions that are asked have one key, and the endpoint reads each question
as it was asked (`grants_answer_question_iff`). Document names without a zero byte are enough for
the first (`key_injOn`).
-/

namespace YCollab.Auth

open Lib0

variable {cfg : Config} {json : Json}

/-- The endpoint's answer allows what `g` says. -/
def Exchange.Grants (json : Json) (e : Exchange) (g : Grant) : Prop :=
  e.response.status = 200 ∧
    ∃ r, json.unmarshal (e.response.body.take maxCallbackBody) = some r ∧ r.allow = some true ∧
      g = ⟨sanitize r.subject, e.question.1, sanitize r.owner, r.write⟩

/-- The endpoint's answer refuses, for the given reason. A body that explains the status may have
been read in part. -/
def Exchange.Denies (json : Json) (e : Exchange) (reason : Bytes) : Prop :=
  if e.response.status = 200 then
    (decision json { document := e.question.1, token := e.question.2 }
      (e.response.body.take maxCallbackBody)).err = some (.denied reason)
  else if e.response.status = 401 ∨ e.response.status = 403 then
    ∃ n ≤ maxCallbackBody, reason = sanitize (reasonFrom json (e.response.body.take n))
  else ¬(e.response.status = 408 ∨ e.response.status = 429 ∨ 500 ≤ e.response.status) ∧
    reason = sanitize []

/-- A decision comes from an answer to the question, a grant as well as a refusal. The other errors
are no decisions. -/
def Sourced (json : Json) (log : List Exchange) (q : Question) (g : Grant) : Option Err → Prop
  | none => ∃ e ∈ log, e.question = q ∧ e.Grants json g
  | some (.denied reason) => ∃ e ∈ log, e.question = q ∧ e.Denies json reason
  | some _ => True

/-- Whatever a call has returned comes from an answer to its question. -/
def Callback.Sound (json : Json) (s : Callback) : Prop :=
  ∀ id c g err, s.calls id = some c → c.phase = .returned g err →
    Sourced json s.log c.req.question g err

/-- All calls of the run ask questions of `Q`. -/
def Asks (Q : Set Question) : Action → Prop
  | .start _ req => req.question ∈ Q
  | _ => True

theorem Sourced.mono {log log' : List Exchange} {q : Question} {g : Grant} {err : Option Err}
    (h : Sourced json log q g err) (hlog : ∀ e ∈ log, e ∈ log') : Sourced json log' q g err := by
  match err, h with
  | none, ⟨e, he, heq⟩ => exact ⟨e, hlog e he, heq⟩
  | some (.denied _), ⟨e, he, heq⟩ => exact ⟨e, hlog e he, heq⟩
  | some .unavailable, _ | some .canceled, _ | some .deadlineExceeded, _ => trivial

theorem sourced_of_err {log : List Exchange} {q : Question} {g : Grant} {err : Err}
    (h : ∀ reason, err ≠ .denied reason) : Sourced json log q g (some err) := by
  cases err with
  | denied reason => exact absurd rfl (h reason)
  | _ => trivial

theorem grants_of_answerOf (hclosed : cfg.failOpen = false) {req : Request} {resp : Response}
    {cut : Option ℕ} {a : Answer} (ha : a = answerOf cfg json req resp.status
      (resp.body.take (cut.elim maxCallbackBody (min maxCallbackBody))) cut.isSome)
    (herr : a.err = none) : Exchange.Grants json ⟨req.question, resp⟩ a.grant := by
  subst ha
  obtain ⟨hstatus, hcut, ha⟩ := answerOf_grant hclosed herr
  obtain rfl : cut = none := Option.not_isSome_iff_eq_none.1 (by simp [hcut])
  refine ⟨hstatus, ?_⟩
  rw [ha] at herr ⊢
  unfold decision at herr ⊢
  split at herr
  · cases herr
  next r hr =>
    split at herr
    · cases herr
    · cases herr
    next hallow => exact ⟨r, hr, hallow, rfl⟩

theorem denies_of_answerOf {req : Request} {resp : Response} {cut : Option ℕ} {reason : Bytes}
    (herr : (answerOf cfg json req resp.status
      (resp.body.take (cut.elim maxCallbackBody (min maxCallbackBody))) cut.isSome).err =
        some (.denied reason)) : Exchange.Denies json ⟨req.question, resp⟩ reason := by
  have hopen : (unavailable cfg).err ≠ some (.denied reason) := by
    unfold unavailable
    split <;> simp
  unfold answerOf at herr
  unfold Exchange.Denies
  split at herr
  next hstatus =>
    rw [if_pos hstatus]
    cases cut with
    | none => simpa [decision, Request.question] using herr
    | some n => exact absurd herr hopen
  next hstatus =>
    rw [if_neg hstatus]
    split at herr
    next hrefused =>
      rw [if_pos hrefused]
      refine ⟨cut.elim maxCallbackBody (min maxCallbackBody), ?_, ?_⟩
      · cases cut with
        | none => exact le_rfl
        | some n => exact min_le_left ..
      · simpa [denied] using herr.symm
    next hrefused =>
      rw [if_neg hrefused]
      split at herr
      next => exact absurd herr hopen
      next hother => exact ⟨hother, by simpa [denied] using herr.symm⟩

theorem sourced_answerOf (hclosed : cfg.failOpen = false) {log : List Exchange} {req : Request}
    {resp : Response} (hlog : ⟨req.question, resp⟩ ∈ log) (cut : Option ℕ) :
    let a := answerOf cfg json req resp.status
      (resp.body.take (cut.elim maxCallbackBody (min maxCallbackBody))) cut.isSome
    Sourced json log req.question a.grant a.err := by
  intro a
  cases herr : a.err with
  | none => exact ⟨_, hlog, rfl, grants_of_answerOf hclosed rfl herr⟩
  | some err =>
    cases err with
    | denied reason => exact ⟨_, hlog, rfl, denies_of_answerOf herr⟩
    | _ => trivial

/-! ### The invariant -/

/-- What the phase of a call says about the answer to its question. -/
def Phase.Backed (json : Json) (log : List Exchange) (q : Question) : Phase → Prop
  | .reading resp => ⟨q, resp⟩ ∈ log
  | .answered a => Sourced json log q a.grant a.err
  | .published a => Sourced json log q a.grant a.err
  | .returned g err => Sourced json log q g err
  | _ => True

theorem Phase.Backed.mono {log log' : List Exchange} {q : Question} {p : Phase}
    (h : p.Backed json log q) (hlog : ∀ e ∈ log, e ∈ log') : p.Backed json log' q := by
  cases p with
  | reading resp => exact hlog _ h
  | answered a => exact Sourced.mono h hlog
  | published a => exact Sourced.mono h hlog
  | returned g err => exact Sourced.mono h hlog
  | _ => trivial

namespace Callback

variable {s s' : Callback} {Q : Set Question}

/-- The question of a call. -/
def question? (s : Callback) (id : ℕ) : Option Question := (s.calls id).map (·.req.question)

/-- Whatever is shared under a key belongs to the one question that has it. -/
structure Backed (json : Json) (Q : Set Question) (s : Callback) : Prop where
  calls (id : ℕ) (c : Call) : s.calls id = some c →
    c.req.question ∈ Q ∧ c.phase.Backed json s.log c.req.question
  /-- The error of a context is no decision. -/
  ctx (id : ℕ) (c : Call) (err : Err) : s.calls id = some c → c.ctx = some err →
    ∀ reason, err ≠ .denied reason
  asking (k : Bytes) (leader : ℕ) : s.asking k = some leader →
    (s.question? leader).map key = some k
  waiting (id : ℕ) (c : Call) (leader : ℕ) : s.calls id = some c → c.phase = .waiting leader →
    (s.question? leader).map key = some (key c.req.question)
  done (leader : ℕ) (a : Answer) : s.done leader = some a → ∃ q ∈ Q,
    s.question? leader = some q ∧ Sourced json s.log q a.grant a.err
  decided (p : Bytes × Decision) : p ∈ s.decided → ∃ q ∈ Q,
    key q = p.1 ∧ Sourced json s.log q p.2.grant p.2.err

theorem Backed.empty : Backed json Q {} where
  calls := nofun
  ctx := nofun
  asking := nofun
  waiting := nofun
  done := nofun
  decided := nofun

/-- A call with the question `q` goes on to `phase`, and what is shared from that of `s` to that of
`s'`; whatever is new belongs to the question. -/
structure Adds (json : Json) (s : Callback) (id : ℕ) (q : Question) (s' : Callback)
    (phase : Phase) : Prop where
  log : ∀ e ∈ s.log, e ∈ s'.log
  backed : phase.Backed json s'.log q
  waiting (leader : ℕ) : phase = .waiting leader → (s.question? leader).map key = some (key q)
  asking (k : Bytes) (leader : ℕ) : s'.asking k = some leader →
    s.asking k = some leader ∨ leader = id ∧ k = key q
  done (leader : ℕ) (a : Answer) : s'.done leader = some a →
    s.done leader = some a ∨ leader = id ∧ Sourced json s'.log q a.grant a.err
  decided : ∀ p ∈ s'.decided,
    p ∈ s.decided ∨ p.1 = key q ∧ Sourced json s'.log q p.2.grant p.2.err

theorem Adds.of_phase {id : ℕ} {q : Question} {phase : Phase} (hphase : phase.Backed json s.log q)
    (hwaiting : ∀ leader, phase = .waiting leader →
      (s.question? leader).map key = some (key q)) : Adds json s id q s phase where
  log _ he := he
  backed := hphase
  waiting := hwaiting
  asking _ _ h := .inl h
  done _ _ h := .inl h
  decided _ h := .inl h

theorem Backed.setCall (h : Backed json Q s) (hcalls : s'.calls = s.calls) {id : ℕ} {c : Call}
    (hQ : c.req.question ∈ Q) (hsame : ∀ c', s.calls id = some c' → c'.req = c.req)
    (hctx : ∀ err, c.ctx = some err → ∀ reason, err ≠ .denied reason)
    (hadds : Adds json s id c.req.question s' c.phase) : Backed json Q (s'.setCall id c) := by
  have hself : (s'.setCall id c).question? id = some c.req.question := by
    simp [question?]
  have hkeep : ∀ j q, s.question? j = some q → (s'.setCall id c).question? j = some q := by
    intro j q hq
    by_cases hj : j = id
    · subst hj
      rw [hself]
      obtain ⟨c', hc', rfl⟩ := Option.map_eq_some_iff.1 hq
      rw [hsame c' hc']
    · rwa [question?, setCall_calls_of_ne _ _ hj, hcalls]
  have hkeepKey : ∀ j k, (s.question? j).map key = some k →
      ((s'.setCall id c).question? j).map key = some k := by
    intro j k hk
    obtain ⟨q, hq, rfl⟩ := Option.map_eq_some_iff.1 hk
    rw [hkeep j q hq]
    rfl
  refine ⟨fun j c' hc' => ?_, fun j c' err hc' herr => ?_, fun k leader hk => ?_,
    fun j c' leader hc' hp => ?_, fun leader a ha => ?_, fun p hp => ?_⟩
  · rcases Machine.set_eq_some.1 hc' with ⟨rfl, rfl⟩ | ⟨-, hc'⟩
    · exact ⟨hQ, hadds.backed⟩
    · rw [hcalls] at hc'
      exact ⟨(h.calls j c' hc').1, (h.calls j c' hc').2.mono hadds.log⟩
  · rcases Machine.set_eq_some.1 hc' with ⟨rfl, rfl⟩ | ⟨-, hc'⟩
    · exact hctx err herr
    · rw [hcalls] at hc'
      exact h.ctx j c' err hc' herr
  · rcases hadds.asking k leader hk with hold | ⟨rfl, rfl⟩
    · exact hkeepKey _ _ (h.asking k leader hold)
    · rw [hself]
      rfl
  · rcases Machine.set_eq_some.1 hc' with ⟨rfl, rfl⟩ | ⟨-, hc'⟩
    · exact hkeepKey _ _ (hadds.waiting leader hp)
    · rw [hcalls] at hc'
      exact hkeepKey _ _ (h.waiting j c' leader hc' hp)
  · rcases hadds.done leader a ha with hold | ⟨rfl, hnew⟩
    · obtain ⟨q, hq, hleader, hsrc⟩ := h.done leader a hold
      exact ⟨q, hq, hkeep leader q hleader, hsrc.mono hadds.log⟩
    · exact ⟨_, hQ, hself, hnew⟩
  · rcases hadds.decided p hp with hold | ⟨hk, hnew⟩
    · obtain ⟨q, hq, hk, hsrc⟩ := h.decided p hold
      exact ⟨q, hq, hk, hsrc.mono hadds.log⟩
    · exact ⟨_, hQ, hk.symm, hnew⟩

/-- **One call goes on.** What it finds under its key is about its own question, as no other
question has that key. -/
theorem Backed.adds (h : Backed json Q s) (hclosed : cfg.failOpen = false)
    (hwire : ∀ q ∈ Q, wire q = q) (hinj : Set.InjOn key Q) {id : ℕ} {c : Call}
    (hc : s.calls id = some c) {a : Act} {s₁ : Callback} {phase : Phase}
    (hacted : Acted cfg json s id c a s₁ phase) : Adds json s id c.req.question s₁ phase := by
  obtain ⟨hQ, hbacked⟩ := h.calls id c hc
  cases hacted with
  | @hit now decided d hphase hcached =>
    obtain ⟨hsub, hmem⟩ := mem_cached hcached
    obtain ⟨q, hq, hk, hsrc⟩ := h.decided _ (hmem d rfl)
    obtain rfl := hinj hq hQ hk
    exact ⟨fun _ he => he, hsrc, nofun, fun _ _ h => .inl h, fun _ _ h => .inl h,
      fun p hp => .inl (hsub p hp)⟩
  | @miss now decided hphase hcached =>
    obtain ⟨hsub, -⟩ := mem_cached hcached
    exact ⟨fun _ he => he, trivial, nofun, fun _ _ h => .inl h, fun _ _ h => .inl h,
      fun p hp => .inl (hsub p hp)⟩
  | @join leader hphase hleader =>
    refine .of_phase trivial fun leader' heq => ?_
    cases heq
    exact h.asking _ _ hleader
  | lead hphase hnone =>
    refine ⟨fun _ he => he, trivial, nofun, fun k leader hk => ?_, fun _ _ h => .inl h,
      fun _ h => .inl h⟩
    rcases Machine.set_eq_some.1 hk with ⟨rfl, rfl⟩ | ⟨-, hk⟩
    · exact .inr ⟨rfl, rfl⟩
    · exact .inl hk
  | @respond resp hphase =>
    refine ⟨fun _ he => List.mem_cons_of_mem _ he, ?_, nofun, fun _ _ h => .inl h,
      fun _ _ h => .inl h, fun _ h => .inl h⟩
    simp only [Phase.Backed, hwire _ hQ]
    exact List.mem_cons_self
  | @fail timedOut hphase =>
    refine .of_phase ?_ nofun
    simp only [Phase.Backed, failure]
    split
    · exact sourced_of_err (by simp)
    · rw [unavailable_err hclosed]
      exact sourced_of_err (by simp)
  | @read resp cut hphase =>
    rw [hphase] at hbacked
    exact .of_phase (sourced_answerOf hclosed hbacked cut) nofun
  | @publish a now hphase =>
    rw [hphase] at hbacked
    refine ⟨fun _ he => he, hbacked, nofun, fun k leader hk => .inl (Machine.unset_eq_some.1 hk).2,
      fun _ _ h => .inl h, fun p hp => ?_⟩
    simp only at hp
    split at hp
    · rcases mem_remember hp with hold | ⟨hk, hg, herr⟩
      · exact .inl hold
      · exact .inr ⟨hk, hg ▸ herr ▸ hbacked⟩
    · exact .inl hp
  | @close a hphase =>
    rw [hphase] at hbacked
    refine ⟨fun _ he => he, hbacked, nofun, fun _ _ h => .inl h, fun leader a' ha' => ?_,
      fun _ h => .inl h⟩
    rcases Machine.set_eq_some.1 ha' with ⟨rfl, rfl⟩ | ⟨-, ha'⟩
    · exact .inr ⟨rfl, hbacked⟩
    · exact .inl ha'
  | @wake leader a hphase hdone =>
    obtain ⟨q, hq, hleader, hsrc⟩ := h.done leader a hdone
    have hk := h.waiting id c leader hc hphase
    rw [hleader] at hk
    obtain rfl := hinj hq hQ (Option.some.inj hk)
    exact .of_phase hsrc nofun
  | giveUp hphase hctx => exact .of_phase (sourced_of_err (h.ctx id c _ hc hctx)) nofun

theorem Backed.step (h : Backed json Q s) (hclosed : cfg.failOpen = false)
    (hwire : ∀ q ∈ Q, wire q = q) (hinj : Set.InjOn key Q) {a : Action} (ha : Asks Q a)
    (hstep : s.step cfg json a = some s') : Backed json Q s' := by
  obtain ⟨id, req, rfl, hnone, rfl⟩ | ⟨id, deadline, c, rfl, hc, -, rfl⟩ |
    ⟨id, act, c, s₁, phase, rfl, hc, hacted, rfl⟩ := step_cases hstep
  · exact h.setCall rfl ha (fun c hc => by cases hnone.symm.trans hc) nofun
      (.of_phase trivial nofun)
  · obtain ⟨hQ, hbacked⟩ := h.calls id c hc
    refine h.setCall rfl hQ (fun c' hc' => by cases hc.symm.trans hc'; rfl) (fun err herr => ?_)
      (.of_phase hbacked fun leader hp => h.waiting id c leader hc hp)
    cases herr
    split <;> simp
  · refine h.setCall hacted.calls (h.calls id c hc).1
      (fun c' hc' => by cases hc.symm.trans hc'; rfl) (fun err => h.ctx id c err hc) ?_
    exact h.adds hclosed hwire hinj hc hacted

theorem Backed.run (hclosed : cfg.failOpen = false) (hwire : ∀ q ∈ Q, wire q = q)
    (hinj : Set.InjOn key Q) {l : List Action} (hl : ∀ a ∈ l, Asks Q a)
    (hrun : Machine.run (Callback.step cfg json) {} l = some s) : Backed json Q s := by
  have halong : Machine.Along (Callback.step cfg json) (fun _ a => Asks Q a) {} l :=
    .of_forall (fun a ha _ => hl a ha) _
  exact Machine.invariant (fun h ha hs => h.step hclosed hwire hinj ha hs) .empty halong hrun

/-! ### Runs in which the property fails -/

/-- A call that makes its own request. -/
def solo (req : Request) (resp : Response) : List Action :=
  [.start 0 req, .act 0 (.lookup 0), .act 0 .enter, .act 0 (.respond resp), .act 0 (.read none),
    .act 0 (.publish 0), .act 0 .close]

/-- What it is granted. -/
def granted (req : Request) (r : CallbackResponse) : Grant :=
  ⟨sanitize r.subject, req.document, sanitize r.owner, r.write⟩

/-- When that expires. -/
def expiry (cfg : Config) (r : CallbackResponse) : ℤ :=
  if 0 < ttlOf r.ttl ∧ ttlOf r.ttl < cfg.cacheTTL then ttlOf r.ttl else cfg.cacheTTL

theorem run_solo (httl : 0 < cfg.cacheTTL) {body : Bytes} {r : CallbackResponse}
    (hbody : body.length ≤ maxCallbackBody) (hjson : json.unmarshal body = some r)
    (hallow : r.allow = some true) (req : Request) :
    ∃ s, Machine.run (step cfg json) {} (solo req ⟨200, body⟩) = some s ∧
      s.calls 0 = some ⟨req, none, .returned (granted req r) none⟩ ∧ s.calls 1 = none ∧
      s.log = [⟨wire req.question, ⟨200, body⟩⟩] ∧
      s.decided = [(key req.question, ⟨granted req r, none, expiry cfg r⟩)] := by
  have hcold : ∀ k, cached cfg [] k 0 = ([], none) := by
    simp [cached]
  have hanswer : answerOf cfg json req 200 (body.take maxCallbackBody) false =
      { grant := granted req r, ttl := ttlOf r.ttl, cacheable := true } := by
    simp [answerOf, decision, List.take_of_length_le hbody, hjson, hallow, granted]
  have hremember : remember cfg [] (key req.question)
      { grant := granted req r, ttl := ttlOf r.ttl, cacheable := true } 0 =
        [(key req.question, ⟨granted req r, none, expiry cfg r⟩)] := by
    simp [remember, expiry]
  simp [solo, Machine.run_cons, step, act, setPhase, setCall, hcold, hanswer, httl, hremember]

theorem run_hit (json : Json) (httl : 0 < cfg.cacheTTL) {s : Callback} (req : Request) {g : Grant}
    {r : CallbackResponse} (hnone : s.calls 1 = none)
    (hdecided : s.decided = [(key req.question, ⟨g, none, expiry cfg r⟩)]) :
    ∃ s', Machine.run (step cfg json) s [.start 1 req, .act 1 (.lookup 0)] = some s' ∧
      s'.calls 1 = some ⟨req, none, .returned g none⟩ ∧ s'.log = s.log := by
  have hlive : 0 < expiry cfg r := by
    unfold expiry
    split
    next h => exact h.1
    next => exact httl
  have hhit : cached cfg s.decided (key req.question) 0 =
      (s.decided, some ⟨g, none, expiry cfg r⟩) := by
    simp [cached, hdecided, hlive, httl]
  simp [Machine.run_cons, step, act, setPhase, setCall, hnone, hhit]

end Callback

theorem takeWhile_key {q : Question} (h : 0 ∉ q.1) : (key q).takeWhile (· ≠ 0) = q.1 := by
  have hall : ∀ b ∈ q.1, (fun b : UInt8 => decide (b ≠ 0)) b = true := by
    intro b hb
    simpa using ne_of_mem_of_not_mem hb h
  rw [key, List.takeWhile_append_of_pos hall]
  simp

theorem key_injOn : Set.InjOn key {q | 0 ∉ q.1} := by
  intro q hq q' hq' hkey
  have hdoc : q.1 = q'.1 := by
    rw [← takeWhile_key hq, hkey, takeWhile_key hq']
  rw [key, key, hdoc, List.append_cancel_left_eq, List.cons.injEq] at hkey
  exact Prod.ext hdoc hkey.2

/-- **A grant or a refusal always answers the question that was asked** if and only if the endpoint
reads the questions as they are asked and no two of them have one key. The endpoint can grant
something. -/
theorem grants_answer_question_iff (httl : 0 < cfg.cacheTTL) (hclosed : cfg.failOpen = false)
    {body : Bytes} {r : CallbackResponse} (hbody : body.length ≤ maxCallbackBody)
    (hjson : json.unmarshal body = some r) (hallow : r.allow = some true) (Q : Set Question) :
    (∀ l s, (∀ a ∈ l, Asks Q a) → Machine.run (Callback.step cfg json) {} l = some s →
      s.Sound json) ↔ (∀ q ∈ Q, wire q = q) ∧ Set.InjOn key Q := by
  constructor
  · intro hsound
    have hwire : ∀ q ∈ Q, wire q = q := by
      intro q hq
      obtain ⟨s, hrun, hcall, -, hlog, -⟩ :=
        Callback.run_solo httl hbody hjson hallow { document := q.1, token := q.2 }
      obtain ⟨e, he, heq, -⟩ := hsound _ s (by simp [Callback.solo, Asks, Request.question, hq])
        hrun 0 _ _ none hcall rfl
      rw [hlog, List.mem_singleton] at he
      rw [he] at heq
      exact heq
    refine ⟨hwire, fun q hq q' hq' hkey => ?_⟩
    obtain ⟨s, hrun, hcall, hnone, hlog, hdecided⟩ :=
      Callback.run_solo httl hbody hjson hallow { document := q.1, token := q.2 }
    obtain ⟨s', hrun', hcall', hlog'⟩ := Callback.run_hit json httl
      { document := q'.1, token := q'.2 } hnone (hkey ▸ hdecided)
    have hboth := Machine.run_append (Callback.step cfg json) {}
      (Callback.solo { document := q.1, token := q.2 } ⟨200, body⟩)
      [.start 1 { document := q'.1, token := q'.2 }, .act 1 (.lookup 0)]
    rw [hrun, Option.bind_some, hrun'] at hboth
    obtain ⟨e, he, heq, -⟩ := hsound _ s'
      (by simp [Callback.solo, Asks, Request.question, hq, hq']) hboth 1 _ _ none hcall' rfl
    rw [hlog', hlog, List.mem_singleton] at he
    rw [he] at heq
    exact (hwire q hq).symm.trans heq
  · rintro ⟨hwire, hinj⟩ l s hl hrun id c g err hc hphase
    have hbacked := ((Callback.Backed.run hclosed hwire hinj hl hrun).calls id c hc).2
    rw [hphase] at hbacked
    exact hbacked

/-- Questions about documents `a` and `ab`. -/
theorem letters_answered : let Q : Set Question := {([97], [98]), ([97, 98], [99])}
    ∀ l s, (∀ a ∈ l, Asks Q a) →
      Machine.run (Callback.step Sample.minute Sample.reader) {} l = some s →
        s.Sound Sample.reader := by
  intro Q
  have hread : Sample.reader.unmarshal Sample.yes = some { allow := some true } := rfl
  refine (grants_answer_question_iff (by decide) rfl (by decide) hread rfl Q).2
    ⟨?_, key_injOn.mono ?_⟩
  · rintro q (rfl | rfl) <;> decide
  · rintro q (rfl | rfl) <;> decide

/-- **The answer about one document decides about another.** The endpoint was only ever asked about
document `a` and token `b\0c`; the call that asks about document `a\0b` and token `c` finds its
answer in the cache. -/
theorem other_document_granted : ∃ s,
    Machine.run (Callback.step Sample.minute Sample.reader) {}
      (Callback.solo { document := [97], token := [98, 0, 99] } ⟨200, Sample.yes⟩ ++
        [.start 1 { document := [97, 0, 98], token := [99] }, .act 1 (.lookup 0)]) = some s ∧
    s.calls 1 = some ⟨{ document := [97, 0, 98], token := [99] }, none,
      .returned { doc := [97] } none⟩ ∧
    s.log = [⟨([97], [98, 0, 99]), ⟨200, Sample.yes⟩⟩] :=
  ⟨_, rfl, rfl, rfl⟩

end YCollab.Auth
