import YCollab.Auth.Keys

/-!
# Calls that are cancelled

Any number of calls ask the same question, and the endpoint would grant it to each of them. The
request that several of them share is made with the context of one, and so its cancellation is
everybody's (`waiter_cancelled`).

`cancellation_stays_private` says when it is not: nobody may be waiting for a request when its
caller is cancelled, and nobody may join it afterwards, unless the endpoint's decision is there
already. Then a call that is not cancelled gets the grant: it never returns anything else
(`Served`), takes six actions at most, and as long as it has not returned, it, the call it waits
for or the one whose request is under way can go on.
-/

namespace YCollab.Auth

open Lib0

variable {cfg : Config} {json : Json} {q : Question}

/-- The endpoint answers the question with a grant. -/
def Response.Grants (json : Json) (q : Question) (resp : Response) (g : Grant) : Prop :=
  Exchange.Grants json ⟨q, resp⟩ g

/-- The endpoint has granted the question. -/
def Granted (json : Json) (q : Question) (log : List Exchange) (g : Grant) (err : Option Err) :
    Prop :=
  err = none ∧ ∃ e ∈ log, e.response.Grants json q g

/-- The call has made a request and there is no decision yet. -/
def Phase.Open : Phase → Prop
  | .asking => True
  | .reading _ => True
  | .answered a => a.cacheable = false
  | .published a => a.cacheable = false
  | _ => False

/-- Every call asks `q`, and the endpoint answers every request with a grant and in time; a request
can only fail if the context of its caller has ended. -/
def Dependable (json : Json) (q : Question) (s : Callback) : Action → Prop
  | .start _ req => req.question = q
  | .act _ (.respond resp) => ∃ g, resp.Grants json q g
  | .act id (.fail timedOut) => timedOut = false ∧ ∀ c, s.calls id = some c → c.ctx ≠ none
  | .act id (.read (some _)) => ∀ c, s.calls id = some c → c.ctx ≠ none
  | _ => True

/-- Nobody is cancelled while others wait for the answer to its request, and nobody joins the
request of a call that was cancelled, unless the decision is there. -/
def Considerate (q : Question) (s : Callback) : Action → Prop
  | .cancel id _ => ∀ c, s.calls id = some c → c.phase.Open →
      ∀ j c', s.calls j = some c' → c'.phase ≠ .waiting id
  | .act id .enter => ∀ c, s.calls id = some c → c.phase = .missed →
      ∀ leader, s.asking (key q) = some leader →
        ∀ c', s.calls leader = some c' → c'.phase.Open → c'.ctx = none
  | _ => True

theorem answerOf_of_grants (cfg : Config) {req : Request} (hq : req.question = q) {resp : Response} {g : Grant}
    (h : resp.Grants json q g) :
    let a := answerOf cfg json req resp.status (resp.body.take maxCallbackBody) false
    a.cacheable = true ∧ a.err = none ∧ resp.Grants json q a.grant := by
  obtain ⟨hstatus, r, hr, hallow, -⟩ := h
  have hr' : json.unmarshal (resp.body.take maxCallbackBody) = some r := hr
  have hans : answerOf cfg json req resp.status (resp.body.take maxCallbackBody) false =
      { grant := ⟨sanitize r.subject, q.1, sanitize r.owner, r.write⟩
        ttl := ttlOf r.ttl
        cacheable := true } := by
    have hstatus' : resp.status = 200 := hstatus
    simp [answerOf, decision, hstatus', hr', hallow, ← hq, Request.question]
  rw [hans]
  exact ⟨rfl, rfl, hstatus, r, hr, hallow, rfl⟩

/-! ### The invariant -/

/-- What the phase of a call, whose context has ended with `ctx`, says about the answer. -/
def Phase.Served (json : Json) (q : Question) (log : List Exchange) (ctx : Option Err) :
    Phase → Prop
  | .reading resp => (∃ g, resp.Grants json q g) ∧ ∃ e ∈ log, e.response = resp
  | .answered a => (ctx = none → a.cacheable) ∧ (a.cacheable → Granted json q log a.grant a.err)
  | .published a => (ctx = none → a.cacheable) ∧ (a.cacheable → Granted json q log a.grant a.err)
  | .returned g err => ctx = none → Granted json q log g err
  | _ => True

theorem Granted.mono {log log' : List Exchange} {g : Grant} {err : Option Err}
    (h : Granted json q log g err) (hlog : ∀ e ∈ log, e ∈ log') : Granted json q log' g err := by
  obtain ⟨herr, e, he, hg⟩ := h
  exact ⟨herr, e, hlog e he, hg⟩

theorem Phase.Served.mono {log log' : List Exchange} {ctx : Option Err} {p : Phase}
    (h : p.Served json q log ctx) (hlog : ∀ e ∈ log, e ∈ log') : p.Served json q log' ctx := by
  cases p with
  | reading resp =>
    obtain ⟨hg, e, he, heq⟩ := h
    exact ⟨hg, e, hlog e he, heq⟩
  | answered a => exact ⟨h.1, fun hc => (h.2 hc).mono hlog⟩
  | published a => exact ⟨h.1, fun hc => (h.2 hc).mono hlog⟩
  | returned g err => exact fun hctx => (h hctx).mono hlog
  | _ => trivial

theorem Phase.Served.cancel {log : List Exchange} {ctx : Option Err} {p : Phase} {err : Err}
    (h : p.Served json q log ctx) : p.Served json q log (some err) := by
  cases p with
  | reading resp => exact h
  | answered a => exact ⟨nofun, h.2⟩
  | published a => exact ⟨nofun, h.2⟩
  | returned g err => exact nofun
  | _ => trivial

namespace Callback

variable {s s' : Callback}

/-- Those who wait for the request of this call will be granted the question. -/
def Leads (json : Json) (q : Question) (s : Callback) (leader : ℕ) (c : Call) : Prop :=
  match c.phase with
  | .asking => c.ctx = none
  | .reading _ => c.ctx = none
  | .answered a => a.cacheable
  | .published a => a.cacheable
  | .returned _ _ => ∃ a, s.done leader = some a ∧ Granted json q s.log a.grant a.err
  | _ => False

/-- A call whose request may be in the table. -/
def InTable (c : Call) : Prop :=
  match c.phase with
  | .asking => True
  | .reading _ => True
  | .answered _ => True
  | _ => False

/-- Everybody who was not cancelled is on the way to the grant. -/
structure Served (json : Json) (q : Question) (s : Callback) : Prop where
  calls (id : ℕ) (c : Call) : s.calls id = some c →
    c.req.question = q ∧ c.phase.Served json q s.log c.ctx
  asking (k : Bytes) (leader : ℕ) : s.asking k = some leader →
    k = key q ∧ ∃ c, s.calls leader = some c ∧ InTable c
  waiting (id : ℕ) (c : Call) (leader : ℕ) : s.calls id = some c → c.phase = .waiting leader →
    ∃ c', s.calls leader = some c' ∧ s.Leads json q leader c'
  done (leader : ℕ) (a : Answer) : s.done leader = some a →
    ∃ c g err, s.calls leader = some c ∧ c.phase = .returned g err
  decided : ∀ p ∈ s.decided, Granted json q s.log p.2.grant p.2.err

theorem Served.empty : Served json q {} := ⟨nofun, nofun, nofun, nofun, nofun⟩

/-- The call `id` becomes `c`, and what is shared goes from that of `s` to that of `s'`. -/
structure Goes (json : Json) (q : Question) (s : Callback) (id : ℕ) (s' : Callback) (c : Call) :
    Prop where
  log : ∀ e ∈ s.log, e ∈ s'.log
  served : c.phase.Served json q s'.log c.ctx
  asking (k : Bytes) (leader : ℕ) : s'.asking k = some leader →
    if leader = id then k = key q ∧ InTable c else s.asking k = some leader
  done (leader : ℕ) : leader ≠ id → s'.done leader = s.done leader
  finished (a : Answer) : s'.done id = some a → ∃ g err, c.phase = .returned g err
  /-- Who waits for this call still waits for the grant. -/
  leads (j : ℕ) (cj c₀ : Call) : s.calls j = some cj → cj.phase = .waiting id →
    s.calls id = some c₀ → s.Leads json q id c₀ → s'.Leads json q id c
  waiting (leader : ℕ) : c.phase = .waiting leader →
    leader ≠ id ∧ ∃ c', s.calls leader = some c' ∧ s.Leads json q leader c'
  decided : ∀ p ∈ s'.decided, p ∈ s.decided ∨ Granted json q s'.log p.2.grant p.2.err

theorem Leads.mono {leader : ℕ} {c : Call} (h : s.Leads json q leader c)
    (hlog : ∀ e ∈ s.log, e ∈ s'.log) (hdone : s'.done leader = s.done leader) :
    s'.Leads json q leader c := by
  unfold Leads at h ⊢
  split at h
  all_goals first
    | exact h
    | skip
  obtain ⟨a, ha, hg⟩ := h
  exact ⟨a, hdone.trans ha, hg.mono hlog⟩

theorem Served.setCall (h : Served json q s) (hcalls : s'.calls = s.calls) {id : ℕ} {c : Call}
    (hq : c.req.question = q) (hgoes : Goes json q s id s' c) :
    Served json q (s'.setCall id c) := by
  have hother : ∀ leader c', leader ≠ id → s.calls leader = some c' → s.Leads json q leader c' →
      ∃ c'', (s'.setCall id c).calls leader = some c'' ∧
        (s'.setCall id c).Leads json q leader c'' := by
    intro leader c' hid hc' hl
    refine ⟨c', ?_, hl.mono hgoes.log (hgoes.done leader hid)⟩
    rw [setCall_calls_of_ne _ _ hid, hcalls, hc']
  refine ⟨fun j c' hc' => ?_, fun k leader hk => ?_, fun j c' leader hc' hp => ?_,
    fun leader a ha => ?_, fun p hp => ?_⟩
  · rcases Machine.set_eq_some.1 hc' with ⟨rfl, rfl⟩ | ⟨-, hc'⟩
    · exact ⟨hq, hgoes.served⟩
    · rw [hcalls] at hc'
      exact ⟨(h.calls j c' hc').1, (h.calls j c' hc').2.mono hgoes.log⟩
  · have hnew := hgoes.asking k leader hk
    split at hnew
    next hid =>
      subst hid
      exact ⟨hnew.1, c, setCall_calls_self .., hnew.2⟩
    next hid =>
      obtain ⟨hkey, c', hc', htable⟩ := h.asking k leader hnew
      refine ⟨hkey, c', ?_, htable⟩
      rw [setCall_calls_of_ne _ _ hid, hcalls, hc']
  · rcases Machine.set_eq_some.1 hc' with ⟨rfl, rfl⟩ | ⟨-, hcj⟩
    · obtain ⟨hid, c', hc', hl⟩ := hgoes.waiting leader hp
      exact hother leader c' hid hc' hl
    · rw [hcalls] at hcj
      obtain ⟨c'', hc'', hl⟩ := h.waiting j c' leader hcj hp
      by_cases hid : leader = id
      · subst hid
        exact ⟨c, setCall_calls_self .., hgoes.leads j c' c'' hcj hp hc'' hl⟩
      · exact hother leader c'' hid hc'' hl
  · by_cases hid : leader = id
    · subst hid
      obtain ⟨g, err, hp⟩ := hgoes.finished a ha
      exact ⟨c, g, err, setCall_calls_self .., hp⟩
    · obtain ⟨c', g, err, hc', hp⟩ := h.done leader a ((hgoes.done leader hid).symm.trans ha)
      refine ⟨c', g, err, ?_, hp⟩
      rw [setCall_calls_of_ne _ _ hid, hcalls, hc']
  · exact (hgoes.decided p hp).elim (fun hold => (h.decided p hold).mono hgoes.log) fun hg => hg

theorem Served.inTable (h : Served json q s) {id : ℕ} {c : Call} (hc : s.calls id = some c)
    {k : Bytes} (hk : s.asking k = some id) : k = key q ∧ InTable c := by
  obtain ⟨hkey, c', hc', htable⟩ := h.asking k id hk
  cases hc.symm.trans hc'
  exact ⟨hkey, htable⟩

theorem Served.done_eq_none (h : Served json q s) {id : ℕ} {c : Call} (hc : s.calls id = some c)
    (hp : ∀ g err, c.phase ≠ .returned g err) : s.done id = none := by
  cases hd : s.done id with
  | none => rfl
  | some a =>
    obtain ⟨c', g, err, hc', hp'⟩ := h.done id a hd
    cases hc.symm.trans hc'
    exact absurd hp' (hp g err)

theorem Served.asking_of_inTable (h : Served json q s) {id : ℕ} {c c' : Call}
    (hc : s.calls id = some c) (htable : InTable c → InTable c') (k : Bytes) (leader : ℕ)
    (hk : s.asking k = some leader) :
    if leader = id then k = key q ∧ InTable c' else s.asking k = some leader := by
  split
  next hid =>
    subst hid
    obtain ⟨hkey, hin⟩ := h.inTable hc hk
    exact ⟨hkey, htable hin⟩
  next => exact hk

theorem leads_of_phase {id : ℕ} {c c' : Call} (hc : s.calls id = some c)
    (hlead : s.Leads json q id c → s'.Leads json q id c') (j : ℕ) (cj c₀ : Call)
    (_ : s.calls j = some cj) (_ : cj.phase = .waiting id) (hc₀ : s.calls id = some c₀)
    (h : s.Leads json q id c₀) : s'.Leads json q id c' := by
  cases hc.symm.trans hc₀
  exact hlead h

theorem Served.goes_aside (h : Served json q s) {id : ℕ} {c : Call} (hc : s.calls id = some c)
    {s₁ : Callback} {phase : Phase} (hp : ∀ g err, c.phase ≠ .returned g err)
    (hasking : s₁.asking = s.asking) (hdone : s₁.done = s.done) (hlog : ∀ e ∈ s.log, e ∈ s₁.log)
    (hserved : phase.Served json q s₁.log c.ctx) (htable : InTable c → InTable { c with phase })
    (hleads : s.Leads json q id c → s₁.Leads json q id { c with phase })
    (hwaiting : ∀ leader, phase = .waiting leader →
      leader ≠ id ∧ ∃ c', s.calls leader = some c' ∧ s.Leads json q leader c')
    (hdecided : ∀ p ∈ s₁.decided, p ∈ s.decided) : Goes json q s id s₁ { c with phase } where
  log := hlog
  served := hserved
  asking k leader hk := h.asking_of_inTable hc htable k leader (hasking ▸ hk)
  done leader _ := congrFun hdone leader
  finished a hd := by
    rw [hdone, h.done_eq_none hc hp] at hd
    cases hd
  leads := leads_of_phase hc hleads
  waiting := hwaiting
  decided p hp := .inl (hdecided p hp)

/-- Who joins a request waits for a call that leads to the grant. -/
theorem Served.join (h : Served json q s) {id leader : ℕ} {c : Call} (hc : s.calls id = some c)
    (hphase : c.phase = .missed) (hcons : Considerate q s (.act id .enter))
    (hleader : s.asking (key q) = some leader) :
    leader ≠ id ∧ ∃ c', s.calls leader = some c' ∧ s.Leads json q leader c' := by
  obtain ⟨-, c', hc', htable⟩ := h.asking _ _ hleader
  have hne : leader ≠ id := by
    rintro rfl
    cases hc.symm.trans hc'
    simp [InTable, hphase] at htable
  have hopen := hcons c hc hphase leader hleader c' hc'
  have hserved := (h.calls leader c' hc').2
  refine ⟨hne, c', hc', ?_⟩
  unfold InTable at htable
  unfold Leads
  split at htable
  next hp => simpa [hp] using hopen (by simp [Phase.Open, hp])
  next resp hp => simpa [hp] using hopen (by simp [Phase.Open, hp])
  next a hp =>
    simp only [hp]
    cases hca : a.cacheable with
    | true => rfl
    | false =>
      -- Without a decision the leader would have been cancelled.
      rw [hp] at hserved hopen
      rw [← hca]
      exact hserved.1 (hopen hca)
  next => exact htable.elim

theorem Served.goes_lead (h : Served json q s) {id : ℕ} {c : Call} (hc : s.calls id = some c)
    (hphase : c.phase = .missed) : Goes json q s id
      { s with asking := Function.update s.asking (key c.req.question) (some id) }
      { c with phase := .asking } := by
  refine ⟨fun _ he => he, trivial, fun k leader hk => ?_, fun _ _ => rfl, fun a hd => ?_,
    leads_of_phase hc (by simp [Leads, hphase]), by simp, fun p hp => .inl hp⟩
  · rcases Machine.set_eq_some.1 hk with ⟨rfl, rfl⟩ | ⟨-, hk⟩
    · rw [if_pos rfl]
      exact ⟨congrArg key (h.calls _ c hc).1, trivial⟩
    · exact h.asking_of_inTable hc (by simp [InTable, hphase]) k leader hk
  · simp [h.done_eq_none hc (by simp [hphase])] at hd

theorem Served.goes_fail (h : Served json q s) {id : ℕ} {c : Call} (hc : s.calls id = some c)
    (hphase : c.phase = .asking) (hctx : c.ctx ≠ none) (timedOut : Bool) :
    Goes json q s id s { c with phase := .answered (failure cfg c.ctx timedOut) } := by
  refine h.goes_aside hc (by simp [hphase]) rfl rfl (fun _ he => he)
    ⟨fun hnone => absurd hnone hctx, fun hca => ?_⟩ (fun _ => trivial) (fun hl => ?_) (by simp)
    fun p hp => hp
  · rw [failure_cacheable] at hca
    cases hca
  · simp only [Leads, hphase] at hl
    exact absurd hl hctx

/-- Reading the body gives the decision, unless the caller is cancelled meanwhile. -/
theorem Served.goes_read (h : Served json q s) {id : ℕ} {c : Call} (hc : s.calls id = some c)
    {resp : Response} (hphase : c.phase = .reading resp) {cut : Option ℕ}
    (hdep : Dependable json q s (.act id (.read cut))) : Goes json q s id s { c with
      phase := .answered (answerOf cfg json c.req resp.status
        (resp.body.take (cut.elim maxCallbackBody (min maxCallbackBody))) cut.isSome) } := by
  obtain ⟨hq, hserved⟩ := h.calls id c hc
  rw [hphase] at hserved
  obtain ⟨⟨g, hg⟩, e, he, rfl⟩ := hserved
  refine h.goes_aside hc (by simp [hphase]) rfl rfl (fun _ he => he) ?_ (fun _ => trivial)
    (fun hl => ?_) (by simp) fun p hp => hp
  · cases cut with
    | none =>
      obtain ⟨hca, herr, hgrant⟩ := answerOf_of_grants cfg hq hg
      exact ⟨fun _ => hca, fun _ => ⟨herr, e, he, hgrant⟩⟩
    | some n =>
      refine ⟨fun hnone => absurd hnone (hdep c hc), fun hca => ?_⟩
      have hstatus : e.response.status = 200 := hg.1
      simp [answerOf, hstatus, unavailable_cacheable] at hca
  · simp only [Leads, hphase] at hl ⊢
    cases cut with
    | none => exact (answerOf_of_grants cfg hq hg).1
    | some n => exact absurd hl (hdep c hc)

/-- The request leaves the table, and only decisions enter the cache. -/
theorem Served.goes_publish (h : Served json q s) {id : ℕ} {c : Call} (hc : s.calls id = some c)
    {a : Answer} (hphase : c.phase = .answered a) (now : ℤ) : Goes json q s id
      { s with
        asking := Function.update s.asking (key c.req.question) none
        decided :=
          if 0 < cfg.cacheTTL ∧ a.cacheable then
            remember cfg s.decided (key c.req.question) a now
          else s.decided } { c with phase := .published a } := by
  obtain ⟨hq, hserved⟩ := h.calls id c hc
  rw [hphase] at hserved
  refine ⟨fun _ he => he, hserved, fun k leader hk => ?_, fun _ _ => rfl, fun a hd => ?_,
    leads_of_phase hc fun hl => ?_, by simp, fun p hp => ?_⟩
  · obtain ⟨hkey, hk⟩ := Machine.unset_eq_some.1 hk
    split
    next hid =>
      subst hid
      exact absurd ((h.inTable hc hk).1.trans (congrArg key hq.symm)) hkey
    next => exact hk
  · simp [h.done_eq_none hc (by simp [hphase])] at hd
  · simp only [Leads, hphase] at hl ⊢
    exact hl
  · simp only at hp
    split at hp
    next hca =>
      rcases mem_remember hp with hold | ⟨-, hg, herr⟩
      · exact .inl hold
      · exact .inr (hg ▸ herr ▸ hserved.2 hca.2)
    next => exact .inl hp

theorem Served.goes_close (h : Served json q s) {id : ℕ} {c : Call} (hc : s.calls id = some c)
    {a : Answer} (hphase : c.phase = .published a) : Goes json q s id
      { s with done := Function.update s.done id (some a) }
      { c with phase := .returned a.grant a.err } := by
  have hserved := (h.calls id c hc).2
  rw [hphase] at hserved
  refine ⟨fun _ he => he, fun hnone => hserved.2 (hserved.1 hnone),
    h.asking_of_inTable hc (by simp [InTable, hphase]), fun leader hne => ?_,
    fun _ _ => ⟨_, _, rfl⟩, leads_of_phase hc fun hl => ?_, by simp, fun p hp => .inl hp⟩
  · exact Function.update_of_ne hne ..
  · simp only [Leads, hphase] at hl ⊢
    exact ⟨a, Function.update_self .., hserved.2 hl⟩

theorem Served.granted_of_done (h : Served json q s) {id leader : ℕ} {c : Call} {a : Answer}
    (hc : s.calls id = some c) (hphase : c.phase = .waiting leader)
    (hdone : s.done leader = some a) : Granted json q s.log a.grant a.err := by
  obtain ⟨c', hc', hl⟩ := h.waiting id c leader hc hphase
  obtain ⟨c'', g, err, hc'', hp⟩ := h.done leader a hdone
  cases hc'.symm.trans hc''
  simp only [Leads, hp] at hl
  obtain ⟨a', ha', hg⟩ := hl
  cases hdone.symm.trans ha'
  exact hg

/-- **One call goes on.** -/
theorem Served.goes (h : Served json q s) {id : ℕ} {c : Call} (hc : s.calls id = some c) {a : Act}
    (hdep : Dependable json q s (.act id a)) (hcons : Considerate q s (.act id a))
    {s₁ : Callback} {phase : Phase} (hacted : Acted cfg json s id c a s₁ phase) :
    Goes json q s id s₁ { c with phase } := by
  cases hacted with
  | @hit now decided d hphase hcached =>
    obtain ⟨hsub, hmem⟩ := mem_cached hcached
    exact h.goes_aside hc (by simp [hphase]) rfl rfl (fun _ he => he)
      (fun _ => h.decided _ (hmem d rfl)) (by simp [InTable, hphase]) (by simp [Leads, hphase])
      (by simp) hsub
  | @miss now decided hphase hcached =>
    exact h.goes_aside hc (by simp [hphase]) rfl rfl (fun _ he => he) trivial
      (by simp [InTable, hphase]) (by simp [Leads, hphase]) (by simp) (mem_cached hcached).1
  | @join leader hphase hleader =>
    refine h.goes_aside hc (by simp [hphase]) rfl rfl (fun _ he => he) trivial
      (by simp [InTable, hphase]) (by simp [Leads, hphase]) (fun leader' hp => ?_) fun p hp => hp
    cases hp
    exact h.join hc hphase hcons ((h.calls id c hc).1 ▸ hleader)
  | lead hphase hnone => exact h.goes_lead hc hphase
  | @respond resp hphase =>
    refine h.goes_aside hc (by simp [hphase]) rfl rfl (fun _ he => List.mem_cons_of_mem _ he)
      ⟨hdep, _, List.mem_cons_self, rfl⟩ (fun _ => trivial) (fun hl => ?_) (by simp) fun p hp => hp
    simp only [Leads, hphase] at hl ⊢
    exact hl
  | @fail timedOut hphase => exact h.goes_fail hc hphase (hdep.2 c hc) timedOut
  | @read resp cut hphase => exact h.goes_read hc hphase hdep
  | @publish a now hphase => exact h.goes_publish hc hphase now
  | @close a hphase => exact h.goes_close hc hphase
  | @wake leader a hphase hdone =>
    exact h.goes_aside hc (by simp [hphase]) rfl rfl (fun _ he => he)
      (fun _ => h.granted_of_done hc hphase hdone) (by simp [InTable, hphase])
      (by simp [Leads, hphase]) (by simp) fun p hp => hp
  | @giveUp leader err hphase hctx =>
    refine h.goes_aside hc (by simp [hphase]) rfl rfl (fun _ he => he) (fun hnone => ?_)
      (by simp [InTable, hphase]) (by simp [Leads, hphase]) (by simp) fun p hp => hp
    cases hctx.symm.trans hnone

theorem Served.step (h : Served json q s) {a : Action} (hdep : Dependable json q s a)
    (hcons : Considerate q s a) (hstep : s.step cfg json a = some s') : Served json q s' := by
  obtain ⟨id, req, rfl, hnone, rfl⟩ | ⟨id, deadline, c, rfl, hc, hctx, rfl⟩ |
    ⟨id, act, c, s₁, phase, rfl, hc, hacted, rfl⟩ := step_cases hstep
  · refine h.setCall rfl hdep ⟨fun _ he => he, trivial, fun k leader hk => ?_, fun _ _ => rfl,
      fun a ha => ?_, fun j cj c₀ _ _ hc₀ => ?_, nofun, fun p hp => .inl hp⟩
    · split
      next hid =>
        subst hid
        obtain ⟨-, c, hc, -⟩ := h.asking k _ hk
        cases hnone.symm.trans hc
      next => exact hk
    · obtain ⟨c, g, err, hc, -⟩ := h.done id a ha
      cases hnone.symm.trans hc
    · cases hnone.symm.trans hc₀
  · obtain ⟨hq, hserved⟩ := h.calls id c hc
    refine h.setCall rfl hq ⟨fun _ he => he, hserved.cancel, ?_, fun _ _ => rfl, fun a ha => ?_,
      fun j cj c₀ hj hp hc₀ hl => ?_, fun leader hp => ?_, fun p hp => .inl hp⟩
    · exact h.asking_of_inTable hc fun hin => hin
    · obtain ⟨c', g, err, hc', hp⟩ := h.done id a ha
      cases hc.symm.trans hc'
      exact ⟨g, err, hp⟩
    · -- Somebody waits for this call, so the decision is there.
      cases hc.symm.trans hc₀
      have hdecided : ¬c.phase.Open := fun hopen => hcons c hc hopen j cj hj hp
      unfold Leads at hl ⊢
      split at hl <;> simp_all [Phase.Open]
    · obtain ⟨c', hc', hl⟩ := h.waiting id c leader hc hp
      refine ⟨?_, c', hc', hl⟩
      rintro rfl
      cases hc.symm.trans hc'
      simp [Leads, show c.phase = .waiting leader from hp] at hl
  · exact h.setCall hacted.calls (h.calls id c hc).1 (h.goes hc hdep hcons hacted)

/-! ### Progress -/

/-- The call `id` can go on, whatever the others do. -/
def CanGoOn (cfg : Config) (json : Json) (q : Question) (s : Callback) (id : ℕ) : Prop :=
  ∃ a, Dependable json q s (.act id a) ∧ Considerate q s (.act id a) ∧
    (s.step cfg json (.act id a)).isSome

theorem canGoOn_of_request {resp : Response} {g : Grant} (hresp : resp.Grants json q g) {id : ℕ}
    {c : Call} (hc : s.calls id = some c)
    (hp : InTable c ∨ ∃ a, c.phase = .published a) : s.CanGoOn cfg json q id := by
  rcases hp with hp | ⟨a, hp⟩
  · unfold InTable at hp
    split at hp
    next hphase =>
      exact ⟨.respond resp, ⟨g, hresp⟩, trivial, by simp [Callback.step, act, hc, hphase]⟩
    next r hphase =>
      exact ⟨.read none, trivial, trivial, by simp [Callback.step, act, hc, hphase]⟩
    next a hphase =>
      exact ⟨.publish 0, trivial, trivial, by simp [Callback.step, act, hc, hphase]⟩
    next => exact hp.elim
  · exact ⟨.close, trivial, trivial, by simp [Callback.step, act, hc, hp]⟩

/-- As long as a call has not returned, it can go on, or the call it waits for can, or the one
whose request is in the table. -/
theorem Served.progress (h : Served json q s) {resp : Response} {g : Grant}
    (hresp : resp.Grants json q g) {id : ℕ} {c : Call} (hc : s.calls id = some c)
    (hp : ∀ g err, c.phase ≠ .returned g err) :
    ∃ j, (j = id ∨ c.phase = .waiting j ∨ s.asking (key q) = some j) ∧
      s.CanGoOn cfg json q j := by
  obtain ⟨hq, -⟩ := h.calls id c hc
  cases hphase : c.phase with
  | called =>
    refine ⟨id, .inl rfl, .lookup 0, trivial, trivial, ?_⟩
    simp only [Callback.step, hc, act, hphase]
    split <;> rfl
  | missed =>
    cases htable : s.asking (key q) with
    | none =>
      refine ⟨id, .inl rfl, .enter, trivial, fun c' _ _ leader hl => ?_, ?_⟩
      · cases htable.symm.trans hl
      · simp [Callback.step, act, hc, hphase, hq, htable]
    | some leader =>
      obtain ⟨-, c', hc', hin⟩ := h.asking _ _ htable
      exact ⟨leader, .inr (.inr rfl), canGoOn_of_request hresp hc' (.inl hin)⟩
  | waiting leader =>
    obtain ⟨c', hc', hl⟩ := h.waiting id c leader hc hphase
    unfold Leads at hl
    split at hl
    next hp' =>
      exact ⟨leader, .inr (.inl rfl), canGoOn_of_request hresp hc' (.inl (by simp [InTable, hp']))⟩
    next r hp' =>
      exact ⟨leader, .inr (.inl rfl), canGoOn_of_request hresp hc' (.inl (by simp [InTable, hp']))⟩
    next a hp' =>
      exact ⟨leader, .inr (.inl rfl), canGoOn_of_request hresp hc' (.inl (by simp [InTable, hp']))⟩
    next a hp' => exact ⟨leader, .inr (.inl rfl), canGoOn_of_request hresp hc' (.inr ⟨a, hp'⟩)⟩
    next g' err hp' =>
      obtain ⟨a, ha, -⟩ := hl
      exact ⟨id, .inl rfl, .wake, trivial, trivial, by simp [Callback.step, act, hc, hphase, ha]⟩
    next => exact hl.elim
  | asking => exact ⟨id, .inl rfl, canGoOn_of_request hresp hc (.inl (by simp [InTable, hphase]))⟩
  | reading r =>
    exact ⟨id, .inl rfl, canGoOn_of_request hresp hc (.inl (by simp [InTable, hphase]))⟩
  | answered a =>
    exact ⟨id, .inl rfl, canGoOn_of_request hresp hc (.inl (by simp [InTable, hphase]))⟩
  | published a => exact ⟨id, .inl rfl, canGoOn_of_request hresp hc (.inr ⟨a, hphase⟩)⟩
  | returned g err => exact absurd hphase (hp g err)

/-- How many actions a call has left at most. -/
def left (s : Callback) (id : ℕ) : ℕ :=
  match s.calls id with
  | none => 6
  | some c =>
    match c.phase with
    | .called => 6
    | .missed => 5
    | .asking => 4
    | .reading _ => 3
    | .answered _ => 2
    | .published _ => 1
    | .waiting _ => 1
    | .returned _ _ => 0

/-- The action is one of the call. -/
def isOf (id : ℕ) : Action → Bool
  | .act j _ => j = id
  | _ => false

theorem step_left (id : ℕ) {a : Action} (hstep : s.step cfg json a = some s') :
    if isOf id a then s'.left id + 1 ≤ s.left id else s'.left id ≤ s.left id + 0 := by
  obtain ⟨j, req, rfl, hnone, rfl⟩ | ⟨j, deadline, c, rfl, hc, hctx, rfl⟩ |
    ⟨j, act, c, s₁, phase, rfl, hc, hacted, rfl⟩ := step_cases hstep
  · by_cases hj : id = j
    · subst hj
      simp [isOf, left, hnone]
    · simp [isOf, left, setCall_calls_of_ne _ _ hj]
  · by_cases hj : id = j
    · subst hj
      simp [isOf, left, hc]
    · simp [isOf, left, setCall_calls_of_ne _ _ hj]
  · by_cases hj : id = j
    · subst hj
      simp only [isOf, decide_true, if_true, left, setPhase, setCall_calls_self, hc]
      cases hacted <;> simp [*]
    · simp [isOf, left, setPhase, setCall_calls_of_ne _ _ hj, hacted.calls, Ne.symm hj]

end Callback

/-- **One caller's cancellation does not decide another caller's outcome**, in every run in which
nobody is cancelled while others wait for its request, and nobody joins the request of a call that
was cancelled, unless the decision is there. -/
theorem cancellation_stays_private {resp : Response} {g : Grant} (hresp : resp.Grants json q g)
    {l : List Action} {s : Callback}
    (hl : Machine.Along (Callback.step cfg json)
      (fun s a => Dependable json q s a ∧ Considerate q s a) {} l)
    (hrun : Machine.run (Callback.step cfg json) {} l = some s) :
    (∀ id c g err, s.calls id = some c → c.ctx = none → c.phase = .returned g err →
      Granted json q s.log g err) ∧
    (∀ id c, s.calls id = some c → (∀ g err, c.phase ≠ .returned g err) →
      ∃ j, (j = id ∨ c.phase = .waiting j ∨ s.asking (key q) = some j) ∧
        s.CanGoOn cfg json q j) ∧
    ∀ id, l.countP (Callback.isOf id) ≤ 6 := by
  have hserved : s.Served json q :=
    Machine.invariant (fun h ha hs => h.step ha.1 ha.2 hs) .empty hl hrun
  refine ⟨fun id c g err hc hctx hp => ?_, fun id c hc hp => hserved.progress hresp hc hp,
    fun id => ?_⟩
  · have hphase := (hserved.calls id c hc).2
    rw [hp] at hphase
    exact hphase hctx
  · have hwork : l.countP (Callback.isOf id) + s.left id ≤ Callback.left {} id + 0 * _ :=
      Machine.work_le (fun _ _ _ hs => Callback.step_left id hs) hrun
    have hsix : Callback.left {} id = 6 := rfl
    omega

namespace Sample

/-- Document `d`, token `t`. -/
def same : Request := { document := [100], token := [116] }

/-- Call 0 makes a request, and call 1 joins it. -/
def joined : List Action :=
  [.start 0 same, .act 0 (.lookup 0), .act 0 .enter,
    .start 1 same, .act 1 (.lookup 0), .act 1 .enter]

/-- Call 2 joins as well, is cancelled and gives up; call 0 is cancelled when it has the decision
and has not published it. -/
def cancelledLate : List Action :=
  [.start 2 same, .act 2 (.lookup 0), .act 2 .enter, .cancel 2 true, .act 2 .giveUp,
    .act 0 (.respond ⟨200, yes⟩), .act 0 (.read none), .cancel 0 false,
    .act 0 (.publish 0), .act 0 .close, .act 1 .wake]

/-- Call 0 is cancelled. -/
def cancelled : List Action :=
  [.cancel 0 false, .act 0 (.fail false), .act 0 (.publish 0), .act 0 .close, .act 1 .wake]

theorem yes_grants : Response.Grants reader same.question ⟨200, yes⟩ { doc := [100] } :=
  ⟨rfl, { allow := some true }, rfl, rfl, rfl⟩

end Sample

open Sample

/-- Two calls are cancelled, one of which made the request; the third is granted the question. -/
theorem uncancelled_granted : ∃ s,
    Machine.run (Callback.step minute reader) {} (joined ++ cancelledLate) = some s ∧
    s.calls 0 = some ⟨same, some .canceled, .returned { doc := [100] } none⟩ ∧
    s.calls 1 = some ⟨same, none, .returned { doc := [100] } none⟩ ∧
    s.calls 2 = some ⟨same, some .deadlineExceeded, .returned {} (some .deadlineExceeded)⟩ ∧
    Granted reader same.question s.log { doc := [100] } none := by
  refine ⟨_, rfl, rfl, rfl, rfl, ?_⟩
  refine (cancellation_stays_private yes_grants ?_
    (show Machine.run (Callback.step minute reader) {} (joined ++ cancelledLate) = _ from rfl)).1
    1 ⟨same, none, .returned { doc := [100] } none⟩ _ none rfl rfl rfl
  refine .cons ⟨rfl, trivial⟩ rfl (.cons ⟨trivial, trivial⟩ rfl (.cons ⟨trivial, nofun⟩ rfl
    (.cons ⟨rfl, trivial⟩ rfl (.cons ⟨trivial, trivial⟩ rfl (.cons ⟨trivial, ?_⟩ rfl
    (.cons ⟨rfl, trivial⟩ rfl (.cons ⟨trivial, trivial⟩ rfl (.cons ⟨trivial, ?_⟩ rfl
    (.cons ⟨trivial, ?_⟩ rfl (.cons ⟨trivial, trivial⟩ rfl
    (.cons ⟨⟨_, yes_grants⟩, trivial⟩ rfl (.cons ⟨trivial, trivial⟩ rfl
    (.cons ⟨trivial, ?_⟩ rfl (.cons ⟨trivial, trivial⟩ rfl (.cons ⟨trivial, trivial⟩ rfl
    (.cons ⟨trivial, trivial⟩ rfl trivial))))))))))))))))
  · -- the request that call 1 joins is that of a call which is not cancelled
    intro c hc hp leader hl c' hc' hopen
    cases hl
    cases hc'
    rfl
  · intro c hc hp leader hl c' hc' hopen
    cases hl
    cases hc'
    rfl
  · -- nobody waits for call 2, and call 0 has read the decision
    intro c hc hopen
    cases hc
    exact hopen.elim
  · intro c hc hopen
    cases hc
    have hdecided : (answerOf minute reader same 200 yes false).cacheable = true := by decide
    cases hdecided.symm.trans hopen

/-- **A waiter is told that it was cancelled.** Only the context of call 0 has ended. -/
theorem waiter_cancelled : ∃ s,
    Machine.run (Callback.step minute reader) {} (joined ++ cancelled) = some s ∧
    Machine.Along (Callback.step minute reader) (Dependable reader same.question) {}
      (joined ++ cancelled) ∧
    s.calls 1 = some ⟨same, none, .returned {} (some .canceled)⟩ := by
  refine ⟨_, rfl, .cons rfl rfl (.cons trivial rfl (.cons trivial rfl (.cons rfl rfl
    (.cons trivial rfl (.cons trivial rfl (.cons trivial rfl (.cons ⟨rfl, ?_⟩ rfl
    (.cons trivial rfl (.cons trivial rfl (.cons trivial rfl trivial)))))))))), rfl⟩
  intro c hc
  cases hc
  nofun

end YCollab.Auth
