import YCollab.Auth.Callback

/-!
# What the cache of decisions returns

A decision is remembered until its lifetime is over, and the cache never holds more than
`CacheSize` of them. Whatever a call returns comes from the cache, from its own request, from the
request it waited for, or from its context (`Source`), and what comes from the cache is a decision
of the endpoint about the same key that was remembered less than its lifetime ago.

The lookup in the cache and the one in the table of requests are separate sections; what ties a
remembered decision to the request it came from is the history of the run.
-/

namespace YCollab.Auth

open Lib0

variable (cfg : Config) (json : Json)

/-- How long an answer is remembered. -/
def life (a : Answer) : ℤ := if 0 < a.ttl then min a.ttl cfg.cacheTTL else cfg.cacheTTL

/-- The endpoint has decided about the token: it refused, or its response was complete and said
whether to allow. -/
def Decides (status : ℕ) (payload : Bytes) (readErr : Bool) : Prop :=
  status = 401 ∨ status = 403 ∨
    (status = 200 ∧ readErr = false ∧ ∃ r allow, json.unmarshal payload = some r ∧
      r.allow = some allow)

/-- `a` is what the endpoint decided about `req`. -/
def Decided (req : Request) (a : Answer) : Prop :=
  ∃ status payload readErr, Decides json status payload readErr ∧
    a = answerOf cfg json req status payload readErr

/-- In the run `l` an answer about the key `k` left the table of requests at the time `t`. -/
def PublishedAt (l : List Action) (k : Bytes) (a : Answer) (t : ℤ) : Prop :=
  ∃ l₁ j l₂ s c, l = l₁ ++ .act j (.publish t) :: l₂ ∧
    Machine.run (Callback.step cfg json) {} l₁ = some s ∧ s.calls j = some c ∧
    c.phase = .answered a ∧ key c.req.question = k ∧ (a.cacheable → Decided cfg json c.req a)

/-- In the run `l` the request of the call `j` was answered with `a`. -/
def AnsweredBy (l : List Action) (j : ℕ) (a : Answer) : Prop :=
  ∃ l₁ l₂ s c, l = l₁ ++ .act j .close :: l₂ ∧
    Machine.run (Callback.step cfg json) {} l₁ = some s ∧ s.calls j = some c ∧
    c.phase = .published a

/-- Where a call that stood at `c` after the run `l` has its result from. -/
inductive Source (l : List Action) (c : Call) : Act → Grant → Option Err → Prop
  /-- A decision that was remembered and has not expired. -/
  | cached {now a t} : PublishedAt cfg json l (key c.req.question) a t → a.cacheable →
      now < t + life cfg a → Source l c (.lookup now) a.grant a.err
  /-- Its own request. -/
  | asked {a} : c.phase = .published a → Source l c .close a.grant a.err
  /-- The request it has waited for. -/
  | joined {leader a} : c.phase = .waiting leader → AnsweredBy cfg json l leader a →
      Source l c .wake a.grant a.err
  /-- Its context. -/
  | gaveUp {leader err} : c.phase = .waiting leader → c.ctx = some err →
      Source l c .giveUp {} (some err)

variable {cfg json} {l : List Action} {s s' : Callback} {id : ℕ} {c : Call}

/-! ### Which answers are decisions -/

theorem answerOf_cacheable {req : Request} {status : ℕ} {payload : Bytes} {readErr : Bool}
    (h : (answerOf cfg json req status payload readErr).cacheable = true) :
    Decides json status payload readErr := by
  unfold answerOf at h
  split at h
  next hok =>
    split at h
    · rw [unavailable_cacheable] at h
      cases h
    next hread =>
      unfold decision at h
      split at h
      · cases h
      next r hr =>
        split at h
        · cases h
        next hallow => exact .inr (.inr ⟨hok, by simpa using hread, r, false, hr, hallow⟩)
        next hallow => exact .inr (.inr ⟨hok, by simpa using hread, r, true, hr, hallow⟩)
  · split at h
    next hrefused => exact hrefused.imp_right .inl
    next =>
      split at h
      · rw [unavailable_cacheable] at h
        cases h
      · cases h

/-- A call that has an answer to remember has a decision. -/
def Phase.Deciding (cfg : Config) (json : Json) (req : Request) : Phase → Prop
  | .answered a => a.cacheable → Decided cfg json req a
  | .published a => a.cacheable → Decided cfg json req a
  | _ => True

theorem Acted.deciding {a : Act} {s₁ : Callback} {phase : Phase}
    (h : Acted cfg json s id c a s₁ phase) (hc : c.phase.Deciding cfg json c.req) :
    phase.Deciding cfg json c.req := by
  cases h with
  | fail hphase =>
    intro hcache
    rw [failure_cacheable] at hcache
    cases hcache
  | read hphase => exact fun hcache => ⟨_, _, _, answerOf_cacheable hcache, rfl⟩
  | publish hphase =>
    rw [hphase] at hc
    exact hc
  | _ => trivial

/-! ### The cache -/

theorem cached_sublist {decided decided' : List (Bytes × Decision)} {k : Bytes} {now : ℤ}
    {r : Option Decision} (h : cached cfg decided k now = (decided', r)) :
    decided'.Sublist decided := by
  unfold cached at h
  split at h
  · cases h
    exact .refl _
  · split at h
    · cases h
      exact .refl _
    · split at h
      · cases h
        exact .refl _
      · cases h
        exact List.filter_sublist

theorem lt_expires_of_cached {decided : List (Bytes × Decision)} {k : Bytes} {now : ℤ}
    {d : Decision} (h : (cached cfg decided k now).2 = some d) : now < d.expires := by
  unfold cached at h
  split at h
  · cases h
  · split at h
    · cases h
    · split at h
      next hlive =>
        cases h
        exact hlive
      next => cases h

/-- What `remember` keeps of the cache to make room. -/
def roomFor (cfg : Config) (decided : List (Bytes × Decision)) (now : ℤ) :
    List (Bytes × Decision) :=
  if cfg.cacheSize ≤ decided.length then
    let swept := decided.filter fun p => now < p.2.expires
    if cfg.cacheSize ≤ swept.length then [] else swept
  else decided

theorem roomFor_sublist (decided : List (Bytes × Decision)) (now : ℤ) :
    (roomFor cfg decided now).Sublist decided := by
  unfold roomFor
  split
  · dsimp only
    split
    · exact List.nil_sublist _
    · exact List.filter_sublist
  · exact .refl _

theorem roomFor_length (hsize : 0 < cfg.cacheSize) (decided : List (Bytes × Decision)) (now : ℤ) :
    (roomFor cfg decided now).length < cfg.cacheSize := by
  unfold roomFor
  split
  · dsimp only
    split
    · exact hsize
    · omega
  · omega

theorem remember_eq (decided : List (Bytes × Decision)) (k : Bytes) (a : Answer) (now : ℤ) :
    remember cfg decided k a now =
      (k, ⟨a.grant, a.err, now + life cfg a⟩) ::
        (roomFor cfg decided now).filter fun p => p.1 ≠ k := by
  have hlife : (if 0 < a.ttl ∧ a.ttl < cfg.cacheTTL then a.ttl else cfg.cacheTTL) = life cfg a := by
    unfold life
    split_ifs <;> omega
  rw [← hlife]
  rfl

/-! ### The run -/

/-- What the shared state has to do with the run behind it. -/
structure Explained (cfg : Config) (json : Json) (l : List Action) (s : Callback) : Prop where
  size : s.decided.length ≤ cfg.cacheSize
  nodup : (s.decided.map Prod.fst).Nodup
  decision : ∀ p ∈ s.decided, ∃ a t, PublishedAt cfg json l p.1 a t ∧ a.cacheable ∧
    p.2 = ⟨a.grant, a.err, t + life cfg a⟩
  done : ∀ j a, s.done j = some a → AnsweredBy cfg json l j a
  deciding : ∀ id c, s.calls id = some c → c.phase.Deciding cfg json c.req

theorem PublishedAt.append {k : Bytes} {a : Answer} {t : ℤ} (h : PublishedAt cfg json l k a t)
    (l' : List Action) : PublishedAt cfg json (l ++ l') k a t := by
  obtain ⟨l₁, j, l₂, s, c, rfl, h⟩ := h
  exact ⟨l₁, j, l₂ ++ l', s, c, by simp, h⟩

theorem AnsweredBy.append {j : ℕ} {a : Answer} (h : AnsweredBy cfg json l j a)
    (l' : List Action) : AnsweredBy cfg json (l ++ l') j a := by
  obtain ⟨l₁, l₂, s, c, rfl, h⟩ := h
  exact ⟨l₁, l₂ ++ l', s, c, by simp, h⟩

namespace Explained

theorem append (h : Explained cfg json l s) (l' : List Action) : Explained cfg json (l ++ l') s where
  size := h.size
  nodup := h.nodup
  decision p hp := by
    obtain ⟨a, t, hpub, ha⟩ := h.decision p hp
    exact ⟨a, t, hpub.append l', ha⟩
  done j a hj := (h.done j a hj).append l'
  deciding := h.deciding

theorem setCall (h : Explained cfg json l s) (hc : c.phase.Deciding cfg json c.req) :
    Explained cfg json l (s.setCall id c) where
  size := h.size
  nodup := h.nodup
  decision := h.decision
  done := h.done
  deciding j c' hj := by
    rcases Machine.set_eq_some.1 hj with ⟨rfl, rfl⟩ | ⟨-, hj⟩
    · exact hc
    · exact h.deciding j c' hj

theorem of_sublist {decided : List (Bytes × Decision)} (h : Explained cfg json l s)
    (hsub : decided.Sublist s.decided) : Explained cfg json l { s with decided } where
  size := hsub.length_le.trans h.size
  nodup := (hsub.map _).nodup h.nodup
  decision p hp := h.decision p (hsub.subset hp)
  done := h.done
  deciding := h.deciding

theorem remember (hsize : 0 < cfg.cacheSize) (h : Explained cfg json l s) {k : Bytes} {a : Answer}
    {now : ℤ} (hpub : PublishedAt cfg json l k a now) (ha : a.cacheable) :
    Explained cfg json l { s with decided := remember cfg s.decided k a now } where
  size := by
    rw [remember_eq, List.length_cons]
    exact Nat.succ_le_of_lt ((List.length_filter_le ..).trans_lt (roomFor_length hsize ..))
  nodup := by
    rw [remember_eq, List.map_cons, List.nodup_cons]
    refine ⟨?_, ?_⟩
    · intro hmem
      obtain ⟨p, hp, hk⟩ := List.mem_map.1 hmem
      simpa [hk] using (List.mem_filter.1 hp).2
    · exact ((List.filter_sublist.trans (roomFor_sublist ..)).map _).nodup h.nodup
  decision p hp := by
    rw [remember_eq] at hp
    rcases List.mem_cons.1 hp with rfl | hp
    · exact ⟨a, now, hpub, ha, rfl⟩
    · exact h.decision p ((List.filter_sublist.trans (roomFor_sublist ..)).subset hp)
  done := h.done
  deciding := h.deciding

/-- A call goes on. The action it makes is the last one of the run. -/
theorem acted (hsize : 0 < cfg.cacheSize) (h : Explained cfg json l s)
    (hrun : Machine.run (Callback.step cfg json) {} l = some s) (hc : s.calls id = some c)
    {act : Act} {s₁ : Callback} {phase : Phase} (hact : Acted cfg json s id c act s₁ phase) :
    Explained cfg json (l ++ [.act id act]) (s₁.setPhase id c phase) := by
  have hdeciding := h.deciding id c hc
  refine setCall ?_ (hact.deciding hdeciding)
  have happ := h.append [.act id act]
  cases hact with
  | hit hphase hcached => exact happ.of_sublist (cached_sublist hcached)
  | miss hphase hcached => exact happ.of_sublist (cached_sublist hcached)
  | join => exact happ
  | lead => exact ⟨happ.size, happ.nodup, happ.decision, happ.done, happ.deciding⟩
  | respond => exact ⟨happ.size, happ.nodup, happ.decision, happ.done, happ.deciding⟩
  | fail => exact happ
  | read => exact happ
  | @publish a now hphase =>
    rw [hphase] at hdeciding
    have hpub : PublishedAt cfg json (l ++ [.act id (.publish now)]) (key c.req.question) a now :=
      ⟨l, id, [], s, c, rfl, hrun, hc, hphase, rfl, hdeciding⟩
    split
    next hcache =>
      have hrem := happ.remember hsize hpub hcache.2
      exact ⟨hrem.size, hrem.nodup, hrem.decision, hrem.done, hrem.deciding⟩
    next => exact ⟨happ.size, happ.nodup, happ.decision, happ.done, happ.deciding⟩
  | @close a hphase =>
    refine ⟨happ.size, happ.nodup, happ.decision, fun j a' hj => ?_, happ.deciding⟩
    rcases Machine.set_eq_some.1 hj with ⟨rfl, rfl⟩ | ⟨-, hj⟩
    · exact ⟨l, [], s, c, rfl, hrun, hc, hphase⟩
    · exact happ.done j a' hj
  | wake => exact happ
  | giveUp => exact happ

end Explained

theorem explained_of_run (hsize : 0 < cfg.cacheSize)
    (hrun : Machine.run (Callback.step cfg json) {} l = some s) : Explained cfg json l s := by
  have hnew : Explained cfg json [] {} :=
    ⟨Nat.zero_le _, List.nodup_nil, nofun, nofun, nofun⟩
  refine Machine.history hnew (fun {l s a s'} hrun h hstep => ?_) hrun
  rcases Callback.step_cases hstep with ⟨id, req, rfl, -, rfl⟩ | ⟨id, d, c, rfl, hc, -, rfl⟩ |
    ⟨id, act, c, s₁, phase, rfl, hc, hact, rfl⟩
  · exact (h.append _).setCall trivial
  · exact (h.append _).setCall (h.deciding id c hc)
  · exact h.acted hsize hrun hc hact

/-- **Decisions expire on time, and the cache is bounded.** In every run the cache holds at most
`CacheSize` decisions, one for a key. A call that returns has its result from its own request, from
the request it waited for, from its context, or from the cache; in the last case that is a decision
of the endpoint about the same key, remembered less than its lifetime ago. So an answer that is no
decision reaches nobody but the call that asked and those who waited for it. -/
theorem returned_from (hsize : 0 < cfg.cacheSize)
    (hrun : Machine.run (Callback.step cfg json) {} l = some s) :
    s.decided.length ≤ cfg.cacheSize ∧ (s.decided.map Prod.fst).Nodup ∧
    ∀ id act c s' c' g err, s.calls id = some c → s.step cfg json (.act id act) = some s' →
      s'.calls id = some c' → c'.phase = .returned g err → Source cfg json l c act g err := by
  have h := explained_of_run hsize hrun
  refine ⟨h.size, h.nodup, fun id act c s' c' g err hc hstep hc' hret => ?_⟩
  rcases Callback.step_cases hstep with ⟨_, _, heq, -⟩ | ⟨_, _, _, heq, -⟩ |
    ⟨id', act', c₀, s₁, phase, heq, hc₀, hact, rfl⟩
  · cases heq
  · cases heq
  cases heq
  obtain rfl : c = c₀ := Option.some.inj (hc.symm.trans hc₀)
  rw [Callback.setPhase, Callback.setCall_calls_self] at hc'
  cases hc'
  cases hret
  cases hact with
  | @hit now decided d hphase hcached =>
    obtain ⟨a, t, hpub, ha, hd⟩ := h.decision _ ((mem_cached hcached).2 d rfl)
    simp only at hd hpub
    subst hd
    exact .cached hpub ha (lt_expires_of_cached (by rw [hcached]))
  | @close a hphase => exact .asked hphase
  | @wake leader a hphase hdone => exact .joined hphase (h.done leader a hdone)
  | @giveUp leader err hphase hctx => exact .gaveUp hphase hctx

/-- One call asks and is answered, and a second one with the same question begins. -/
def Sample.askedOnce : List Action :=
  [.start 0 ⟨[100], [1], [], []⟩, .act 0 (.lookup 0), .act 0 .enter,
    .act 0 (.respond ⟨200, Sample.yes⟩), .act 0 (.read none), .act 0 (.publish 5), .act 0 .close,
    .start 1 ⟨[100], [1], [], []⟩]

/-- Ten nanoseconds later the second call has the answer from the cache. -/
theorem returned_from_witness :
    ∃ s, Machine.run (Callback.step Sample.minute Sample.reader) {} Sample.askedOnce = some s ∧
      s.decided.length ≤ Sample.minute.cacheSize ∧
      Source Sample.minute Sample.reader Sample.askedOnce { req := ⟨[100], [1], [], []⟩ }
        (.lookup 15) { doc := [100] } none := by
  have hrun : Machine.run (Callback.step Sample.minute Sample.reader) {} Sample.askedOnce =
      some _ := rfl
  have h := returned_from (by decide) hrun
  exact ⟨_, hrun, h.1, h.2.2 1 _ _ _ _ _ _ rfl rfl rfl rfl⟩

end YCollab.Auth
