import YCollab.Room.Room

/-!
# Sending, dropping and leaving

What the room does to its connections is made of sends, closes and departures. `Traffic` lists what
a relation between handlers has to satisfy to hold across all of them, and the lemmas of its
namespace show that it then holds across every function that is made of these.

`Aside` is the first such relation: neither the document nor the log changes. `leave_eq` says that
the fuel of `leave` is enough: a departure takes one connection out of the table before anybody else
can be dropped because of it.
-/

namespace YCollab.Room

open Lib0 Crdt Protocol

/-- What `requestCompaction` hands over. -/
def snapshotJobs (cfg : Config) (d : Doc) : List Job :=
  if cfg.store then
    match d.encodeStateAsUpdate SortedMap.empty with
    | .ok snapshot => [.snapshot snapshot]
    | .error _ => []
  else []

/-- What `queueVersion` hands over. -/
def versionJobs (cfg : Config) (d : Doc) (label : Bytes) (minAge : ℤ) : List Job :=
  match d.encodeStateAsUpdate SortedMap.empty, d.encodeStateVector with
  | .ok payload, .ok sv => if cfg.store then [.version payload sv label minAge] else []
  | _, _ => []

namespace Handler

variable {cfg : Config} {now : ℤ} {h h' h'' : Handler}

@[simp] theorem send_room (conn : Conn) (frame : Bytes) : (h.send conn frame).1.room = h.room := rfl

theorem closeEach_room {code : ℕ} {reason : Bytes} (l : List (Conn × List ℕ)) (h : Handler) :
    (l.foldl (fun h p => h.close p.1 code reason) h).room = h.room := by
  induction l generalizing h with
  | nil => rfl
  | cons p l ih => exact ih _

theorem sendEach_cons (frame : Bytes) (c : Conn) (l : List Conn) :
    sendEach frame h (c :: l) = ((sendEach frame (h.send c frame).1 l).1,
      if (h.send c frame).2 then (sendEach frame (h.send c frame).1 l).2
      else c :: (sendEach frame (h.send c frame).1 l).2) := rfl

@[simp] theorem sendEach_room (frame : Bytes) (l : List Conn) :
    (sendEach frame h l).1.room = h.room := by
  induction l generalizing h with
  | nil => rfl
  | cons c l ih => exact ih

/-! ### Relations that hold across the traffic with connections -/

/-- `conn`, which has announced `clients`, is out of the table and its cursors are gone; nobody has
been told yet. -/
def departed (now : ℤ) (conn : Conn) (clients : List ℕ) (h : Handler) : Handler :=
  let h := h.forgetConn now conn
  { h with room := { h.room with aw := (h.room.aw.removeClients clients now).1 } }

/-- `R` holds across sends of `Q` frames, closes and departures. -/
structure Traffic (cfg : Config) (now : ℤ) (Q : Bytes → Prop) (R : Handler → Handler → Prop) :
    Prop where
  refl (h : Handler) : R h h
  trans {h h' h'' : Handler} : R h h' → R h' h'' → R h h''
  send (h : Handler) (conn : Conn) {frame : Bytes} : Q frame → R h (h.send conn frame).1
  close (h : Handler) (conn : Conn) (code : ℕ) (reason : Bytes) : R h (h.close conn code reason)
  /-- Cursors may be sent. -/
  cursors (payload : Bytes) : Q (writeAwareness payload)
  depart {h : Handler} {conn : Conn} {clients : List ℕ} :
    h.room.clientsOf conn = some clients → R h (h.departed now conn clients)
  /-- The retraction is published after the local connections were sent it. -/
  publish {h h' : Handler} {conn : Conn} {clients : List ℕ} (payload : Bytes) :
    h.room.clientsOf conn = some clients → R (h.departed now conn clients) h' →
      R h (h'.publish cfg .awareness payload)

namespace Traffic

variable {Q : Bytes → Prop} {R : Handler → Handler → Prop} {go : Handler → Conn → Handler}
  {frame : Bytes}

theorem sendEach (ht : Traffic cfg now Q R) (hq : Q frame) (l : List Conn) (h : Handler) :
    R h (Handler.sendEach frame h l).1 := by
  induction l generalizing h with
  | nil => exact ht.refl h
  | cons c l ih =>
    rw [sendEach_cons]
    exact ht.trans (ht.send h c hq) (ih _)

theorem foldl_drop (ht : Traffic cfg now Q R) (hgo : ∀ h c, R h (go h c)) {code : ℕ}
    {reason : Bytes} (slow : List Conn) (h : Handler) :
    R h (slow.foldl (fun h c => (go h c).close c code reason) h) := by
  induction slow generalizing h with
  | nil => exact ht.refl h
  | cons c slow ih =>
    rw [List.foldl_cons]
    exact ht.trans (ht.trans (hgo h c) (ht.close _ c code reason)) (ih _)

theorem broadcastWith (ht : Traffic cfg now Q R) (hgo : ∀ h c, R h (go h c)) (hq : Q frame)
    (except : Option Conn) (h : Handler) : R h (h.broadcastWith go frame except) :=
  ht.trans (ht.sendEach hq _ h) (ht.foldl_drop hgo _ _)

theorem retract (ht : Traffic cfg now Q R) (hgo : ∀ h c, R h (go h c)) {conn : Conn}
    {clients : List ℕ} (hc : h.room.clientsOf conn = some clients) :
    R h ((h.forgetConn now conn).retract cfg now go clients) := by
  have hdepart := ht.depart hc
  have hpublish : ∀ (h' : Handler) (payload : Bytes), R (h.departed now conn clients) h' →
      R h (h'.publish cfg .awareness payload) := fun h' payload => ht.publish payload hc
  unfold departed at hdepart hpublish
  unfold Handler.retract
  simp only at hdepart hpublish
  split
  next aw payload heq =>
    rw [heq] at hpublish
    exact hpublish _ payload (ht.broadcastWith hgo (ht.cursors payload) none _)
  next aw _ _ heq =>
    rw [heq] at hdepart
    exact hdepart

theorem leaveLoop (ht : Traffic cfg now Q R) (n : ℕ) (h : Handler) (conn : Conn) :
    R h (Handler.leaveLoop cfg now n h conn) := by
  induction n generalizing h conn with
  | zero => exact ht.refl h
  | succ n ih =>
    unfold Handler.leaveLoop
    split
    next => exact ht.refl h
    next hc => exact ht.depart hc
    next hc => exact ht.retract ih hc

theorem leave (ht : Traffic cfg now Q R) (conn : Conn) (h : Handler) :
    R h (h.leave cfg now conn) := ht.leaveLoop _ h conn

theorem broadcast (ht : Traffic cfg now Q R) (hq : Q frame) (except : Option Conn) (h : Handler) :
    R h (h.broadcast cfg now frame except) :=
  ht.broadcastWith (fun h c => ht.leave c h) hq except h

theorem drop (ht : Traffic cfg now Q R) (conn : Conn) (code : ℕ) (reason : Bytes) (h : Handler) :
    R h (h.drop cfg now conn code reason) :=
  ht.trans (ht.leave conn h) (ht.close _ conn code reason)

theorem deliver (ht : Traffic cfg now Q R) (hq : Q frame) (conn : Conn) (h : Handler) :
    R h (h.deliver cfg now conn frame).1 := by
  have hsend := ht.send h conn hq
  unfold Handler.deliver
  simp only
  split
  · exact hsend
  · exact ht.trans hsend (ht.drop ..)

theorem sendAll (ht : Traffic cfg now Q R) (conn : Conn) (h : Handler) :
    R h (h.sendAll cfg now conn) := by
  unfold Handler.sendAll
  split
  · exact ht.deliver (ht.cursors _) conn h
  · exact ht.refl h

theorem of_deliver (ht : Traffic cfg now Q R) (hq : Q frame) {conn : Conn} {ok : Bool}
    (heq : h.deliver cfg now conn frame = (h', ok)) : R h h' := by
  have hd := ht.deliver hq conn h
  rwa [heq] at hd

theorem syncStep1 (ht : Traffic cfg now (fun _ => True) R) (conn : Conn) (sv : Bytes)
    (h : Handler) : R h (h.syncStep1 cfg now conn sv) := by
  unfold Handler.syncStep1
  split
  · exact ht.drop ..
  · split
    next heq => exact ht.of_deliver trivial heq
    next h₂ heq =>
      have h₂_rel := ht.of_deliver trivial heq
      split
      · exact h₂_rel
      · split
        next heq => exact ht.trans h₂_rel (ht.of_deliver trivial heq)
        next h₁ heq =>
          have h₁_rel := ht.trans h₂_rel (ht.of_deliver trivial heq)
          split
          · exact ht.trans h₁_rel (ht.sendAll conn _)
          · exact h₁_rel

end Traffic

/-! ### Document and log stay as they are -/

/-- `h'` follows from `h` without a change to the document, the log or the update stream; nobody
joins. -/
structure Aside (h h' : Handler) : Prop where
  doc : h'.room.doc = h.room.doc
  recorded : h'.room.recorded = h.room.recorded
  jobs : h'.room.jobs = h.room.jobs
  updates : h'.room.published.filter (·.kind ≠ .awareness) =
    h.room.published.filter (·.kind ≠ .awareness)
  stopped : h'.room.stopped = h.room.stopped
  conns : h'.room.conns.Sublist h.room.conns

namespace Aside

theorem refl (h : Handler) : Aside h h := ⟨rfl, rfl, rfl, rfl, rfl, .refl _⟩

theorem trans (h₁ : Aside h h') (h₂ : Aside h' h'') : Aside h h'' where
  doc := h₂.doc.trans h₁.doc
  recorded := h₂.recorded.trans h₁.recorded
  jobs := h₂.jobs.trans h₁.jobs
  updates := h₂.updates.trans h₁.updates
  stopped := h₂.stopped.trans h₁.stopped
  conns := h₂.conns.trans h₁.conns

theorem of_room (hr : h'.room = h.room) : Aside h h' := by
  constructor <;> simp [hr]

end Aside

theorem publish_awareness_aside (payload : Bytes) :
    Aside h (h.publish cfg .awareness payload) := by
  unfold publish
  split
  · exact ⟨rfl, rfl, rfl, by simp, rfl, .refl _⟩
  · exact .refl h

theorem departed_aside (conn : Conn) (clients : List ℕ) : Aside h (h.departed now conn clients) :=
  ⟨rfl, rfl, rfl, rfl, rfl, List.filter_sublist⟩

theorem aside_traffic : Traffic cfg now (fun _ => True) Aside where
  refl := .refl
  trans := .trans
  send _ _ _ _ := .of_room rfl
  close _ _ _ _ := .of_room rfl
  cursors _ := trivial
  depart _ := departed_aside ..
  publish payload _ hd := ((departed_aside ..).trans hd).trans (publish_awareness_aside payload)

theorem leaveLoop_aside (n : ℕ) (h : Handler) (conn : Conn) :
    Aside h (leaveLoop cfg now n h conn) := aside_traffic.leaveLoop n h conn

theorem leave_aside (conn : Conn) : Aside h (h.leave cfg now conn) := aside_traffic.leave conn h

theorem broadcast_aside (frame : Bytes) (except : Option Conn) :
    Aside h (h.broadcast cfg now frame except) := aside_traffic.broadcast trivial except h

theorem drop_aside (conn : Conn) (code : ℕ) (reason : Bytes) :
    Aside h (h.drop cfg now conn code reason) := aside_traffic.drop conn code reason h

theorem sendAll_aside (conn : Conn) : Aside h (h.sendAll cfg now conn) :=
  aside_traffic.sendAll conn h

/-! ### The writer -/

theorem requestCompaction_eq (cfg : Config) (h : Handler) : ∃ n, h.requestCompaction cfg =
    { h with room := { h.room with
      jobs := h.room.jobs ++ snapshotJobs cfg h.room.doc, sinceSnapshot := n } } := by
  unfold requestCompaction snapshotJobs
  split
  · cases h.room.doc.encodeStateAsUpdate SortedMap.empty with
    | error err => exact ⟨h.room.sinceSnapshot, by simp⟩
    | ok snapshot => exact ⟨0, rfl⟩
  · exact ⟨h.room.sinceSnapshot, by simp⟩

theorem record_eq (cfg : Config) (h : Handler) (b : Bytes) :
    ∃ l n, (l = [] ∨ l = snapshotJobs cfg h.room.doc) ∧ h.record cfg b = { h with
      room := { h.room with
        recorded := h.room.recorded ++ [b]
        jobs := h.room.jobs ++ ((if cfg.store then [.payload b] else []) ++ l)
        sinceSnapshot := n } } := by
  unfold record
  split
  · simp only
    split
    · obtain ⟨n, heq⟩ := requestCompaction_eq cfg { h with room := { h.room with
        recorded := h.room.recorded ++ [b], jobs := h.room.jobs ++ [.payload b],
        sinceSnapshot := h.room.sinceSnapshot + 1 } }
      exact ⟨_, n, .inr rfl, by simp [heq]⟩
    · exact ⟨[], h.room.sinceSnapshot + 1, .inl rfl, by simp⟩
  · exact ⟨[], h.room.sinceSnapshot, .inl rfl, by simp⟩

theorem queueVersion_eq (label : Bytes) (minAge : ℤ) :
    (h.queueVersion cfg label minAge).1 = { h with room := { h.room with
      jobs := h.room.jobs ++ versionJobs cfg h.room.doc label minAge } } := by
  unfold queueVersion versionJobs
  cases h.room.doc.encodeStateAsUpdate SortedMap.empty with
  | error err => simp
  | ok payload =>
    cases h.room.doc.encodeStateVector with
    | error err => simp
    | ok sv => by_cases hstore : cfg.store = true <;> simp [hstore]

theorem versionTick_eq (cfg : Config) (now : ℤ) (h : Handler) : h.versionTick cfg now = h ∨
    h.versionTick cfg now = { h with room := { h.room with
      jobs := h.room.jobs ++ versionJobs cfg h.room.doc [] cfg.versionInterval
      versionDirty := false, lastVersion := some now } } := by
  unfold versionTick
  split
  · exact .inl rfl
  · split
    · exact .inl rfl
    · exact .inr (by rw [queueVersion_eq])

theorem stop_room (cfg : Config) (h : Handler) (code : ℕ) (reason : Bytes) :
    ∃ n, (h.stop cfg code reason).room = { h.room with
      conns := [], jobs := h.room.jobs ++ snapshotJobs cfg h.room.doc, sinceSnapshot := n,
      stopped := true } := by
  unfold stop
  generalize hclosed : h.room.conns.foldl (fun h p => h.close p.1 code reason) h = h₁
  have hroom : h₁.room = h.room := hclosed ▸ closeEach_room h.room.conns h
  obtain ⟨n, heq⟩ := requestCompaction_eq cfg { h₁ with room := { h₁.room with conns := [] } }
  refine ⟨n, ?_⟩
  rw [← hroom]
  exact congrArg (fun k : Handler => { k.room with stopped := true }) heq

/-! ### Ticks -/

theorem announce_eq (cfg : Config) (now : ℤ) (h : Handler) : h.announce cfg now = h ∨
    ∃ sv, h.room.doc.encodeStateVector = .ok sv ∧ h.announce cfg now = ({ h with
      room := { h.room with lastAnnounce := some now } } : Handler).publish cfg .stateVector sv := by
  unfold announce
  split
  · exact .inl rfl
  · split
    · exact .inl rfl
    · split
      · exact .inl rfl
      next sv hsv => exact .inr ⟨sv, hsv, rfl⟩

theorem tick_eq (cfg : Config) (now : ℤ) (h : Handler) :
    let h₁ := ((h.sweepAwareness cfg now).announce cfg now).versionTick cfg now
    (h.tick cfg now).1 = h₁ ∨ h₁.room.conns = [] ∧ (h.tick cfg now).1 = h₁.evict cfg := by
  unfold tick
  simp only
  split
  · exact .inl rfl
  next hempty =>
    split
    · exact .inl rfl
    · split
      · exact .inl rfl
      · exact .inr ⟨by simpa using hempty, rfl⟩

/-! ### The fuel of `leave` -/

/-- Two ways of leaving that agree in rooms of at most `k` connections drop a list of connections
alike. -/
theorem foldl_drop_congr {leave leave' : Handler → Conn → Handler} {code : ℕ} {reason : Bytes}
    {k : ℕ} (haside : ∀ h c, Aside h (leave h c))
    (hsame : ∀ h c, h.room.conns.length ≤ k → leave h c = leave' h c) (slow : List Conn)
    (h : Handler) (hk : h.room.conns.length ≤ k) :
    slow.foldl (fun h c => (leave h c).close c code reason) h =
      slow.foldl (fun h c => (leave' h c).close c code reason) h := by
  induction slow generalizing h with
  | nil => rfl
  | cons c slow ih =>
    rw [List.foldl_cons, List.foldl_cons, ← hsame h c hk]
    exact ih _ ((haside h c).conns.length_le.trans hk)

theorem retract_congr {leave leave' : Handler → Conn → Handler} {k : ℕ}
    (haside : ∀ h c, Aside h (leave h c))
    (hsame : ∀ h c, h.room.conns.length ≤ k → leave h c = leave' h c) (clients : List ℕ)
    (hk : h.room.conns.length ≤ k) :
    h.retract cfg now leave clients = h.retract cfg now leave' clients := by
  unfold retract
  split
  · congr 1
    exact foldl_drop_congr haside hsame _ _ (by rw [sendEach_room]; exact hk)
  · rfl

variable (now) in
theorem forgetConn_length {conn : Conn} {clients : List ℕ}
    (hc : h.room.clientsOf conn = some clients) :
    (h.forgetConn now conn).room.conns.length < h.room.conns.length := by
  unfold clientsOf at hc
  obtain ⟨p, hp, -⟩ := Option.map_eq_some_iff.1 hc
  refine List.length_filter_lt_length_iff_exists.2 ⟨p, List.mem_of_find?_eq_some hp, ?_⟩
  simpa using List.find?_some hp

theorem leaveLoop_congr {n m : ℕ} (hn : h.room.conns.length ≤ n) (hm : h.room.conns.length ≤ m)
    (conn : Conn) : leaveLoop cfg now n h conn = leaveLoop cfg now m h conn := by
  induction n generalizing h m conn with
  | zero =>
    have hnil : h.room.conns = [] := List.length_eq_zero_iff.1 (Nat.le_zero.1 hn)
    cases m with
    | zero => rfl
    | succ m => simp [leaveLoop, clientsOf, hnil]
  | succ n ih =>
    cases m with
    | zero =>
      have hnil : h.room.conns = [] := List.length_eq_zero_iff.1 (Nat.le_zero.1 hm)
      simp [leaveLoop, clientsOf, hnil]
    | succ m =>
      unfold leaveLoop
      split
      · rfl
      · rfl
      next clients hne hc =>
        have hlt := forgetConn_length now hc
        exact retract_congr (fun h c => leaveLoop_aside n h c)
          (fun h' c hk => ih (hk.trans (by omega)) (hk.trans (by omega)) c) clients le_rfl

/-- **`leave` as the source has it**: the connection is taken out of the table, its cursors are
retracted, and who cannot take the retraction leaves in the same way. -/
theorem leave_eq (conn : Conn) : h.leave cfg now conn =
    match h.room.clientsOf conn with
    | none => h
    | some [] => h.forgetConn now conn
    | some clients => (h.forgetConn now conn).retract cfg now (leave cfg now) clients := by
  have hloop : h.leave cfg now conn = leaveLoop cfg now (h.room.conns.length + 1) h conn :=
    leaveLoop_congr le_rfl (Nat.le_succ _) conn
  rw [hloop, leaveLoop]
  rcases hc : h.room.clientsOf conn with _ | _ | ⟨client, clients⟩
  · rfl
  · rfl
  · exact retract_congr (fun h c => leaveLoop_aside _ h c)
      (fun h' c hk => leaveLoop_congr hk le_rfl c) _ (forgetConn_length now hc).le

theorem retract_conns (clients : List ℕ) :
    (h.retract cfg now (leave cfg now) clients).room.conns.Sublist h.room.conns := by
  unfold retract
  split
  next aw payload _ =>
    have hb : Aside { h with room := { h.room with aw } }
        (Handler.broadcast cfg now { h with room := { h.room with aw } } (writeAwareness payload)
          none) := broadcast_aside ..
    exact (publish_awareness_aside _).conns.trans hb.conns
  · exact .refl _

theorem clientsOf_leave (conn : Conn) : (h.leave cfg now conn).room.clientsOf conn = none := by
  have hgone : (h.forgetConn now conn).room.clientsOf conn = none := by
    simp [clientsOf, forgetConn, List.find?_eq_none]
  have hsub : ∀ h' : Handler, h'.room.conns.Sublist (h.forgetConn now conn).room.conns →
      h'.room.clientsOf conn = none := by
    intro h' hs
    simp only [clientsOf, Option.map_eq_none_iff, List.find?_eq_none] at hgone ⊢
    exact fun p hp => hgone p (hs.subset hp)
  rw [leave_eq]
  split
  next hc => exact hc
  next => exact hgone
  next clients hne hc =>
    exact hsub _ (retract_conns clients)

end Handler

end YCollab.Room
