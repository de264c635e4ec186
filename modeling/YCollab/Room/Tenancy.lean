import YCollab.Data.Machine
import YCollab.Room.Manager

/-!
# A document changes hands

`setOwner` of `cmd/server/documents.go` on a node where tenants keep joining: it evicts the room of
the document and then updates the row, in two steps. `Join` settles who owns the document against
the row, and opens a room for that owner in a later section under the manager's lock. So a room may
be opened for the old owner between the two steps, or after both by a call that settled before
(`old_owner_stays`).

`owner_change_effective` says when the change takes effect: when the row is updated, no room of
another owner may be resident, and no call of another owner may have settled without having gone
on. Rooms of other names come and go (`elsewhere`), other nodes may create the row (`insert`);
reading a document changes nothing here and is left out.
-/

namespace YCollab.Room

open Store

namespace Tenancy

/-- Where a call of `Join` is. -/
inductive Phase where
  /-- It is about to look for the room. -/
  | entering
  /-- It found no room and is about to ask the store. -/
  | asking
  /-- The store has said that the document is its tenant's. -/
  | settled
  /-- It has been handed the room with this serial. -/
  | got (serial : ℕ)
  /-- The room has taken the connection. -/
  | joined (serial : ℕ)
  /-- It has returned an error. -/
  | refused
  deriving DecidableEq

/-- A call of `Join`. -/
structure Call where
  owner : Bytes
  /-- Whether it was made after `setOwner` had returned. -/
  late : Bool
  phase : Phase

/-- Where the request is that changes the owner. -/
inductive Request where
  | idle
  /-- `Evict` has found the room with this serial. -/
  | evicting (serial : ℕ)
  /-- `Evict` has returned true. -/
  | evicted
  /-- The row has been updated. -/
  | updated
  /-- It has answered that the owner was changed. -/
  | done
  /-- It has answered something else. -/
  | refused
  deriving DecidableEq

/-- What a call does next. -/
inductive Act where
  /-- The first section under the lock. -/
  | resident
  /-- `Ensure`, which may fail. -/
  | settle (ok : Bool)
  /-- The second section under the lock; if a limit is in the way, whether `evictOne` made room. -/
  | tryGet (evicted : Bool)
  /-- `r.Join`, which a room that is closed refuses. -/
  | handOver (ok : Bool)

/-- What happens next. -/
inductive Action where
  | start (id : ℕ) (owner : Bytes)
  | act (id : ℕ) (act : Act)
  /-- The room reads its document. -/
  | load (serial : ℕ)
  /-- The room stops, for any reason. -/
  | forget (serial : ℕ)
  /-- A section that is about another name. -/
  | elsewhere (s : Step)
  /-- Somebody else creates the row of the document. -/
  | insert (owner : UUID)
  /-- `Evict`, up to the end of its section under the lock. -/
  | evict
  /-- The room has answered `EvictIfIdle`, and is done if it said yes. -/
  | evicted (ok : Bool)
  /-- `SetOwner`, which may fail. -/
  | update (ok : Bool)
  | finish

end Tenancy

open Tenancy

/-- A node, the row of one document, and a request to give it to the owner `heir`. -/
structure Tenancy where
  manager : Manager := {}
  /-- The owner in the row, if there is one. -/
  row : Option UUID
  request : Request := .idle
  calls : ℕ → Option Call := fun _ => none

namespace Tenancy

variable (sha1 : Sha1) (cfg : ManagerConfig) (name : Bytes) (heir : UUID) (s : Tenancy)

/-- The call goes on to `phase`. -/
def setPhase (id : ℕ) (c : Call) (phase : Phase) : Tenancy :=
  { s with calls := Function.update s.calls id (some { c with phase }) }

/-- `ensureIn`: the row is created if it is not there. -/
def ensure (owner : UUID) : Tenancy := { s with row := some (s.row.getD owner) }

/-- What the call `id`, which is at `c`, makes of an action. -/
def act (id : ℕ) (c : Call) (act : Act) : Option Tenancy :=
  match c.phase, act with
  | .entering, .resident =>
    match s.manager.find name with
    | none => some (s.setPhase id c .asking)
    | some r =>
      match s.manager.handOut sha1 r name c.owner with
      | (manager, .room serial) => some ({ s with manager }.setPhase id c (.got serial))
      | (manager, _) => some ({ s with manager }.setPhase id c .refused)
  | .asking, .settle ok =>
    if ok then
      let s := s.ensure (ownerID sha1 c.owner)
      some (s.setPhase id c (if s.row = some (ownerID sha1 c.owner) then .settled else .refused))
    else some (s.setPhase id c .refused)
  | .settled, .tryGet evicted =>
    match s.manager.tryGet sha1 cfg name c.owner with
    | (manager, .room serial) => some ({ s with manager }.setPhase id c (.got serial))
    | (manager, .full _) =>
      some ({ s with manager }.setPhase id c (if evicted then .entering else .refused))
    | (manager, _) => some ({ s with manager }.setPhase id c .refused)
  | .got serial, .handOver ok =>
    some (s.setPhase id c (if ok then .joined serial else .entering))
  | _, _ => none

/-- The section is about another name. -/
def Elsewhere (name : Bytes) : Step → Prop
  | .join path _ => trimSlashes path ≠ name
  | .settle n _ _ => n ≠ name
  | .open n _ => n ≠ name
  | .forget n _ => n ≠ name
  | .measured _ _ => True
  | .wait => True

instance (name : Bytes) : DecidablePred (Elsewhere name)
  | .join path _ => inferInstanceAs (Decidable (trimSlashes path ≠ name))
  | .settle n _ _ => inferInstanceAs (Decidable (n ≠ name))
  | .open n _ => inferInstanceAs (Decidable (n ≠ name))
  | .forget n _ => inferInstanceAs (Decidable (n ≠ name))
  | .measured _ _ => inferInstanceAs (Decidable True)
  | .wait => inferInstanceAs (Decidable True)

/-- One action: a call, the registry, the row or the request goes on. -/
def step : Action → Option Tenancy
  | .start id owner =>
    match s.calls id with
    | some _ => none
    | none =>
      some { s with calls :=
        Function.update s.calls id (some ⟨owner, s.request = .done, .entering⟩) }
  | .act id a =>
    match s.calls id with
    | some c => s.act sha1 cfg name id c a
    | none => none
  | .load serial =>
    match s.manager.rooms.find? fun r => r.name = name ∧ r.serial = serial with
    | none => none
    | some r =>
      let s := s.ensure r.owner
      -- a room whose document is not its owner's does not open
      some (if s.row = some r.owner then s
        else { s with manager := s.manager.forget name serial })
  | .forget serial => some { s with manager := s.manager.forget name serial }
  | .elsewhere st =>
    if Elsewhere name st then some { s with manager := s.manager.step sha1 cfg st } else none
  | .insert owner => some (s.ensure owner)
  | .evict =>
    match s.request with
    | .idle =>
      match s.manager.find name with
      | none => some { s with request := .evicted }
      | some r => some { s with request := .evicting r.serial }
    | _ => none
  | .evicted ok =>
    match s.request with
    | .evicting serial =>
      if ok then
        -- a room that is done has left the registry
        if s.manager.rooms.any fun r => r.name = name ∧ r.serial = serial then none
        else some { s with request := .evicted }
      else some { s with request := .refused }
    | _ => none
  | .update ok =>
    match s.request with
    | .evicted =>
      match ok, s.row with
      | true, some _ => some { s with row := some heir, request := .updated }
      | _, _ => some { s with request := .refused }
    | _ => none
  | .finish =>
    match s.request with
    | .updated => some { s with request := .done }
    | _ => none

end Tenancy

/-! ### Owners of rooms -/

namespace Manager

variable {sha1 : Sha1} {cfg : ManagerConfig} {name : Bytes} {m m' m'' : Manager} {P : UUID → Prop}

/-- The rooms of the name have owners in `P`. -/
def Owned (name : Bytes) (P : UUID → Prop) (m : Manager) : Prop :=
  ∀ r ∈ m.rooms, r.name = name → P r.owner

theorem Owned.map (h : Owned name P m) {f : Resident → Resident} (hrooms : m'.rooms = m.rooms.map f)
    (hf : ∀ r, (f r).name = r.name ∧ (f r).owner = r.owner) : Owned name P m' := by
  intro r hr hname
  rw [hrooms] at hr
  obtain ⟨r₀, hr₀, rfl⟩ := List.mem_map.1 hr
  rw [(hf r₀).2]
  exact h r₀ hr₀ ((hf r₀).1 ▸ hname)

theorem Owned.touch (h : Owned name P m) (n : Bytes) : Owned name P (m.touch n) :=
  h.map rfl fun r => by split <;> exact ⟨rfl, rfl⟩

theorem Owned.handOut (h : Owned name P m) (r : Resident) (n owner : Bytes) :
    Owned name P (m.handOut sha1 r n owner).1 := by
  unfold Manager.handOut
  split
  · exact h
  · exact h.touch n

theorem owner_of_handOut {r : Resident} {n owner : Bytes} {serial : ℕ}
    (h : m.handOut sha1 r n owner = (m', .room serial)) : r.owner = ownerID sha1 owner := by
  unfold Manager.handOut at h
  split at h
  · cases h
  next heq => exact not_not.1 heq

theorem Owned.forget (h : Owned name P m) (n : Bytes) (serial : ℕ) :
    Owned name P (m.forget n serial) := by
  intro r hr
  exact h r (List.mem_of_mem_filter hr)

theorem Owned.tryGet (h : Owned name P m) {n owner : Bytes}
    (hnew : n = name → P (ownerID sha1 owner)) :
    Owned name P (m.tryGet sha1 cfg n owner).1 := by
  unfold Manager.tryGet
  split
  next r _ => exact h.handOut r n owner
  next =>
    split
    · exact h
    · split
      · exact h
      · split
        · exact h
        · rintro r (_ | ⟨_, hr⟩) hname
          · exact hnew hname
          · exact h r hr hname

/-- Sections about other names leave the rooms of this one alone. -/
theorem Owned.elsewhere (h : Owned name P m) {st : Step} (hst : Tenancy.Elsewhere name st) :
    Owned name P (m.step sha1 cfg st) := by
  cases st with
  | join path owner =>
    simp only [Manager.step, Manager.resident]
    split
    · split
      next r _ => exact h.handOut r _ owner
      next => exact h
    · exact h
  | settle n owner found =>
    simp only [Manager.step, Manager.settleOwner]
    split
    · split
      · exact h
      · exact h
    · exact h
  | «open» n owner =>
    simp only [Manager.step]
    split
    · have h' : Owned name P { m with settled := m.settled.erase (n, owner) } := h
      exact h'.tryGet fun heq => absurd heq hst
    · exact h
  | forget n serial => exact h.forget n serial
  | measured serial bytes => exact h.map rfl fun r => by split <;> exact ⟨rfl, rfl⟩
  | wait => exact h

end Manager

namespace Tenancy

variable {sha1 : Sha1} {cfg : ManagerConfig} {name : Bytes} {heir : UUID} {s s' : Tenancy}

/-! ### The change of owner -/

/-- When the row is updated, whoever has the document in hand is the new owner. -/
def Clear (sha1 : Sha1) (name : Bytes) (heir : UUID) (s : Tenancy) : Action → Prop
  | .update _ => s.manager.Owned name (· = heir) ∧
      ∀ id c, s.calls id = some c → c.phase = .settled → ownerID sha1 c.owner = heir
  | _ => True

/-- The call has been handed a room. -/
def Phase.Served : Phase → Prop
  | .got _ => True
  | .joined _ => True
  | _ => False

/-- The document is in the hands of the new owner. -/
structure Passed (sha1 : Sha1) (name : Bytes) (heir : UUID) (s : Tenancy) : Prop where
  row : s.row = some heir
  rooms : s.manager.Owned name (· = heir)
  settled (id : ℕ) (c : Call) : s.calls id = some c → c.phase = .settled →
    ownerID sha1 c.owner = heir
  late (id : ℕ) (c : Call) : s.calls id = some c → c.late = true → c.phase.Served →
    ownerID sha1 c.owner = heir

/-- What holds in every run whose update is clear. -/
structure Orderly (sha1 : Sha1) (name : Bytes) (heir : UUID) (s : Tenancy) : Prop where
  passed : s.request = .updated ∨ s.request = .done → s.Passed sha1 name heir
  early : s.request ≠ .done → ∀ id c, s.calls id = some c → c.late = false

theorem ensure_eq_self {owner found : UUID} (h : s.row = some found) : s.ensure owner = s := by
  obtain ⟨manager, row, request, calls⟩ := s
  obtain rfl : row = some found := h
  rfl

theorem Passed.setPhase (h : s.Passed sha1 name heir) {id : ℕ} {c : Call}
    (hc : s.calls id = some c) {manager : Manager} (hrooms : manager.Owned name (· = heir))
    {phase : Phase} (hsettled : phase = .settled → ownerID sha1 c.owner = heir)
    (hserved : c.late = true → phase.Served → ownerID sha1 c.owner = heir) :
    ({ s with manager }.setPhase id c phase).Passed sha1 name heir where
  row := h.row
  rooms := hrooms
  settled j c' hj hp := by
    rcases Machine.set_eq_some.1 hj with ⟨rfl, rfl⟩ | ⟨-, hj⟩
    · exact hsettled hp
    · exact h.settled j c' hj hp
  late j c' hj hl hp := by
    rcases Machine.set_eq_some.1 hj with ⟨rfl, rfl⟩ | ⟨-, hj⟩
    · exact hserved hl hp
    · exact h.late j c' hj hl hp

/-- **One call goes on** after the row was updated. -/
theorem Passed.act (h : s.Passed sha1 name heir) {id : ℕ} {c : Call} (hc : s.calls id = some c)
    {a : Act} (hact : s.act sha1 cfg name id c a = some s') : s'.Passed sha1 name heir := by
  unfold Tenancy.act at hact
  split at hact
  next hp =>
    split at hact
    next =>
      cases hact
      exact h.setPhase hc h.rooms nofun fun _ hs => hs.elim
    next r hfind =>
      have hrooms : (s.manager.handOut sha1 r name c.owner).1.Owned name (· = heir) :=
        h.rooms.handOut r name c.owner
      have hr : r.owner = heir := by
        have hname : r.name = name := by simpa using List.find?_some hfind
        exact h.rooms r (List.mem_of_find?_eq_some hfind) hname
      split at hact
      next manager serial hout =>
        cases hact
        rw [hout] at hrooms
        exact h.setPhase hc hrooms nofun fun _ _ => (Manager.owner_of_handOut hout).symm.trans hr
      next manager answer _ hout =>
        cases hact
        rw [hout] at hrooms
        exact h.setPhase hc hrooms nofun fun _ hs => hs.elim
  next ok hp =>
    split at hact
    · rw [ensure_eq_self h.row] at hact
      cases hact
      refine h.setPhase hc h.rooms (fun hs => ?_) fun _ hs => ?_
      · split at hs
        next heq => exact Option.some.inj (heq.symm.trans h.row)
        next => cases hs
      · split at hs <;> exact hs.elim
    · cases hact
      exact h.setPhase hc h.rooms nofun fun _ hs => hs.elim
  next evicted hp =>
    have howner := h.settled id c hc hp
    have hrooms : (s.manager.tryGet sha1 cfg name c.owner).1.Owned name (· = heir) :=
      h.rooms.tryGet fun _ => howner
    split at hact
    next manager serial hout =>
      cases hact
      rw [hout] at hrooms
      exact h.setPhase hc hrooms nofun fun _ _ => howner
    next manager candidates hout =>
      cases hact
      rw [hout] at hrooms
      exact h.setPhase hc hrooms (fun _ => howner) fun _ _ => howner
    next manager answer _ _ hout =>
      cases hact
      rw [hout] at hrooms
      exact h.setPhase hc hrooms nofun fun _ _ => howner
  next serial ok hp =>
    cases hact
    refine h.setPhase hc h.rooms (fun hs => ?_) fun hl hs => h.late id c hc hl (hp ▸ trivial)
    split at hs <;> cases hs
  next => cases hact

theorem Passed.manager (h : s.Passed sha1 name heir) {manager : Manager}
    (hrooms : manager.Owned name (· = heir)) : ({ s with manager } : Tenancy).Passed sha1 name heir :=
  ⟨h.row, hrooms, h.settled, h.late⟩

/-- A call never changes the request, and whether it is late was decided when it was made. -/
theorem act_frame {id : ℕ} {c : Call} (hc : s.calls id = some c) {a : Act}
    (hact : s.act sha1 cfg name id c a = some s') :
    s'.request = s.request ∧ ∀ j c', s'.calls j = some c' →
      ∃ c₀, s.calls j = some c₀ ∧ c₀.late = c'.late := by
  -- whatever became of the registry and the row, the call only moves to another phase
  have hset : ∀ (s₁ : Tenancy) phase, s' = s₁.setPhase id c phase → s₁.request = s.request →
      s₁.calls = s.calls → s'.request = s.request ∧ ∀ j c', s'.calls j = some c' →
        ∃ c₀, s.calls j = some c₀ ∧ c₀.late = c'.late := by
    rintro s₁ phase rfl hreq hcalls
    refine ⟨hreq, fun j c' hj => ?_⟩
    rcases Machine.set_eq_some.1 hj with ⟨rfl, rfl⟩ | ⟨-, hj⟩
    · exact ⟨c, hc, rfl⟩
    · exact ⟨c', hcalls ▸ hj, rfl⟩
  unfold Tenancy.act at hact
  split at hact
  next =>
    split at hact
    · exact hset _ _ (Option.some.inj hact).symm rfl rfl
    · split at hact <;> exact hset _ _ (Option.some.inj hact).symm rfl rfl
  next =>
    split at hact
    · exact hset _ _ (Option.some.inj hact).symm rfl rfl
    · exact hset _ _ (Option.some.inj hact).symm rfl rfl
  next => split at hact <;> exact hset _ _ (Option.some.inj hact).symm rfl rfl
  next => exact hset _ _ (Option.some.inj hact).symm rfl rfl
  next => cases hact

theorem Orderly.of_passed (h : s.Orderly sha1 name heir) (hreq : s'.request = s.request)
    (hcalls : s'.calls = s.calls)
    (hpassed : s.Passed sha1 name heir → s'.Passed sha1 name heir) : s'.Orderly sha1 name heir where
  passed hr := hpassed (h.passed (hreq ▸ hr))
  early hr := hcalls ▸ h.early (hreq ▸ hr)

theorem Orderly.start (h : s.Orderly sha1 name heir) (id : ℕ) (owner : Bytes) :
    Orderly sha1 name heir { s with
      calls := Function.update s.calls id (some ⟨owner, s.request = .done, .entering⟩) } := by
  refine ⟨fun hr => ?_, fun hr j c hj => ?_⟩
  · obtain ⟨hrow, hrooms, hsettled, hlate⟩ := h.passed hr
    refine ⟨hrow, hrooms, fun j c hj hp => ?_, fun j c hj hl hp => ?_⟩
    · rcases Machine.set_eq_some.1 hj with ⟨rfl, rfl⟩ | ⟨-, hj⟩
      · cases hp
      · exact hsettled j c hj hp
    · rcases Machine.set_eq_some.1 hj with ⟨rfl, rfl⟩ | ⟨-, hj⟩
      · exact hp.elim
      · exact hlate j c hj hl hp
  · rcases Machine.set_eq_some.1 hj with ⟨rfl, rfl⟩ | ⟨-, hj⟩
    · exact decide_eq_false hr
    · exact h.early hr j c hj

theorem Orderly.before (h : s.Orderly sha1 name heir) (hnot : s.request ≠ .done) {request : Request}
    (hupdated : request ≠ .updated) (hdone : request ≠ .done) :
    Orderly sha1 name heir { s with request } :=
  ⟨fun hr => (hr.elim hupdated hdone).elim, fun _ => h.early hnot⟩

theorem Orderly.update (h : s.Orderly sha1 name heir) (hnot : s.request ≠ .done)
    (hclear : Clear sha1 name heir s (.update true)) :
    Orderly sha1 name heir { s with row := some heir, request := .updated } := by
  have hearly := h.early hnot
  refine ⟨fun _ => ⟨rfl, hclear.1, hclear.2, fun id c hc hl => ?_⟩, fun _ => hearly⟩
  rw [hearly id c hc] at hl
  cases hl

theorem Orderly.step (h : s.Orderly sha1 name heir) {a : Action} (hclear : Clear sha1 name heir s a)
    (hstep : s.step sha1 cfg name heir a = some s') : s'.Orderly sha1 name heir := by
  cases a with
  | start id owner =>
    simp only [Tenancy.step] at hstep
    split at hstep
    · cases hstep
    · cases hstep
      exact h.start id owner
  | act id a =>
    simp only [Tenancy.step] at hstep
    split at hstep
    next c hc =>
      obtain ⟨hreq, hcalls⟩ := act_frame hc hstep
      refine ⟨fun hr => (h.passed (hreq ▸ hr)).act hc hstep, fun hr j c' hj => ?_⟩
      obtain ⟨c₀, hj₀, hlate⟩ := hcalls j c' hj
      exact hlate ▸ h.early (hreq ▸ hr) j c₀ hj₀
    next => cases hstep
  | load serial =>
    simp only [Tenancy.step] at hstep
    split at hstep
    · cases hstep
    next r _ =>
      cases hstep
      refine h.of_passed ?_ ?_ fun hpassed => ?_
      · split <;> rfl
      · split <;> rfl
      · rw [ensure_eq_self hpassed.row]
        split
        · exact hpassed
        · exact hpassed.manager (hpassed.rooms.forget name serial)
  | forget serial =>
    cases hstep
    exact h.of_passed rfl rfl fun hpassed => hpassed.manager (hpassed.rooms.forget name serial)
  | elsewhere st =>
    simp only [Tenancy.step] at hstep
    split at hstep
    next hst =>
      cases hstep
      exact h.of_passed rfl rfl fun hpassed => hpassed.manager (hpassed.rooms.elsewhere hst)
    next => cases hstep
  | insert owner =>
    cases hstep
    refine h.of_passed rfl rfl fun hpassed => ?_
    rwa [ensure_eq_self hpassed.row]
  | evict =>
    simp only [Tenancy.step] at hstep
    split at hstep
    next hidle =>
      split at hstep <;> cases hstep <;> exact h.before (by simp [hidle]) nofun nofun
    next => cases hstep
  | evicted ok =>
    simp only [Tenancy.step] at hstep
    split at hstep
    next serial hreq =>
      split at hstep
      · split at hstep
        · cases hstep
        · cases hstep
          exact h.before (by simp [hreq]) nofun nofun
      · cases hstep
        exact h.before (by simp [hreq]) nofun nofun
    next => cases hstep
  | update ok =>
    simp only [Tenancy.step] at hstep
    split at hstep
    next hreq =>
      split at hstep
      · cases hstep
        exact h.update (by simp [hreq]) hclear
      · cases hstep
        exact h.before (by simp [hreq]) nofun nofun
    next => cases hstep
  | finish =>
    simp only [Tenancy.step] at hstep
    split at hstep
    next hreq =>
      cases hstep
      have hpassed := h.passed (.inl hreq)
      exact ⟨fun _ => ⟨hpassed.row, hpassed.rooms, hpassed.settled, hpassed.late⟩, by simp⟩
    next => cases hstep

end Tenancy

open Tenancy in
/-- **A change of owner takes effect** in every run in which, when the row is updated, no room of
another owner is resident and no call of another owner has settled. -/
theorem owner_change_effective {sha1 : Sha1} {cfg : ManagerConfig} {name : Bytes} {heir : UUID}
    {row : Option UUID} {l : List Action} {s : Tenancy}
    (hl : Machine.Along (Tenancy.step sha1 cfg name heir) (Clear sha1 name heir) { row } l)
    (hrun : Machine.run (Tenancy.step sha1 cfg name heir) { row } l = some s)
    (hdone : s.request = .done) :
    (∀ r ∈ s.manager.rooms, r.name = name → r.owner = heir) ∧
    ∀ id c serial, s.calls id = some c → c.late = true → ownerID sha1 c.owner ≠ heir →
      c.phase ≠ .joined serial := by
  have hstart : Tenancy.Orderly sha1 name heir { row } := ⟨by simp, by simp⟩
  have horderly : s.Orderly sha1 name heir :=
    Machine.invariant (fun h ha hs => h.step ha hs) hstart hl hrun
  have hpassed := horderly.passed (.inr hdone)
  refine ⟨hpassed.rooms, fun id c serial hc hlate hother hp => hother ?_⟩
  exact hpassed.late id c hc hlate (hp ▸ trivial)

namespace Tenancy.Sample

open Manager.Sample

/-- The document `notes` is given to the tenant with this UUID. -/
def heir : UUID := ownerID shown lowerName

/-- The runs below are about one name and one heir. -/
def step : Tenancy → Action → Option Tenancy := Tenancy.step shown {} notes heir

/-- A room is opened by a call that names no tenant, and evicted. -/
def before : List Action :=
  [.start 0 [], .act 0 .resident, .act 0 (.settle true), .act 0 (.tryGet false), .load 0,
    .act 0 (.handOver true), .evict, .forget 0, .evicted true]

/-- The new owner joins, and somebody who names no tenant tries to. -/
def after : List Action :=
  [.finish, .start 1 lowerName, .act 1 .resident, .act 1 (.settle true), .act 1 (.tryGet false),
    .load 1, .act 1 (.handOver true), .start 2 [], .act 2 .resident]

/-- The room is opened by a call that had settled before, after `Evict` found none. -/
def hasty : List Action :=
  [.start 0 [], .act 0 .resident, .act 0 (.settle true), .evict, .act 0 (.tryGet false), .load 0,
    .update true, .finish, .start 1 [], .act 1 .resident, .act 1 (.handOver true)]

end Tenancy.Sample

open Tenancy.Sample in
/-- A document whose room was evicted before its row was updated. -/
theorem notes_change_hands :
    ∃ s, Machine.run step { row := none } (before ++ .update true :: after) = some s ∧
      s.request = .done ∧ (s.calls 1).map (·.phase) = some (.joined 1) ∧
      (s.calls 2).map (·.phase) = some .refused ∧
      ∀ r ∈ s.manager.rooms, r.name = Manager.Sample.notes → r.owner = heir := by
  have hrun : Machine.run step { row := none } (before ++ .update true :: after) = some _ := rfl
  refine ⟨_, hrun, rfl, rfl, rfl, (owner_change_effective ?_ hrun rfl).1⟩
  refine .append (.of_forall (by simp [before, Clear]) _) fun m hm => ?_
  cases hm
  -- when the row is updated there is no room, and the only call has been handed its own
  refine ⟨⟨by rintro r ⟨⟩, ?_⟩, fun s' _ => .of_forall (by simp [after, Clear]) s'⟩
  rintro (_ | id) c ⟨⟩ ⟨⟩

open Tenancy.Sample in
/-- **The old owner keeps the document**: its room was opened after the eviction, and `Join` goes
on answering from memory. -/
theorem old_owner_stays : ∃ s, Machine.run step { row := none } hasty = some s ∧
    s.request = .done ∧ s.row = some heir ∧ s.manager.rooms.map (·.owner) = [nilUUID] ∧
    nilUUID ≠ heir ∧ (s.calls 1).map (fun c => (c.owner, c.late, c.phase)) =
      some ([], true, .joined 0) :=
  ⟨_, rfl, rfl, rfl, rfl, by decide, rfl⟩

end YCollab.Room
