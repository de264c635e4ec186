import YCollab.Data.Machine
import YCollab.Room.Handover

/-!
# Merging an update from outside

`mergeDocument` and `Import`: a request looks for a room of the document. If there is one, the room
applies the update itself; if there is none, or it stops before it has answered, the update is
appended to the log, where the next load finds it. The bus does not bring it to this node's rooms:
they take no envelope of their own node.

`merge_reaches_room` says that a request that has succeeded has reached every room that runs, if
rooms follow one another (`Node.Apart`), none has loaded the document already when the update is
appended, and nothing of the update is held back (`Doc.TakesIn`): what is held back does not outlive
the room. `import_misses_room` is a room that has loaded already: it was opened between the look-up
and the append.
-/

namespace YCollab.Crdt.Doc

/-- All of the update is in the document: each of its structs is stored, and what its delete set
names is deleted. -/
def Took (d : Doc) (u : Update) : Prop :=
  (∀ st ∈ u.structs, d.Done st) ∧
    ∀ p ∈ u.deletes.entries, ∀ r ∈ p.2, ∀ k < r.len, d.Gone ⟨p.1, r.clock + k⟩

instance (d : Doc) (u : Update) : Decidable (d.Took u) :=
  have (st : Struct) : Decidable (d.Done st) := inferInstanceAs (Decidable (_ ∨ _))
  have (x : ID) : Decidable (d.Gone x) := inferInstanceAs (Decidable (∃ st ∈ _, _ ∧ _ ∧ _))
  inferInstanceAs (Decidable (_ ∧ ∀ p ∈ u.deletes.entries, ∀ r ∈ p.2, ∀ k < r.len, _))

theorem Contains.took {d d' : Doc} {u : Update} (h : d'.Contains d) (hu : d.Took u) : d'.Took u :=
  ⟨fun st hst => (hu.1 st hst).mono h.state, fun p hp r hr k hk => h.gone _ (hu.2 p hp r hr k hk)⟩

/-- Nothing of the update is held back, remembered or dropped when the document receives it. -/
def TakesIn (d : Doc) (update : Bytes) : Prop :=
  match decodeUpdate update with
  | .ok u => (d.applyDecodedUpdate u).Took u
  | .error _ => True

instance (d : Doc) (update : Bytes) : Decidable (d.TakesIn update) :=
  match h : decodeUpdate update with
  | .ok u => decidable_of_iff ((d.applyDecodedUpdate u).Took u) (by simp [TakesIn, h])
  | .error _ => isTrue (by simp [TakesIn, h])

theorem TakesIn.took {d doc : Doc} {update : Bytes} (h : d.TakesIn update)
    (happly : d.applyUpdate update = .ok doc) : ∃ u, decodeUpdate update = .ok u ∧ doc.Took u := by
  unfold TakesIn at h
  unfold applyUpdate at happly
  cases hu : decodeUpdate update with
  | error x =>
    rw [hu] at happly
    cases happly
  | ok u =>
    rw [hu] at h happly
    cases happly
    exact ⟨u, rfl, h⟩

end YCollab.Crdt.Doc

namespace YCollab.Room

open Lib0 Crdt Protocol Store

/-- The document that is stored. -/
def restored (p : Storage) (db : Database) : Option Doc :=
  match db.find p.id with
  | none => none
  | some d =>
    match d.readSnapshot p.flate p.objects with
    | .error _ => none
    | .ok snapshot => (restore ⟨snapshot, (db.logOf p.id).map (·.payload),
        (db.logOf p.id).map (·.seq)⟩).toOption

/-- How far a request has come. -/
inductive MergeProgress where
  /-- It has not looked for a room yet. -/
  | called
  /-- `Merge` has sent the command to room `k`. -/
  | sent (k : ℕ)
  /-- The room has answered. -/
  | answered (k : ℕ) (result : Option Err)
  /-- `Import` is called. -/
  | importing
  /-- The document has its row, and the owner is right. -/
  | ensured
  | returned (ok : Bool)

/-- The update is where it should be. -/
def MergeProgress.Success : MergeProgress → Prop
  | .returned ok => ok = true
  | .answered _ result => result = none
  | .called | .sent _ | .importing | .ensured => False

/-- A request. -/
structure MergeCall where
  update : Bytes
  /-- The parameter `owner`, if it is given. -/
  owner : Option UUID := none
  progress : MergeProgress := .called
  /-- For the proofs: the document the update was merged into, with the update. -/
  made : Option Doc := none

/-- The rooms of one document, and the requests to merge something into it. -/
structure Merging where
  node : Node
  calls : List MergeCall := []

namespace Merging

/-- What happens. -/
inductive Act where
  | node (a : Node.Act)
  /-- A request begins. -/
  | request (update : Bytes) (owner : Option UUID)
  /-- A request looks for a room. -/
  | look (c : ℕ)
  /-- The room handles the command of a request. -/
  | handle (c : ℕ) (now : ℤ) (outcomes : List Bool)
  /-- A request reads the room's answer. -/
  | reply (c : ℕ)
  /-- A request finds the room gone: the mailbox is closed, or `done` is. -/
  | gone (c : ℕ)
  /-- `Import` checks the update, and calls `Ensure`. -/
  | ensure (c : ℕ) (now : ℕ)
  /-- `Import` calls `Append`, and then the bus if there is one, which may fail. -/
  | append (c : ℕ) (now : ℕ) (published : Bool)

variable (p : Storage) (limits : Limits) (cfg : Config) (e : Merging)

/-- A request goes on. -/
def put (c : ℕ) (call : MergeCall) : Merging := { e with calls := e.calls.set c call }

/-- The channel `done` of room `k` is closed. -/
def Over (k : ℕ) : Prop := (e.node.rooms[k]?).any (· matches .done _)

instance (k : ℕ) : Decidable (e.Over k) := inferInstanceAs (Decidable (_ = true))

/-- The session of room `k`, if it takes commands. -/
def running (k : ℕ) : Option Session :=
  match e.node.rooms[k]? with
  | some (.running s) => some s
  | _ => none

/-- One step of a request, if it can happen. -/
def goes (call : MergeCall) : Act → Option Merging
  | .look c =>
    match call.progress with
    | .called =>
      match e.node.registered with
      | none => some (e.put c { call with progress := .importing })
      | some k =>
        if call.owner = none ∨ call.owner = some p.owner then
          some (e.put c { call with progress := .sent k })
        else some (e.put c { call with progress := .returned false })
    | _ => none
  | .handle c now outcomes =>
    match call.progress with
    | .sent k =>
      let i : Input := ⟨.command (.merge call.update), now, outcomes⟩
      match e.running k, e.node.step p limits cfg (.act k (.turn i)) with
      | some s, some node =>
        let h := s.room.turn cfg i
        match h.reply with
        | some (.merged none) =>
          some { e.put c { call with progress := .answered k none, made := some h.room.doc } with
            node }
        | some (.merged (some err)) =>
          some { e.put c { call with progress := .answered k (some err) } with node }
        | _ => none
      | _, _ => none
    | _ => none
  | .reply c =>
    match call.progress with
    | .answered _ result => some (e.put c { call with progress := .returned result.isNone })
    | _ => none
  | .gone c =>
    match call.progress with
    | .sent k | .answered k _ =>
      -- the answer and the end may both be there, and `select` takes either
      if e.Over k then some (e.put c { call with progress := .importing }) else none
    | _ => none
  | .ensure c now =>
    match call.progress with
    | .importing =>
      match Doc.empty.applyUpdate call.update with
      | .error _ => some (e.put c { call with progress := .returned false })
      | .ok _ =>
        let (db, found) := e.node.db.ensureIn p.id (call.owner.getD nilUUID) now
        let progress := if call.owner = none ∨ call.owner = some found then
          MergeProgress.ensured else .returned false
        some { e.put c { call with progress } with node := { e.node with db } }
    | _ => none
  | .append c now published =>
    match call.progress with
    | .ensured =>
      match e.node.db.append p.id [call.update] now with
      | none => some (e.put c { call with progress := .returned false })
      | some (db, _) =>
        some { e.put c { call with progress := .returned published, made := restored p db } with
          node := { e.node with db } }
    | _ => none
  | .node _ | .request .. => none

/-- The request that takes a step. -/
def Act.request? : Act → Option ℕ
  | .look c | .handle c .. | .reply c | .gone c | .ensure c _ | .append c .. => some c
  | .node _ | .request .. => none

/-- One step, if it can happen. -/
def step (a : Act) : Option Merging :=
  match a with
  | .node a => (e.node.step p limits cfg a).map fun node => { e with node }
  | .request update owner =>
    -- what says nothing is refused
    let progress := if update = [] ∨ isEmptyUpdate update then
      MergeProgress.returned false else .called
    some { e with calls := e.calls ++ [{ update, owner, progress }] }
  | a => (a.request?.bind (e.calls[·]?)).bind (e.goes p limits cfg · a)

/-- The state after a list of steps, if they can happen. -/
def run (e : Merging) (l : List Act) : Option Merging := Machine.run (step p limits cfg) e l

/-- What has to hold of a step, in the state it happens in: rooms follow one another, an update is
appended only while no room has loaded the document, and what is merged is taken in as a whole. -/
def Apart (p : Storage) (cfg : Config) (e : Merging) : Act → Prop
  | .node a => e.node.Apart p cfg a
  | .handle c now outcomes => ∀ call ∈ e.calls[c]?,
      match call.progress with
      | .sent k =>
        e.node.Apart p cfg (.act k (.turn ⟨.command (.merge call.update), now, outcomes⟩)) ∧
          ∀ s ∈ e.running k, s.room.doc.TakesIn call.update
      | _ => True
  | .append c .. => e.node.Quiet ∧ Session.Orderly p e.node.db ∧
      (restored p e.node.db).isSome ∧
      ∀ call ∈ e.calls[c]?, ∀ d ∈ restored p e.node.db, d.TakesIn call.update
  | .request .. | .look _ | .reply _ | .gone _ | .ensure .. => True

instance (e : Merging) : ∀ a, Decidable (e.Apart p cfg a)
  | .node a => inferInstanceAs (Decidable (e.node.Apart p cfg a))
  | .handle c now outcomes =>
    have (call : MergeCall) : Decidable (match call.progress with
      | .sent k =>
        e.node.Apart p cfg (.act k (.turn ⟨.command (.merge call.update), now, outcomes⟩)) ∧
          ∀ s ∈ e.running k, s.room.doc.TakesIn call.update
      | _ => True) :=
      match call.progress with
      | .sent k => inferInstanceAs (Decidable (e.node.Apart p cfg (.act k _) ∧
          ∀ s ∈ e.running k, s.room.doc.TakesIn call.update))
      | .called | .answered .. | .importing | .ensured | .returned _ =>
        inferInstanceAs (Decidable True)
    inferInstanceAs (Decidable (∀ call ∈ e.calls[c]?, _))
  | .append c .. => inferInstanceAs (Decidable (_ ∧ _ ∧ _ ∧
      ∀ call ∈ e.calls[c]?, ∀ d ∈ restored p e.node.db, d.TakesIn call.update))
  | .request .. | .look _ | .reply _ | .gone _ | .ensure .. => inferInstanceAs (Decidable True)

/-! ### What a request has done -/

variable {p limits cfg e} {e' : Merging} {c k : ℕ} {call call' : MergeCall} {a : Act} {doc : Doc}

theorem restored_eq_some {db : Database} : restored p db = some doc ↔ ∃ d snapshot,
    db.find p.id = some d ∧ d.readSnapshot p.flate p.objects = .ok snapshot ∧
    restore ⟨snapshot, (db.logOf p.id).map (·.payload), (db.logOf p.id).map (·.seq)⟩ = .ok doc := by
  constructor
  · intro h
    unfold restored at h
    split at h
    next => cases h
    next d hd =>
      split at h
      next => cases h
      next snapshot hread =>
        refine ⟨d, snapshot, hd, hread, ?_⟩
        generalize restore _ = r at h ⊢
        cases r with
        | error err => cases h
        | ok d' =>
          cases h
          rfl
  · rintro ⟨d, snapshot, hd, hread, hrestore⟩
    simp only [restored, hd, hread, hrestore]
    rfl

theorem givesBack_of_restored {db : Database} (h : restored p db = some doc) :
    Session.GivesBack p db doc := by
  obtain ⟨d, snapshot, hd, hread, hrestore⟩ := restored_eq_some.1 h
  exact ⟨d, snapshot, _, hd, hread, hrestore, .refl _⟩

theorem restored_append {db : Database} (update : Bytes) (now n : ℕ)
    (hdb : Session.Numbered db) (h : restored p db = some doc) : restored p { db with
        updates := db.updates ++ db.newRows p.id [update] now, nextSeq := n } =
      some (doc.receive update) := by
  obtain ⟨d, snapshot, hd, hread, hrestore⟩ := restored_eq_some.1 h
  refine restored_eq_some.2 ⟨d, snapshot, hd, hread, ?_⟩
  simp only [Database.logOf_append hdb, List.map_append, List.map_cons, List.map_nil]
  rw [Session.restore_append hrestore]
  rfl

/-- The document is what the update of the request has made of another one, and all of the update is
in it. -/
def MadeBy (call : MergeCall) (doc : Doc) : Prop :=
  (∃ d : Doc, d.applyUpdate call.update = .ok doc) ∧
    ∃ u, decodeUpdate call.update = .ok u ∧ doc.Took u

/-- What holds of the rooms and the requests. -/
structure Landed (p : Storage) (e : Merging) : Prop where
  sequential : e.node.Sequential p
  made : ∀ call ∈ e.calls, ∀ doc ∈ call.made, MadeBy call doc ∧ e.node.Held p doc
  success : ∀ call ∈ e.calls, call.progress.Success → call.made.isSome
  checked : ∀ call ∈ e.calls, call.progress = .ensured → ∃ u, decodeUpdate call.update = .ok u

theorem Landed.node (h : e.Landed p) (hstore : cfg.store = true) {node : Node} {a : Node.Act}
    (hapart : e.node.Apart p cfg a) (hstep : e.node.step p limits cfg a = some node) :
    { e with node }.Landed p :=
  ⟨h.sequential.step hstore hapart hstep, fun call hcall doc hdoc =>
    ⟨(h.made call hcall doc hdoc).1, (h.made call hcall doc hdoc).2.step h.sequential hapart hstep⟩,
    h.success, h.checked⟩

theorem Landed.put (h : e.Landed p)
    (hmade : ∀ doc ∈ call'.made, MadeBy call' doc ∧ e.node.Held p doc)
    (hsuccess : call'.progress.Success → call'.made.isSome)
    (hchecked : call'.progress = .ensured → ∃ u, decodeUpdate call'.update = .ok u) :
    (e.put c call').Landed p := by
  refine ⟨h.sequential, fun call hmem => ?_, fun call hmem => ?_, fun call hmem => ?_⟩ <;>
    rcases List.mem_or_eq_of_mem_set hmem with hmem | rfl
  · exact h.made call hmem
  · exact hmade
  · exact h.success call hmem
  · exact hsuccess
  · exact h.checked call hmem
  · exact hchecked

theorem Landed.moves (h : e.Landed p) (hcall : call ∈ e.calls) {progress : MergeProgress}
    (hsuccess : progress.Success → call.progress.Success)
    (hchecked : progress = .ensured → ∃ u, decodeUpdate call.update = .ok u) :
    (e.put c { call with progress }).Landed p :=
  h.put (h.made call hcall) (fun hs => h.success call hcall (hsuccess hs)) hchecked

theorem Landed.outside (h : e.Landed p) {db : Database} (hdb : e.node.db.Grows p.id db) :
    { e with node := { e.node with db } }.Landed p := by
  have hapart : e.node.Apart p { store := true } (.outside db) := hdb
  have hstep : e.node.step p {} { store := true } (.outside db) = some { e.node with db } := rfl
  exact h.node rfl hapart hstep

theorem session_of_running {s : Session} (h : e.running k = some s) :
    e.node.session k = some s := by
  unfold running at h
  split at h
  next hk =>
    cases h
    rw [Node.session, hk]
    rfl
  · cases h

theorem Landed.look (h : e.Landed p) (hc : e.calls[c]? = some call)
    (hstep : e.goes p limits cfg call (.look c) = some e') : e'.Landed p := by
  have hcall := List.mem_of_getElem? hc
  simp only [goes] at hstep
  split at hstep
  · split at hstep
    · cases hstep
      exact h.moves hcall nofun nofun
    · split at hstep
      · cases hstep
        exact h.moves hcall nofun nofun
      · cases hstep
        exact h.moves hcall nofun nofun
  · cases hstep

/-- The room has recorded the update if it reports success. -/
theorem Landed.handle (h : e.Landed p) (hstore : cfg.store = true) {now : ℤ} {outcomes : List Bool}
    (hc : e.calls[c]? = some call) (hapart : e.Apart p cfg (.handle c now outcomes))
    (hstep : e.goes p limits cfg call (.handle c now outcomes) = some e') : e'.Landed p := by
  have hcall := List.mem_of_getElem? hc
  have hapart' := hapart call hc
  simp only [goes] at hstep
  split at hstep
  next k hsent =>
    simp only [hsent] at hapart'
    split at hstep
    next s node hs hnode =>
      have hnext : { e with node }.Landed p := h.node hstore hapart'.1 hnode
      split at hstep
      next hreply =>
        cases hstep
        have hk : e.node.session k = some s := session_of_running hs
        have hmerged : (({ room := s.room, outcomes } : Handler).merge cfg now call.update).reply =
            some (.merged none) := hreply
        obtain ⟨doc, l, happly, hint⟩ := Handler.merge_integrated hmerged
        have happly' : s.room.doc.applyUpdate call.update = .ok _ :=
          happly.trans (congrArg Except.ok hint.doc.symm)
        refine hnext.put (fun doc' hdoc' => ?_) (fun _ => rfl) nofun
        cases hdoc'
        exact ⟨⟨⟨_, happly'⟩, (hapart'.2 s hs).took happly'⟩,
          Node.held_of_recorded h.sequential hk hnode hint.recorded⟩
      next err hreply =>
        cases hstep
        exact hnext.moves hcall nofun nofun
      · cases hstep
    · cases hstep
  · cases hstep

/-- An update that is appended is in what the database gives back. -/
theorem Landed.append (h : e.Landed p) {now : ℕ} {published : Bool} (hc : e.calls[c]? = some call)
    (hapart : e.Apart p cfg (.append c now published))
    (hstep : e.goes p limits cfg call (.append c now published) = some e') : e'.Landed p := by
  have hcall := List.mem_of_getElem? hc
  obtain ⟨hquiet, horderly, hrestored, htakes⟩ := hapart
  simp only [goes] at hstep
  split at hstep
  next hensured =>
    split at hstep
    · cases hstep
      exact h.moves hcall (fun hs => by cases hs) fun hs => by cases hs
    next db seqs happend =>
      cases hstep
      obtain ⟨u, hu⟩ := h.checked call hcall hensured
      obtain ⟨d₀, hd₀⟩ := Option.isSome_iff_exists.1 hrestored
      obtain ⟨row, -, hfind, -⟩ := restored_eq_some.1 hd₀
      rw [Database.append_eq hfind (List.cons_ne_nil _ _)] at happend
      cases happend
      have hgrows : e.node.db.Grows p.id { e.node.db with
          updates := e.node.db.updates ++ e.node.db.newRows p.id [call.update] now
          nextSeq := e.node.db.nextSeq + [call.update].length } := by
        refine ⟨fun _ hd => hd, Nat.le_add_right .., ?_⟩
        rw [Database.logOf_append horderly.numbered]
        exact List.prefix_append ..
      have hdoc := restored_append call.update now (e.node.db.nextSeq + [call.update].length)
        horderly.numbered hd₀
      have happly : d₀.applyUpdate call.update = .ok (d₀.receive call.update) := by
        simp [Doc.applyUpdate, Doc.receive, hu]
      refine (h.outside hgrows).put (fun doc' hdoc' => ?_) (fun _ => ?_) fun hs => by cases hs
      · obtain rfl : d₀.receive call.update = doc' := Option.some.inj (hdoc.symm.trans hdoc')
        refine ⟨⟨⟨d₀, happly⟩, (htakes call hc d₀ hd₀).took happly⟩, fun k s hk => ?_,
          fun _ => givesBack_of_restored hdoc⟩
        cases (Node.quiet_iff.1 hquiet k).symm.trans hk
      · exact Option.isSome_iff_exists.2 ⟨_, hdoc⟩
  · cases hstep

theorem Landed.reply (h : e.Landed p) (hc : e.calls[c]? = some call)
    (hstep : e.goes p limits cfg call (.reply c) = some e') : e'.Landed p := by
  simp only [goes] at hstep
  split at hstep
  next k result hanswered =>
    cases hstep
    refine h.moves (List.mem_of_getElem? hc) (fun hs => ?_) nofun
    rw [hanswered]
    exact Option.isNone_iff_eq_none.1 hs
  · cases hstep

theorem Landed.gone (h : e.Landed p) (hc : e.calls[c]? = some call)
    (hstep : e.goes p limits cfg call (.gone c) = some e') : e'.Landed p := by
  have hcall := List.mem_of_getElem? hc
  simp only [goes] at hstep
  split at hstep
  · split at hstep
    · cases hstep
      exact h.moves hcall nofun nofun
    · cases hstep
  · split at hstep
    · cases hstep
      exact h.moves hcall nofun nofun
    · cases hstep
  · cases hstep

theorem Landed.ensure (h : e.Landed p) {now : ℕ} (hc : e.calls[c]? = some call)
    (hstep : e.goes p limits cfg call (.ensure c now) = some e') : e'.Landed p := by
  have hcall := List.mem_of_getElem? hc
  simp only [goes] at hstep
  split at hstep
  · split at hstep
    · cases hstep
      exact h.moves hcall nofun nofun
    next doc happly =>
      cases hstep
      have hgrows := e.node.db.ensureIn_grows p.id (call.owner.getD nilUUID) now
      refine (h.outside hgrows).moves hcall (fun hs => ?_) fun _ => ?_
      · split at hs <;> cases hs
      · -- `ApplyUpdate` fails only on what does not decode
        unfold Doc.applyUpdate at happly
        split at happly
        next u hu => exact ⟨u, hu⟩
        · cases happly
  · cases hstep

/-- **Every step keeps it.** -/
theorem Landed.step (h : e.Landed p) (hstore : cfg.store = true) (hapart : e.Apart p cfg a)
    (hstep : e.step p limits cfg a = some e') : e'.Landed p := by
  cases a with
  | node a =>
    obtain ⟨node, hnode, rfl⟩ := Option.map_eq_some_iff.1 hstep
    exact h.node hstore hapart hnode
  | request update owner =>
    cases hstep
    refine ⟨h.sequential, fun call hmem => ?_, fun call hmem => ?_, fun call hmem => ?_⟩ <;>
      rcases List.mem_append.1 hmem with hmem | hmem
    · exact h.made call hmem
    · obtain rfl := List.mem_singleton.1 hmem
      exact nofun
    · exact h.success call hmem
    · obtain rfl := List.mem_singleton.1 hmem
      intro hs
      simp only at hs
      split at hs <;> cases hs
    · exact h.checked call hmem
    · obtain rfl := List.mem_singleton.1 hmem
      intro hs
      simp only at hs
      split at hs <;> cases hs
  | look c =>
    obtain ⟨call, hc, hgoes⟩ := Option.bind_eq_some_iff.1 hstep
    exact h.look hc hgoes
  | handle c now outcomes =>
    obtain ⟨call, hc, hgoes⟩ := Option.bind_eq_some_iff.1 hstep
    exact h.handle hstore hc hapart hgoes
  | reply c =>
    obtain ⟨call, hc, hgoes⟩ := Option.bind_eq_some_iff.1 hstep
    exact h.reply hc hgoes
  | gone c =>
    obtain ⟨call, hc, hgoes⟩ := Option.bind_eq_some_iff.1 hstep
    exact h.gone hc hgoes
  | ensure c now =>
    obtain ⟨call, hc, hgoes⟩ := Option.bind_eq_some_iff.1 hstep
    exact h.ensure hc hgoes
  | append c now published =>
    obtain ⟨call, hc, hgoes⟩ := Option.bind_eq_some_iff.1 hstep
    exact h.append hc hapart hgoes

/-- **A merge reaches the live document**, if rooms follow one another, none has loaded the document
when the update is appended, and the update is taken in as a whole: the document of every room that
runs contains what the update has made, and all of the update is in it. -/
theorem merge_reaches_room {db : Database} {l : List Act} {s : Session} (hstore : cfg.store = true)
    (hapart : Machine.Along (step p limits cfg) (Apart p cfg) { node := { db } } l)
    (hrun : run p limits cfg { node := { db } } l = some e) (hcall : call ∈ e.calls)
    (hreturned : call.progress = .returned true) (hk : e.node.rooms[k]? = some (.running s)) :
    ∃ (d doc : Doc) (u : Update), call.made = some doc ∧ d.applyUpdate call.update = .ok doc ∧
      s.room.doc.Contains doc ∧ decodeUpdate call.update = .ok u ∧ s.room.doc.Took u := by
  have hnone : ∀ k, ({ db } : Node).session k = none := fun _ => rfl
  have hinit : Landed p { node := { db } } := by
    refine ⟨⟨fun {j k s t} hj => ?_, fun {k s} hk => ?_⟩, nofun, nofun, nofun⟩
    · cases (hnone j).symm.trans hj
    · cases (hnone k).symm.trans hk
  have hlanded : e.Landed p :=
    Machine.invariant (fun h hs hstep => h.step hstore hs hstep) hinit hapart hrun
  have hsome : call.made.isSome := hlanded.success call hcall (by rw [hreturned]; rfl)
  obtain ⟨doc, hdoc⟩ := Option.isSome_iff_exists.1 hsome
  obtain ⟨⟨⟨d, happly⟩, u, hu, htook⟩, hheld⟩ := hlanded.made call hcall doc hdoc
  have hsession : e.node.session k = some s := by rw [Node.session, hk]; rfl
  have hcontains := (hlanded.sequential.lasting hsession).contains.trans (hheld.1 k s hsession)
  exact ⟨d, doc, u, hdoc, happly, hcontains, hu, hcontains.took htook⟩

open Session.Visit

/-- The letter is appended to the log of a document without a room; then the document is opened. -/
def seeding : List Act :=
  [.request letter none, .look 0, .ensure 0 0, .append 0 0 true, .node .open, .node (.load 0 0 0)]

/-- The room has the letter. -/
theorem seeded_letter_loaded : ∃ e call s doc,
    run place {} config { node := { db := {} } } seeding = some e ∧ e.calls = [call] ∧
    e.node.rooms = [.running s] ∧ call.made = some doc ∧ doc.state 1 = 1 ∧
    s.room.doc.Contains doc ∧ ∃ u, decodeUpdate letter = .ok u ∧ s.room.doc.Took u := by
  have hapart : Machine.Along (step place {} config) (Apart place config)
      { node := { db := {} } } seeding := by decide +kernel
  obtain ⟨-, doc, u, hmade, -, hcontains, hu, htook⟩ := merge_reaches_room (k := 0) rfl hapart rfl
    (List.mem_singleton_self _) rfl rfl
  cases hmade
  exact ⟨_, _, _, _, rfl, rfl, rfl, rfl, rfl, hcontains, u, hu, htook⟩

/-- The document is opened before the letter is appended. -/
def overtaken : List Act :=
  [.request letter none, .look 0, .node .open, .node (.load 0 0 0), .ensure 0 0, .append 0 0 true]

/-- **A room that has loaded the document misses an update that is appended**: the request has
succeeded, and the room does not have the letter. -/
theorem import_misses_room : ∃ e s doc,
    run place {} config { node := { db := {} } } overtaken = some e ∧
    e.calls.map (fun call => (call.update, call.progress, call.made)) =
      [(letter, .returned true, some doc)] ∧
    e.node.rooms = [.running s] ∧ e.node.registered = some 0 ∧
    Doc.empty.applyUpdate letter = .ok doc ∧ doc.state 1 = 1 ∧ s.room.doc.state 1 = 0 ∧
    ¬s.room.doc.Contains doc :=
  ⟨_, _, _, rfl, rfl, rfl, rfl, rfl, rfl, rfl, fun hcontains =>
    Nat.not_succ_le_zero 0 (hcontains.state 1)⟩

end Merging

end YCollab.Room
