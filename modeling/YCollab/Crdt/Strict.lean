import YCollab.Crdt.Views

/-!
# Integration that does not look away

The source discards the error of `Append`, and its loops end only because the items are linked
without cycles. Here integration is run strictly: it gives up as soon as `Append` refuses a struct,
or a loop takes more turns than its bound (`Fault`). On every input the strict run succeeds, with
the document of the plain one (`Doc.replayStrict_eq`): no `Append` is ever refused, and no loop is
ever cut short by its bound.
-/

namespace YCollab.Crdt

open Lib0 Links

/-- Why a strict run gives up. -/
inductive Fault where
  /-- `Append` refused a struct: `ErrClockGap`. -/
  | clockGap
  /-- A loop took more turns than its bound. -/
  | endless
  deriving DecidableEq, Repr

/-- `Append`, with its error. -/
def StructStore.appendStrict (s : StructStore) (st : Struct) : Except Fault StructStore :=
  if s.state st.id.client = st.id.clock then .ok (s.append st) else .error .clockGap

namespace Doc

/-! ### The strict run -/

/-- `leftmost`; a walk that goes in a circle is a fault. -/
def leftmostStrict (d : Doc) : ℕ → Option ID → Except Fault (Option ID)
  | _, none => .ok none
  | 0, some _ => .error .endless
  | fuel + 1, some x =>
    match d.left x with
    | none => .ok (some x)
    | some l => leftmostStrict d fuel (some l)

/-- `after`, over that walk. -/
def afterStrict (d : Doc) (l : ListID) : Option ID → Except Fault (Option ID)
  | some x => .ok (d.right x)
  | none =>
    match l.key with
    | some k => d.leftmostStrict d.size (d.mapItems l.parent k)
    | none => .ok (d.start l.parent)

/-- `conflictLoop`; one that does not end is a fault. -/
def conflictLoopStrict (d : Doc) (it : Item) (right : Option ID) :
    ℕ → Option ID → Option ID → List ID → List ID → Except Fault (Option ID)
  | 0, _, _, _, _ => .error .endless
  | fuel + 1, o, left, before, conflicting =>
    match o with
    | none => .ok left
    | some oid =>
      if right = some oid then .ok left
      else
        let before := oid :: before
        let conflicting := oid :: conflicting
        match d.itemAt oid with
        | none => .ok left
        | some other =>
          if it.origin = other.origin then
            if other.id.client < it.id.client then
              conflictLoopStrict d it right fuel (d.right oid) (some oid) before []
            else if it.rightOrigin = other.rightOrigin then .ok left
            else conflictLoopStrict d it right fuel (d.right oid) left before conflicting
          else
            match other.origin.bind d.itemAt with
            | none => .ok left
            | some oo =>
              if oo.id ∈ before then
                if oo.id ∈ conflicting then
                  conflictLoopStrict d it right fuel (d.right oid) left before conflicting
                else conflictLoopStrict d it right fuel (d.right oid) (some oid) before []
              else .ok left

/-- `resolveConflict`. -/
def resolveConflictStrict (d : Doc) (it : Item) (p : TypeID) (left right : Option ID) :
    Except Fault (Option ID) := do
  let o ← d.afterStrict ⟨p, it.key⟩ left
  d.conflictLoopStrict it right (d.size + 1) o left [] []

/-- Link an item, if the walk to the start of its list ends and `Append` accepts it. -/
def linkStrict (d : Doc) (it : Item) (p : TypeID) (left : Option ID) : Except Fault Doc := do
  let _ ← d.afterStrict ⟨p, it.key⟩ left
  let _ ← (d.relink it p left).store.appendStrict (.item it)
  return d.link it p left

/-- `integrateItem`. -/
def integrateItemStrict (d : Doc) (it : Item) (left right : Option ID) (offset : ℕ) :
    Except Fault Doc :=
  match d.trim it left offset with
  | (d, none) => .ok d
  | (d, some (it, left)) =>
    match it.parent with
    | none => do
      let store ← d.store.appendStrict (.gc it.id it.len)
      return { d with store }
    | some p => do
      let left ← if d.conflicts left right then d.resolveConflictStrict it p left right else .ok left
      d.linkStrict it p left

/-- `integrateHead`. -/
def integrateHeadStrict (d : Doc) : Struct → Except Fault (Option Doc)
  | .skip _ _ => .ok (some d)
  | .gc id n =>
    let state := d.state id.client
    let offset := state - id.clock
    if state < id.clock then .ok none
    else if offset ≥ n then .ok (some d)
    else do
      let store ← d.store.appendStrict (.gc ⟨id.client, id.clock + offset⟩ (n - offset))
      return some { d with store }
  | .item it =>
    let state := d.state it.id.client
    let offset := state - it.id.clock
    if state < it.id.clock then .ok none
    else if offset ≥ it.len then .ok (some d)
    else
      match d.resolve it with
      | none => .ok none
      | some (d, it, left, right) => do
        let d ← d.integrateItemStrict it left right offset
        return some d

/-- `drain`. -/
def drainStrict (d : Doc) : List Struct → Except Fault (Doc × List Struct × Bool)
  | [] => .ok (d, [], false)
  | head :: queue => do
    match ← d.integrateHeadStrict head with
    | none => return (d, head :: queue, false)
    | some d =>
      let (d, rest, _) ← drainStrict d queue
      return (d, rest, true)

/-- `pass`. -/
def passStrict (d : Doc) :
    List (ℕ × List Struct) → Except Fault (Doc × List (ℕ × List Struct) × Bool)
  | [] => .ok (d, [], false)
  | (client, queue) :: queues => do
    let (d, rest, moved) ← d.drainStrict queue
    let (d, queues, moved') ← passStrict d queues
    return (d, (client, rest) :: queues, moved || moved')

/-- `integrateLoop`; structs that are left when the turns are used up are a fault. -/
def integrateLoopStrict :
    ℕ → Doc → List (ℕ × List Struct) → Except Fault (Doc × List (ℕ × List Struct))
  | 0, _, _ => .error .endless
  | fuel + 1, d, queues => do
    let (d, queues, moved) ← d.passStrict queues
    if moved then integrateLoopStrict fuel d queues else return (d, queues)

/-- `integrate`. -/
def integrateStrict (d : Doc) (u : Update) : Except Fault Doc := do
  let queues := gather [] u.clients
  let (d, queues) ← integrateLoopStrict (queued queues + 1) d queues
  match blocksOf queues with
  | [] => return d
  | rest => return { d with pending := d.pending ++ [⟨rest, SortedMap.empty⟩] }

/-- `deleteLoop`; one that does not end is a fault. -/
def deleteLoopStrict (client toClock : ℕ) : ℕ → ℕ → Doc → Except Fault Doc
  | 0, _, _ => .error .endless
  | fuel + 1, idx, d =>
    match (d.store.structs client)[idx]? with
    | none => .ok d
    | some st =>
      if st.id.clock ≥ toClock then .ok d
      else
        match st with
        | .item it =>
          if d.deleted it.id then deleteLoopStrict client toClock fuel (idx + 1) d
          else if it.id.clock + it.len > toClock then
            match d.splitItem it (toClock - it.id.clock) idx with
            | .error _ => deleteLoopStrict client toClock fuel (idx + 1) d
            | .ok (d, _, _) => deleteLoopStrict client toClock fuel (idx + 1) (d.deleteItem it.id)
          else deleteLoopStrict client toClock fuel (idx + 1) (d.deleteItem it.id)
        | _ => deleteLoopStrict client toClock fuel (idx + 1) d

/-- `deleteRange`. -/
def deleteRangeStrict (d : Doc) (client fromClock toClock : ℕ) : Except Fault Doc :=
  if toClock ≤ fromClock then .ok d
  else
    let d := d.splitBefore ⟨client, fromClock⟩
    match d.store.find ⟨client, fromClock⟩ with
    | .error _ => .ok d
    | .ok idx => deleteLoopStrict client toClock ((d.store.structs client).length + 2) idx d

/-- `applyRange`. -/
def applyRangeStrict (client state : ℕ) (d : Doc) (r : DeleteRange) : Except Fault Doc :=
  if r.clock ≥ state then
    .ok { d with pendingDeletes := DeleteSet.add d.pendingDeletes client r.clock r.len }
  else if r.endClock > state then
    { d with pendingDeletes := DeleteSet.add d.pendingDeletes client state (r.endClock - state) }
      |>.deleteRangeStrict client r.clock state
  else d.deleteRangeStrict client r.clock r.endClock

/-- `applyDeleteSet`. -/
def applyDeleteSetStrict (d : Doc) (ds : DeleteSet) : Except Fault Doc :=
  ds.entries.foldlM (fun d p => p.2.foldlM (applyRangeStrict p.1 (d.state p.1)) d) d

/-- `retryLoop`; one that does not end is a fault. -/
def retryLoopStrict : ℕ → Doc → Except Fault Doc
  | 0, _ => .error .endless
  | fuel + 1, d =>
    if d.pending.isEmpty then .ok d
    else do
      let before := d.pending
      let d ← before.foldlM integrateStrict { d with pending := [] }
      if structCount d.pending ≥ structCount before then return d else retryLoopStrict fuel d

/-- `retryPending`. -/
def retryPendingStrict (d : Doc) : Except Fault Doc := do
  let d ← retryLoopStrict (structCount d.pending + 1) d
  if DeleteSet.isEmpty d.pendingDeletes then return d
  else applyDeleteSetStrict { d with pendingDeletes := SortedMap.empty } d.pendingDeletes

/-- `applyDecodedUpdate`. -/
def applyDecodedUpdateStrict (d : Doc) (u : Update) : Except Fault Doc := do
  let d ← d.integrateStrict u
  let d ← d.applyDeleteSetStrict u.deletes
  d.retryPendingStrict

/-- Apply an update strictly; one that does not parse is skipped. -/
def receiveStrict (d : Doc) (b : Bytes) : Except Fault Doc :=
  match decodeUpdate b with
  | .ok u => d.applyDecodedUpdateStrict u
  | .error _ => .ok d

/-- `replay`. -/
def replayStrict (bs : List Bytes) : Except Fault Doc := bs.foldlM receiveStrict empty

/-! ### It is the plain run -/

variable {d d' : Doc} {ord : List ID} {it : Item}

theorem foldlM_ok {α β ε : Type} {f : α → β → Except ε α} {g : α → β → α} (I : α → Prop)
    (hf : ∀ a b, I a → f a b = .ok (g a b)) (hI : ∀ a b, I a → I (g a b)) (l : List β) {a : α}
    (ha : I a) : l.foldlM f a = .ok (l.foldl g a) := by
  induction l generalizing a with
  | nil => rfl
  | cons b l ih =>
    rw [List.foldlM_cons, hf a b ha]
    exact ih (hI a b ha)

theorem appendStrict_ok {s : StructStore} {st : Struct} (h : s.state st.id.client = st.id.clock) :
    s.appendStrict st = .ok (s.append st) :=
  if_pos h

theorem leftmostStrict_of_path {o : Option ID} {l : List ID} (h : Path d.left o l) {fuel : ℕ}
    (hfuel : l.length ≤ fuel) : d.leftmostStrict fuel o = .ok (d.leftmost fuel o) := by
  induction h generalizing fuel with
  | nil => cases fuel <;> rfl
  | @cons x l hl ih =>
    obtain ⟨fuel, rfl⟩ : ∃ n, fuel = n + 1 := ⟨fuel - 1, by simp at hfuel; omega⟩
    simp only [leftmostStrict, leftmost]
    cases hx : d.left x with
    | none => rfl
    | some y =>
      rw [hx] at ih
      exact ih (by simpa using hfuel)

theorem Woven.afterStrict (h : d.Woven ord) (l : ListID) (left : Option ID) :
    d.afterStrict l left = .ok (d.after l left) := by
  cases left with
  | some x => rfl
  | none =>
    simp only [Doc.afterStrict, Doc.after, Doc.listHead]
    cases l.key with
    | none => rfl
    | some k =>
      simp only
      cases hm : d.mapItems l.parent k with
      | none => cases d.size <;> rfl
      | some x =>
        obtain ⟨c, hc, hid, -⟩ := h.mapItems hm
        obtain ⟨l, hl, hlen, -⟩ := h.exists_path_left (h.mem.2 ⟨c, hc, hid⟩)
        exact leftmostStrict_of_path hl hlen

/-- The scan for the place of an item goes along a path to the right, so it ends. -/
theorem conflictLoopStrict_of_path (it : Item) (right : Option ID) {o : Option ID} {l : List ID}
    (h : Path d.right o l) {fuel : ℕ} (hfuel : l.length < fuel) (left : Option ID)
    (before conflicting : List ID) :
    d.conflictLoopStrict it right fuel o left before conflicting =
      .ok (d.conflictLoop it right fuel o left before conflicting) := by
  induction h generalizing fuel left before conflicting with
  | nil =>
    obtain ⟨fuel, rfl⟩ : ∃ n, fuel = n + 1 := ⟨fuel - 1, by simp at hfuel; omega⟩
    rfl
  | @cons x l hl ih =>
    obtain ⟨fuel, rfl⟩ : ∃ n, fuel = n + 1 := ⟨fuel - 1, by simp at hfuel; omega⟩
    have hgo := @ih fuel (by simpa using hfuel)
    simp only [conflictLoopStrict, conflictLoop]
    split
    · rfl
    cases d.itemAt x with
    | none => rfl
    | some other =>
      simp only
      split
      · split
        · exact hgo _ _ _
        · split
          · rfl
          · exact hgo _ _ _
      · cases other.origin.bind d.itemAt with
        | none => rfl
        | some oo =>
          simp only
          split
          · split
            · exact hgo _ _ _
            · exact hgo _ _ _
          · rfl

theorem Woven.resolveConflictStrict (h : d.Woven ord) (it : Item) (p : TypeID)
    (left right : Option ID) :
    d.resolveConflictStrict it p left right = .ok (d.resolveConflict it p left right) := by
  obtain ⟨l, hl, hlen⟩ : ∃ l, Path d.right (d.after ⟨p, it.key⟩ left) l ∧ l.length ≤ d.size := by
    cases ho : d.after ⟨p, it.key⟩ left with
    | none => exact ⟨[], .nil, Nat.zero_le _⟩
    | some x =>
      obtain ⟨l, hl, hlen, -⟩ := h.path (h.after ho)
      exact ⟨l, hl, hlen⟩
  rw [Doc.resolveConflictStrict, h.afterStrict]
  exact conflictLoopStrict_of_path it right hl (Nat.lt_succ_of_le hlen) left [] []

theorem Woven.linkStrict (h : d.Woven ord) (hs : d.state it.id.client = it.id.clock) (p : TypeID)
    (left : Option ID) : d.linkStrict it p left = .ok (d.link it p left) := by
  have hstore : (d.relink it p left).store = d.store := by
    obtain ⟨l, r, s, m, f, heq⟩ := relink_eq d it p left
    rw [heq]
  rw [Doc.linkStrict, h.afterStrict, hstore, appendStrict_ok (by exact hs)]
  rfl

/-- The turn of a struct: `Append` accepts it, and the search for its place ends. -/
theorem Woven.integrateHeadStrict (h : d.Woven ord) (st : Struct) :
    d.integrateHeadStrict st = .ok (d.integrateHead st) := by
  cases st with
  | skip id n => rfl
  | gc id n =>
    simp only [Doc.integrateHeadStrict, Doc.integrateHead]
    split
    · rfl
    split
    · rfl
    next hnext hoff =>
      have hs : d.store.state id.client = id.clock + (d.state id.client - id.clock) :=
        (Nat.add_sub_cancel' (Nat.le_of_not_lt hnext)).symm
      rw [appendStrict_ok (by exact hs)]
      rfl
  | item it =>
    simp only [Doc.integrateHeadStrict, Doc.integrateHead]
    split
    · rfl
    split
    · rfl
    next hnext hoff =>
      cases hres : d.resolve it with
      | none => rfl
      | some r =>
        obtain ⟨d₁, it₁, left, right⟩ := r
        simp only [integrateItemStrict, integrateItem]
        generalize htrim : d₁.trim it₁ left (d.state it.id.client - it.id.clock) = r
        obtain ⟨d₂, r⟩ := r
        obtain ⟨-, he, -, hnew⟩ := new_of_trim h.gapless (by omega) (by omega) hres htrim
        obtain ⟨ord₂, h₂, -⟩ := h.edits he
        cases r with
        | none => rfl
        | some r =>
          obtain ⟨it₂, left₂⟩ := r
          have hs := (hnew it₂ left₂ rfl).1.state_eq
          simp only
          cases it₂.parent with
          | none =>
            simp only
            rw [appendStrict_ok (by exact hs)]
            rfl
          | some p =>
            simp only
            split
            · rw [h₂.resolveConflictStrict]
              exact congrArg (Except.map some) (h₂.linkStrict hs p _)
            · exact congrArg (Except.map some) (h₂.linkStrict hs p _)

/-! ### Queues -/

theorem Woven.drainStrict (h : d.Woven ord) (q : List Struct) :
    d.drainStrict q = .ok (d.drain q) := by
  induction q generalizing d ord with
  | nil => rfl
  | cons head q ih =>
    rw [Doc.drainStrict, h.integrateHeadStrict, drain]
    cases hst : d.integrateHead head with
    | none => rfl
    | some d₁ =>
      obtain ⟨ord₁, h₁⟩ := h.integrateHead hst
      simp only [bind, Except.bind, ih h₁]
      rfl

theorem Woven.moves (h : d.Woven ord) {l : List Struct} (hm : Moves d l d') :
    ∃ ord', d'.Woven ord' :=
  h.turns (.of_moves hm)

theorem Woven.passStrict (h : d.Woven ord) (qs : List (ℕ × List Struct)) :
    d.passStrict qs = .ok (d.pass qs) := by
  induction qs generalizing d ord with
  | nil => rfl
  | cons p qs ih =>
    obtain ⟨c, q⟩ := p
    rw [Doc.passStrict, h.drainStrict, pass]
    generalize hdr : d.drain q = r
    obtain ⟨d₁, q', m⟩ := r
    obtain ⟨l, -, hm, -⟩ := drain_spec d q hdr
    obtain ⟨ord₁, h₁⟩ := h.moves hm
    simp only [bind, Except.bind, ih h₁]
    rfl

theorem Woven.integrateLoopStrict (h : d.Woven ord) {fuel : ℕ} {qs : List (ℕ × List Struct)}
    (hfuel : queued qs < fuel) :
    Doc.integrateLoopStrict fuel d qs = .ok (integrateLoop fuel d qs) := by
  induction fuel generalizing d ord qs with
  | zero => omega
  | succ fuel ih =>
    rw [Doc.integrateLoopStrict, h.passStrict, integrateLoop]
    generalize hps : d.pass qs = r
    obtain ⟨d₁, qs₁, moved⟩ := r
    obtain ⟨l, hm, htaken, hmove, -⟩ := pass_spec d qs hps
    cases moved with
    | false => rfl
    | true =>
      have hlen : 0 < l.length := List.length_pos_iff.2 (hmove rfl)
      have hcount := htaken.count
      obtain ⟨ord₁, h₁⟩ := h.moves hm
      exact ih h₁ (by omega)

theorem Woven.integrateStrict (h : d.Woven ord) (u : Update) :
    d.integrateStrict u = .ok (d.integrate u) := by
  simp only [Doc.integrateStrict, integrate, h.integrateLoopStrict (Nat.lt_succ_self _), bind,
    Except.bind]
  cases blocksOf (integrateLoop _ d (gather [] u.clients)).2 <;> rfl

theorem Woven.integrate (h : d.Woven ord) (u : Update) : ∃ ord', (d.integrate u).Woven ord' := by
  obtain ⟨l, hran⟩ := ran_integrate h.gapless u
  exact h.turns hran.turns

/-! ### Deletions -/

/-- Every turn goes on to the next struct. A struct that is cut at the end of the range is the last
one, as what is behind the cut starts at the end of the range. -/
theorem deleteLoopStrict_eq (hg : d.store.Gapless) (c toClock : ℕ) {fuel idx : ℕ}
    (hidx : idx ≤ (d.store.structs c).length) (hfuel : (d.store.structs c).length < idx + fuel) :
    deleteLoopStrict c toClock fuel idx d = .ok (deleteLoop c toClock fuel idx d) := by
  induction fuel generalizing d idx with
  | zero => omega
  | succ fuel ih =>
    simp only [deleteLoopStrict, deleteLoop]
    cases hi : (d.store.structs c)[idx]? with
    | none => rfl
    | some st =>
      have hlt : idx < (d.store.structs c).length := (List.getElem?_eq_some_iff.1 hi).1
      have hstep : ∀ e : Doc, e.store = d.store → deleteLoopStrict c toClock fuel (idx + 1) e =
          .ok (deleteLoop c toClock fuel (idx + 1) e) := fun e he =>
        ih (he ▸ hg) (by rw [he]; omega) (by rw [he]; omega)
      simp only
      split
      · rfl
      next hto =>
        cases st with
        | gc id n => exact hstep d rfl
        | skip id n => exact hstep d rfl
        | item it =>
          simp only
          split
          · exact hstep d rfl
          split
          next hend =>
            cases hsplit : d.splitItem it (toClock - it.id.clock) idx with
            | error x => exact hstep d rfl
            | ok r =>
              obtain ⟨d₁, head, tail⟩ := r
              obtain ⟨A, B, hc, tc, hs, rfl, -, -, rfl, rfl⟩ := splitItem_spec hg hi hsplit
              have hcl : it.id.client = c := hg.client_eq (List.mem_of_getElem? hi)
              set d₁ := d.replace it (it.head hc) (it.tail (toClock - it.id.clock) tc) A.length
              have hnext : ((d₁.deleteItem it.id).store.structs c)[A.length + 1]? =
                  some (.item (it.tail (toClock - it.id.clock) tc)) := by
                change (d₁.store.structs c)[A.length + 1]? = _
                rw [structs_replace hs, if_pos hcl.symm]
                simp
              have hclock : (Struct.item (it.tail (toClock - it.id.clock) tc)).id.clock ≥ toClock := by
                change toClock ≤ it.id.clock + (toClock - it.id.clock)
                omega
              obtain ⟨fuel, rfl⟩ : ∃ n, fuel = n + 1 := ⟨fuel - 1, by omega⟩
              simp only [deleteLoopStrict, deleteLoop, hnext]
              rw [if_pos hclock, if_pos hclock]
          next => exact hstep _ rfl

theorem deleteRangeStrict_eq (hg : d.store.Gapless) (c fromClock toClock : ℕ) :
    d.deleteRangeStrict c fromClock toClock = .ok (d.deleteRange c fromClock toClock) := by
  simp only [deleteRangeStrict, deleteRange]
  split
  · rfl
  have hg' : (d.splitBefore ⟨c, fromClock⟩).store.Gapless :=
    ((trims_splitBefore hg ⟨c, fromClock⟩).edits.marks hg).gapless
  cases hf : (d.splitBefore ⟨c, fromClock⟩).store.find ⟨c, fromClock⟩ with
  | error x => rfl
  | ok idx =>
    obtain ⟨A, st, B, hs, hlen, -⟩ := hg'.find_ok hf
    have hle : idx ≤ ((d.splitBefore ⟨c, fromClock⟩).store.structs c).length := by
      rw [hs, hlen]
      simp
    exact deleteLoopStrict_eq hg' c toClock hle (by omega)

theorem applyRangeStrict_eq (hg : d.store.Gapless) (c state : ℕ) (r : DeleteRange) :
    applyRangeStrict c state d r = .ok (applyRange c state d r) := by
  unfold applyRangeStrict applyRange
  split
  · rfl
  split
  next =>
    have hheld := Edits.held (DeleteSet.add d.pendingDeletes c state (r.endClock - state))
      (Edits.refl (d := d))
    exact deleteRangeStrict_eq (hheld.marks hg).gapless ..
  next => exact deleteRangeStrict_eq hg ..

theorem applyDeleteSetStrict_eq (hg : d.store.Gapless) (ds : DeleteSet) :
    d.applyDeleteSetStrict ds = .ok (d.applyDeleteSet ds) := by
  refine foldlM_ok (fun d => d.store.Gapless) (fun d p hg => ?_) (fun d p hg => ?_) ds.entries hg
  · exact foldlM_ok (fun d => d.store.Gapless) (fun d r hg => applyRangeStrict_eq hg ..)
      (fun d r hg => ((edits_applyRange hg ..).marks hg).gapless) p.2 hg
  · exact ((edits_ranges hg ..).marks hg).gapless

/-! ### Applying updates -/

/-- What is held back is run again only while there is less of it. -/
theorem Woven.retryLoopStrict (h : d.Woven ord) {fuel : ℕ} (hfuel : structCount d.pending < fuel) :
    Doc.retryLoopStrict fuel d = .ok (retryLoop fuel d) := by
  induction fuel generalizing d ord with
  | zero => omega
  | succ fuel ih =>
    simp only [Doc.retryLoopStrict, retryLoop]
    split
    · rfl
    have h₀ : Woven { d with pending := [] } ord :=
      ⟨h.gapless, h.weave, h.mem, h.start, h.mapItems⟩
    have hrun : d.pending.foldlM Doc.integrateStrict { d with pending := [] } =
        .ok (d.pending.foldl Doc.integrate { d with pending := [] }) := by
      refine foldlM_ok (fun d => ∃ ord, d.Woven ord) ?_ ?_ d.pending ⟨ord, h₀⟩
      · rintro d u ⟨_, h⟩
        exact h.integrateStrict u
      · rintro d u ⟨_, h⟩
        exact h.integrate u
    obtain ⟨l, hran⟩ := ran_foldl (d := { d with pending := [] }) h.gapless d.pending
    obtain ⟨ord₁, h₁⟩ := h₀.turns hran.turns
    rw [hrun]
    simp only [bind, Except.bind]
    split
    · rfl
    · exact ih h₁ (by omega)

theorem Regular.applyDecodedUpdateStrict (h : d.Regular) (u : Update) :
    d.applyDecodedUpdateStrict u = .ok (d.applyDecodedUpdate u) := by
  obtain ⟨ord, hw⟩ := h.woven
  obtain ⟨ord₁, hw₁⟩ := hw.integrate u
  obtain ⟨ord₂, hw₂, -⟩ := hw₁.edits (edits_applyDeleteSet hw₁.gapless u.deletes)
  simp only [Doc.applyDecodedUpdateStrict, applyDecodedUpdate, hw.integrateStrict, bind,
    Except.bind, applyDeleteSetStrict_eq hw₁.gapless, retryPendingStrict, retryPending]
  rw [hw₂.retryLoopStrict (Nat.lt_succ_self _)]
  obtain ⟨l, l', hp⟩ := h.phases u
  have hg₃ := hp.gapless
  simp only
  split
  · rfl
  · exact applyDeleteSetStrict_eq
      (d := { d.retried u with pendingDeletes := SortedMap.empty }) hg₃ _

theorem Regular.receiveStrict (h : d.Regular) (b : Bytes) :
    d.receiveStrict b = .ok (d.receive b) := by
  unfold Doc.receiveStrict Doc.receive applyUpdate
  cases decodeUpdate b with
  | error x => rfl
  | ok u => exact h.applyDecodedUpdateStrict u

/-- **Whatever a document receives, the strict run is the plain one.** -/
theorem replayStrict_eq (bs : List Bytes) : replayStrict bs = .ok (replay bs) :=
  foldlM_ok Regular (fun _ b h => h.receiveStrict b) (fun _ b h => h.receive b) bs .empty

end Doc

/-! ### What arbitrary updates cannot do -/

/-- **The store is gapless whatever arrives.** The structs of each client start at clock 0, each
where the one before it ends, and none is empty; so `find` returns the one struct that covers a
clock, for the clocks below the client's state and no others. No `Append` is refused on the way. -/
theorem store_gapless (bs : List Bytes) :
    (∀ client, Run client 0 ((Doc.replay bs).store.structs client)) ∧
    (∀ (id : ID) (i : ℕ), (Doc.replay bs).store.find id = .ok i ↔
      ∃ st, ((Doc.replay bs).store.structs id.client)[i]? = some st ∧
        st.id.clock ≤ id.clock ∧ id.clock < st.endClock) ∧
    (∀ id : ID, (∃ i, (Doc.replay bs).store.find id = .ok i) ↔
      id.clock < (Doc.replay bs).state id.client) ∧
    Doc.replayStrict bs = .ok (Doc.replay bs) := by
  have hg := (Doc.replay_regular bs).gapless
  refine ⟨hg.1, fun id i => ⟨fun hf => ?_, ?_⟩, fun id => ⟨?_, fun hk => ?_⟩, Doc.replayStrict_eq bs⟩
  · obtain ⟨A, st, B, hs, rfl, hlo, hhi⟩ := hg.find_ok hf
    exact ⟨st, by simp [hs], hlo, hhi⟩
  · rintro ⟨st, hi, hlo, hhi⟩
    obtain ⟨A, B, hs, rfl⟩ := Doc.exists_append_of_getElem? hi
    exact hg.find_eq hs hlo hhi
  · rintro ⟨i, hf⟩
    by_contra hk
    rw [hg.find_missing (Nat.le_of_not_lt hk)] at hf
    cases hf
  · obtain ⟨A, st, B, hs, hlo, hhi⟩ := hg.exists_cover hk
    exact ⟨A.length, hg.find_eq hs hlo hhi⟩

/-- **No input makes integration loop.** The links to the right have no cycle, and an item is to the
right of its left neighbour, so every walk ends: those of integration within their bounds, and
those that read a text. -/
theorem integration_terminates (bs : List Bytes) :
    (∀ x, ¬Relation.TransGen (fun a b => (Doc.replay bs).right a = some b) x x) ∧
    (∀ x y, (Doc.replay bs).left x = some y →
      Relation.TransGen (fun a b => (Doc.replay bs).right a = some b) y x) ∧
    Doc.replayStrict bs = .ok (Doc.replay bs) ∧
    ∀ p, ((Doc.replay bs).textString p).isSome ∧ ((Doc.replay bs).textLen p).isSome := by
  obtain ⟨ord, hw⟩ := (Doc.replay_regular bs).woven
  refine ⟨fun x hx => ?_, fun x y hy => .single (hw.weave.back hy), Doc.replayStrict_eq bs,
    fun p => ⟨?_, ?_⟩⟩
  · exact hw.weave.not_cycle hx
  · exact hw.readRight_isSome _ p
  · rw [Doc.textLen, Option.isSome_map]
    exact hw.readRight_isSome _ p

end YCollab.Crdt
