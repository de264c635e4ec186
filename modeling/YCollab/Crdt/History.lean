import YCollab.Crdt.Decoded
import YCollab.Crdt.Queue
import YCollab.Crdt.Shape

/-!
# Well-formed histories

A history is a finite collection of updates. It is well formed when its updates could have been
made by clients that edit their own documents (`WellFormed`): they carry only items, agree wherever
they carry the same clock unit, leave no gaps, and each item was inserted between two neighbours of
a list that its author had before them (`Authored`).

A document receives updates one after the other and skips those that do not parse
(`Doc.receive`, `Doc.replay`).
-/

namespace YCollab.Crdt

open Lib0

/-! ### Receiving updates -/

namespace Doc

/-- Apply an update; one that does not parse is skipped. -/
def receive (d : Doc) (b : Bytes) : Doc :=
  match d.applyUpdate b with
  | .ok d' => d'
  | .error _ => d

/-- The document that received these updates, in this order. -/
def replay (bs : List Bytes) : Doc := bs.foldl receive empty

theorem receive_ok {d : Doc} {b : Bytes} {u : Update} (h : decodeUpdate b = .ok u) :
    d.receive b = d.applyDecodedUpdate u := by
  simp [receive, applyUpdate, h]

theorem receive_error {d : Doc} {b : Bytes} {e : Err} (h : decodeUpdate b = .error e) :
    d.receive b = d := by
  simp [receive, applyUpdate, h]

theorem replay_snoc (bs : List Bytes) (b : Bytes) : replay (bs ++ [b]) = (replay bs).receive b := by
  simp [replay]

end Doc

/-! ### Clock units of a content -/

/-- One clock unit of a content. -/
inductive ContentUnit where
  | deleted
  | json (value : Bytes)
  | any (value : Any)
  /-- A UTF-16 code unit: the rune it belongs to, and whether it is the low half of a pair. -/
  | code (rune : ℕ) (low : Bool)
  | whole (content : Content)

/-- The code units of one rune. -/
def codeUnits (r : Rune) : List ContentUnit :=
  if r.val > 0xFFFF then [.code r.val false, .code r.val true] else [.code r.val false]

/-- The clock units of a content. -/
def Content.unitList : Content → List ContentUnit
  | .deleted n => List.replicate n .deleted
  | .json values => values.map .json
  | .any values => values.map .any
  | .string s => (runes s).flatMap codeUnits
  | c => [.whole c]

/-! ### Histories -/

/-- What unit `i` of an item was inserted after. -/
def Item.originAt (it : Item) : ℕ → Option ID
  | 0 => it.origin
  | i + 1 => some (it.unit i)

/-- The list that the wire names for unit `i` of an item; a neighbour tells it otherwise. -/
def Item.wireList (it : Item) : ℕ → Option ListID
  | 0 => it.wireParent.map fun p => ⟨p.typeID, it.key⟩
  | _ + 1 => none

/-- Unit `i` of one item and unit `j` of another are the same: inserted at the same place, with the
same content. -/
structure Item.AgreesAt (it : Item) (i : ℕ) (it' : Item) (j : ℕ) : Prop where
  origin : it.originAt i = it'.originAt j
  right : it.rightOrigin = it'.rightOrigin
  list : it.wireList i = it'.wireList j
  content : it.content.unitList[i]? = it'.content.unitList[j]?

/-- The item carries consecutive units of another one. -/
def Item.SliceOf (it it' : Item) : Prop :=
  ∃ j, it.id = it'.unit j ∧ j + it.len ≤ it'.len ∧ ∀ i < it.len, it.AgreesAt i it' (j + i)

/-- One of the updates carries the item. -/
def Carries (hist : List Bytes) (it : Item) : Prop :=
  ∃ b ∈ hist, ∃ u, decodeUpdate b = .ok u ∧ .item it ∈ u.structs

/-- The clock unit is one of the history. -/
def HasUnit (hist : List Bytes) (x : ID) : Prop := ∃ it, Carries hist it ∧ x ∈ it.units

/-- The clock unit is the low half of a surrogate pair. -/
def LowUnit (hist : List Bytes) (x : ID) : Prop :=
  ∃ it, Carries hist it ∧ ∃ i < it.len, it.unit i = x ∧ it.content.lowAt i = true

/-- The update carries only items, at most one block for each client. -/
def Update.Plain (u : Update) : Prop := u.Neat ∧ ∀ st ∈ u.structs, ∃ it, st = .item it

/-- The author of `it` had received `known` when inserting it: units of the history that were made
before, among them all of the author's own. -/
structure Authored (hist : List Bytes) (time : ID → ℕ) (it : Item) (known : List Bytes) : Prop where
  /-- The author knew units of the history that were made before. -/
  earlier : ∀ b ∈ known, ∃ u, decodeUpdate b = .ok u ∧ u.Plain ∧ ∀ it₁, .item it₁ ∈ u.structs →
    0 < it₁.len ∧ (∃ it₂, Carries hist it₂ ∧ it₁.SliceOf it₂) ∧
      ∀ x ∈ it₁.units, time x < time it.id
  /-- The item is next in the author's own clock space. -/
  own : (Doc.replay known).state it.id.client = it.id.clock
  /-- The item was inserted between two neighbours of one of the author's lists, an entry of a map
  at the end. -/
  place : ∃ l L, (Doc.replay known).listUnits l = some L ∧
    Yata.Ops.Adjacent L it.origin it.rightOrigin ∧ (∀ l', it.wireList 0 = some l' → l = l') ∧
    (l.key ≠ none → it.len = 1 ∧ it.rightOrigin = none)
  /-- A parent is an item that holds a type. -/
  parent : ∀ o, it.wireParent = some (.item o) →
    ∃ c, (Doc.replay known).itemAt o = some c ∧ c.content.isType = true

/-- The updates could have been made by clients that each edit their own document. -/
structure WellFormed (hist : List Bytes) : Prop where
  decodes : ∀ b ∈ hist, ∃ u, decodeUpdate b = .ok u ∧ u.Plain
  /-- The clocks of each client are covered from zero on. -/
  gapless : ∀ it, Carries hist it → ∀ k < it.id.clock + it.len, HasUnit hist ⟨it.id.client, k⟩
  /-- Two updates that carry the same unit agree on it. -/
  agree : ∀ it it', Carries hist it → Carries hist it' → ∀ i < it.len, ∀ j < it'.len,
    it.unit i = it'.unit j → it.AgreesAt i it' j
  /-- Nothing is inserted inside a surrogate pair. -/
  boundary : ∀ it, Carries hist it → 0 < it.len →
    (∀ o, it.origin = some o → ¬LowUnit hist o.next) ∧
      ∀ r, it.rightOrigin = some r → ¬LowUnit hist r
  /-- Each client made its units in order, and each item between neighbours it had. -/
  authored : ∃ time : ID → ℕ, (∀ x, HasUnit hist x.next → time x < time x.next) ∧
    ∀ it, Carries hist it → 0 < it.len → ∃ known, Authored hist time it known

/-! ### What units tell -/

theorem Item.AgreesAt.symm {it it' : Item} {i j : ℕ} (h : it.AgreesAt i it' j) :
    it'.AgreesAt j it i :=
  ⟨h.origin.symm, h.right.symm, h.list.symm, h.content.symm⟩

theorem Item.AgreesAt.trans {it it' it'' : Item} {i j k : ℕ} (h : it.AgreesAt i it' j)
    (h' : it'.AgreesAt j it'' k) : it.AgreesAt i it'' k :=
  ⟨h.origin.trans h'.origin, h.right.trans h'.right, h.list.trans h'.list,
    h.content.trans h'.content⟩

theorem length_codeUnits (r : Rune) : (codeUnits r).length = r.units := by
  unfold codeUnits Rune.units
  split <;> rfl

theorem length_flatMap_codeUnits (rs : List Rune) :
    (rs.flatMap codeUnits).length = unitsOf rs := by
  simp [List.length_flatMap, length_codeUnits, unitsOf]

theorem exists_rune {rs : List Rune} {i : ℕ} {a : ContentUnit}
    (h : (rs.flatMap codeUnits)[i]? = some a) :
    ∃ rs₁ r rs₂ k, rs = rs₁ ++ r :: rs₂ ∧ i = unitsOf rs₁ + k ∧ (codeUnits r)[k]? = some a := by
  induction rs generalizing i with
  | nil => simp at h
  | cons r rs ih =>
    rw [List.flatMap_cons] at h
    by_cases hi : i < (codeUnits r).length
    · rw [List.getElem?_append_left hi] at h
      exact ⟨[], r, rs, i, rfl, by simp, h⟩
    · rw [List.getElem?_append_right (by omega)] at h
      obtain ⟨rs₁, r', rs₂, k, rfl, hk, ha⟩ := ih h
      rw [length_codeUnits] at hi hk
      exact ⟨r :: rs₁, r', rs₂, k, rfl, by simp; omega, ha⟩

theorem getElem?_rune (rs₁ rs₂ : List Rune) (r : Rune) {k : ℕ} (hk : k < r.units) :
    ((rs₁ ++ r :: rs₂).flatMap codeUnits)[unitsOf rs₁ + k]? = (codeUnits r)[k]? := by
  rw [List.flatMap_append, List.flatMap_cons, List.getElem?_append_right (by
    rw [length_flatMap_codeUnits]; omega), length_flatMap_codeUnits, Nat.add_sub_cancel_left,
    List.getElem?_append_left (by rwa [length_codeUnits])]

namespace Content

theorem length_unitList (c : Content) : c.unitList.length = c.len := by
  cases c with
  | string s => exact length_flatMap_codeUnits (runes s)
  | _ => simp [unitList, len]

/-- The unit is the low half of a pair. -/
def isLow : ContentUnit → Bool
  | .code _ low => low
  | _ => false

theorem lows_eq (rs : List Rune) : lows rs = (rs.flatMap codeUnits).map isLow := by
  rw [lows, List.map_flatMap]
  refine List.flatMap_congr fun r _ => ?_
  unfold codeUnits
  split <;> rfl

theorem lowAt_iff {c : Content} {i : ℕ} :
    c.lowAt i = true ↔ ∃ v, c.unitList[i]? = some (.code v true) := by
  cases c with
  | string s =>
    simp only [lowAt, unitList]
    rw [lows_eq, List.getD_eq_getElem?_getD, List.getElem?_map]
    cases ((runes s).flatMap codeUnits)[i]? with
    | none => simp
    | some a => cases a <;> simp [isLow]
  | deleted n => simp [lowAt, unitList, List.getElem?_replicate]
  | json values => simp [lowAt, unitList]
  | any values => simp [lowAt, unitList]
  | _ => simp [lowAt, unitList, List.getElem?_singleton]

/-- A pair is two units, the high half first. -/
theorem pair_of_code {c : Content} {i v : ℕ} (h : c.unitList[i]? = some (.code v true)) :
    0xFFFF < v ∧ ∃ j, i = j + 1 ∧ c.unitList[j]? = some (.code v false) := by
  cases c with
  | string s =>
    simp only [unitList] at h ⊢
    obtain ⟨rs₁, r, rs₂, k, hrs, rfl, ha⟩ := exists_rune h
    unfold codeUnits at ha
    split at ha
    next hw =>
      match k with
      | 0 => simp at ha
      | 1 =>
        simp only [List.getElem?_cons_succ, List.getElem?_cons_zero, Option.some.injEq,
          ContentUnit.code.injEq, and_true] at ha
        subst ha
        refine ⟨hw, unitsOf rs₁, rfl, ?_⟩
        have := getElem?_rune rs₁ rs₂ r (k := 0) (Rune.units_pos r)
        rw [hrs, ← Nat.add_zero (unitsOf rs₁), this]
        simp [codeUnits, hw]
      | k + 2 => simp at ha
    next =>
      match k with
      | 0 => simp at ha
      | k + 1 => simp at ha
  | deleted n => simp [unitList, List.getElem?_replicate] at h
  | json values => simp [unitList] at h
  | any values => simp [unitList] at h
  | _ => simp [unitList, List.getElem?_singleton] at h

theorem code_low {c : Content} {i v : ℕ} (h : c.unitList[i]? = some (.code v false))
    (hv : 0xFFFF < v) : c.unitList[i + 1]? = some (.code v true) := by
  cases c with
  | string s =>
    simp only [unitList] at h ⊢
    obtain ⟨rs₁, r, rs₂, k, hrs, rfl, ha⟩ := exists_rune h
    have hr : r.val = v ∧ k = 0 := by
      unfold codeUnits at ha
      match k with
      | 0 => split at ha <;> simpa using ha
      | k + 1 => split at ha <;> simp [List.getElem?_cons] at ha
    obtain ⟨rfl, rfl⟩ := hr
    have hunits : r.units = 2 := by simp [Rune.units, hv]
    have := getElem?_rune rs₁ rs₂ r (k := 1) (by omega)
    rw [hrs, Nat.add_zero, this]
    simp [codeUnits, hv]
  | deleted n => simp [unitList, List.getElem?_replicate] at h
  | json values => simp [unitList] at h
  | any values => simp [unitList] at h
  | _ => simp [unitList, List.getElem?_singleton] at h

/-- A unit tells what kind of content it is of. -/
def ofUnit : ContentUnit → Bool × Bool
  | .deleted => (false, true)
  | .whole (.type _ _) => (true, false)
  | _ => (false, false)

theorem ofUnit_eq {c : Content} {i : ℕ} {a : ContentUnit} (h : c.unitList[i]? = some a) :
    ofUnit a = (c.isType, c.isDeleted) := by
  have ha := List.mem_of_getElem? h
  cases c with
  | string s =>
    obtain ⟨r, -, ha⟩ := List.mem_flatMap.1 ha
    unfold codeUnits at ha
    split at ha <;> simp at ha
    · rcases ha with rfl | rfl <;> rfl
    · obtain rfl := ha
      rfl
  | deleted n =>
    obtain rfl := List.eq_of_mem_replicate ha
    rfl
  | json values =>
    obtain ⟨v, -, rfl⟩ := List.mem_map.1 ha
    rfl
  | any values =>
    obtain ⟨v, -, rfl⟩ := List.mem_map.1 ha
    rfl
  | _ =>
    obtain rfl := List.mem_singleton.1 ha
    rfl

end Content

end YCollab.Crdt
