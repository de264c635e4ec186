import YCollab.Crdt.Edits

/-!
# One turn

What integrating one struct can do to a document with a gapless store, whatever the struct is:
nothing, or some cuts and then at most one struct more, which starts where its client's clock space
ends (`Turn`, `turn_of_integrateHead`).
-/

namespace YCollab.Crdt

open Lib0

variable {d d' : Doc} {it it' : Item} {x : ID} {st : Struct}

namespace Doc

/-! ### What `link` does to each field -/

section Fields

variable (d : Doc) (it : Item) (p : TypeID) (left : Option ID)

theorem link_eq : ∃ f, d.link it p left =
    { d.relink it p left with
      store := (d.relink it p left).store.append (.item it)
      deleted := f } := by
  unfold link
  simp only
  split
  · exact ⟨_, rfl⟩
  · exact ⟨_, rfl⟩

theorem relink_eq : ∃ l r s m f, d.relink it p left =
    { d with left := l, right := r, start := s, mapItems := m, deleted := f } := by
  unfold relink
  cases left <;> cases d.after ⟨p, it.key⟩ _ <;> cases it.hasParentSub <;> exact ⟨_, _, _, _, _, rfl⟩

theorem link_store : (d.link it p left).store = d.store.append (.item it) := by
  obtain ⟨f, h⟩ := link_eq d it p left
  obtain ⟨l, r, s, m, f, h'⟩ := relink_eq d it p left
  rw [h, h']

theorem link_pending : (d.link it p left).pending = d.pending := by
  obtain ⟨f, h⟩ := link_eq d it p left
  obtain ⟨l, r, s, m, f, h'⟩ := relink_eq d it p left
  rw [h, h']

theorem link_pendingDeletes : (d.link it p left).pendingDeletes = d.pendingDeletes := by
  obtain ⟨f, h⟩ := link_eq d it p left
  obtain ⟨l, r, s, m, f, h'⟩ := relink_eq d it p left
  rw [h, h']

theorem link_left (y : ID) : (d.link it p left).left y =
    if d.after ⟨p, it.key⟩ left = some y then some it.id
    else if y = it.id then left else d.left y := by
  obtain ⟨f, h⟩ := link_eq d it p left
  rw [h]
  unfold relink
  cases hr : d.after ⟨p, it.key⟩ left with
  | none =>
    cases left <;> cases it.hasParentSub <;>
      simp [deleteItem, Function.update_apply]
  | some r =>
    cases left <;> cases it.hasParentSub <;>
      simp [Function.update_apply, eq_comm (a := y) (b := r)]

theorem link_right (y : ID) : (d.link it p left).right y =
    if y = it.id then d.after ⟨p, it.key⟩ left
    else if left = some y then some it.id else d.right y := by
  obtain ⟨f, h⟩ := link_eq d it p left
  rw [h]
  unfold relink
  cases left with
  | none =>
    cases d.after ⟨p, it.key⟩ none <;> cases it.hasParentSub <;>
      simp [Function.update_apply]
  | some l =>
    cases d.after ⟨p, it.key⟩ (some l) <;> cases it.hasParentSub <;>
      simp [deleteItem, Function.update_apply, eq_comm (a := y) (b := l)]

theorem link_start (t : TypeID) : (d.link it p left).start t =
    if left = none ∧ it.hasParentSub = false ∧ t = p then some it.id else d.start t := by
  obtain ⟨f, h⟩ := link_eq d it p left
  rw [h]
  unfold relink
  cases left <;> cases d.after ⟨p, it.key⟩ _ <;> cases it.hasParentSub <;>
    simp [deleteItem, Function.update_apply]

theorem link_mapItems (t : TypeID) (k : Bytes) : (d.link it p left).mapItems t k =
    if d.after ⟨p, it.key⟩ left = none ∧ it.hasParentSub = true ∧ t = p ∧ k = it.parentSub
    then some it.id else d.mapItems t k := by
  obtain ⟨f, h⟩ := link_eq d it p left
  rw [h]
  unfold relink
  cases hr : d.after ⟨p, it.key⟩ left with
  | some r => cases left <;> cases it.hasParentSub <;> simp
  | none =>
    cases left <;> cases it.hasParentSub <;> by_cases ht : t = p <;>
      simp [deleteItem, Function.update_apply, ht]

theorem relink_deleted (y : ID) : (d.relink it p left).deleted y =
    if d.after ⟨p, it.key⟩ left = none ∧ it.hasParentSub = true ∧ left = some y then true
    else d.deleted y := by
  unfold relink
  cases hr : d.after ⟨p, it.key⟩ left with
  | some r => cases left <;> cases it.hasParentSub <;> simp
  | none =>
    cases left <;> cases it.hasParentSub <;>
      simp [deleteItem, Function.update_apply, eq_comm (a := y)]

theorem link_deleted {y : ID} (hy : y ≠ it.id) :
    (d.link it p left).deleted y = (d.relink it p left).deleted y := by
  unfold link
  simp only
  split <;> simp [deleteItem, hy]

theorem link_deleted_self (ho : ∀ o, p = .nested o → o ≠ it.id) :
    (d.link it p left).deleted it.id =
      (it.content.isDeleted || (d.relink it p left).ownerDeleted p ||
        it.hasParentSub && (d.after ⟨p, it.key⟩ left).isSome) := by
  have howner : ({ d.relink it p left with
      store := (d.relink it p left).store.append (.item it)
      deleted := Function.update (d.relink it p left).deleted it.id it.content.isDeleted } :
        Doc).ownerDeleted p = (d.relink it p left).ownerDeleted p := by
    cases p with
    | root name => rfl
    | nested o => simp [ownerDeleted, ho o rfl]
  unfold link
  simp only [howner]
  split
  next h =>
    simp only [deleteItem, Function.update_self]
    rw [Bool.or_assoc, h, Bool.or_true]
  next h =>
    rw [Bool.not_eq_true] at h
    rw [Bool.or_assoc, h, Bool.or_false]
    simp

end Fields

/-! ### Waiting -/

/-- Nothing the item refers to is missing. -/
def Known (d : Doc) (it : Item) : Prop :=
  d.missing it.id it.origin = false ∧ d.missing it.id it.rightOrigin = false ∧
    d.missing it.id (ownerID it) = false

theorem resolve_eq_none : d.resolve it = none ↔ ¬d.Known it := by
  unfold resolve Known
  split
  next h => simpa [or_assoc, -not_and, not_and_or] using h
  next h =>
    have hk : d.missing it.id it.origin = false ∧ d.missing it.id it.rightOrigin = false ∧
        d.missing it.id (ownerID it) = false := by
      simpa [and_assoc] using h
    simp only [hk, and_self, not_true_eq_false, iff_false]
    split
    · simp
    · split <;> simp

/-- The struct has to wait: for structs of its client before it, or for what it refers to. -/
def Blocked (d : Doc) : Struct → Prop
  | .skip _ _ => False
  | .gc id _ => d.state id.client < id.clock
  | .item it => d.state it.id.client < it.id.clock ∨
      d.state it.id.client < it.id.clock + it.len ∧ ¬d.Known it

theorem integrateHead_gc (d : Doc) (id : ID) (n : ℕ) : d.integrateHead (.gc id n) =
    if d.state id.client < id.clock then none
    else if d.state id.client ≥ id.clock + n then some d
    else some { d with
      store := d.store.append (.gc ⟨id.client, d.state id.client⟩
        (id.clock + n - d.state id.client)) } := by
  simp only [integrateHead]
  by_cases h : d.state id.client < id.clock
  · rw [if_pos h, if_pos h]
  rw [if_neg h, if_neg h]
  by_cases h' : d.state id.client ≥ id.clock + n
  · rw [if_pos h', if_pos (by omega)]
  · rw [if_neg h', if_neg (by omega)]
    have h1 : id.clock + (d.state id.client - id.clock) = d.state id.client := by omega
    have h2 : n - (d.state id.client - id.clock) = id.clock + n - d.state id.client := by omega
    rw [h1, h2]

theorem integrateHead_item (d : Doc) (it : Item) : d.integrateHead (.item it) =
    if d.state it.id.client < it.id.clock then none
    else if d.state it.id.client ≥ it.id.clock + it.len then some d
    else (d.resolve it).map fun r =>
      r.1.integrateItem r.2.1 r.2.2.1 r.2.2.2 (d.state it.id.client - it.id.clock) := by
  simp only [integrateHead]
  by_cases h : d.state it.id.client < it.id.clock
  · rw [if_pos h, if_pos h]
  rw [if_neg h, if_neg h]
  by_cases h' : d.state it.id.client ≥ it.id.clock + it.len
  · rw [if_pos h', if_pos (by omega)]
  · rw [if_neg h', if_neg (by omega)]
    cases d.resolve it <;> rfl

theorem integrateHead_eq_none : d.integrateHead st = none ↔ d.Blocked st := by
  cases st with
  | skip id n => simp [integrateHead, Blocked]
  | gc id n =>
    rw [integrateHead_gc, Blocked]
    split
    next h => simpa using h
    next h => split <;> simp [h]
  | item it =>
    rw [integrateHead_item, Blocked]
    split
    next h => simp [h]
    next h =>
      split
      next h' => simp [h, Nat.not_lt.2 h']
      next h' => simp [h, Nat.lt_of_not_le h', ← resolve_eq_none]

/-! ### What a turn does -/

/-- `it'` is `it` with its parent and key filled in: from a neighbour, from the wire, or not at
all. -/
inductive Filled (d : Doc) (it : Item) : Item → Prop
  | same : Filled d it it
  | none : Filled d it { it with parent := none }
  | neighbour {n : Item} : d.Stored n →
      Filled d it { it with
        parent := n.parent, hasParentSub := n.hasParentSub, parentSub := n.parentSub }
  | root {name : Bytes} : it.wireParent = some (.root name) →
      Filled d it { it with parent := some (.root name) }
  | nested {owner : ID} : d.Has owner → Filled d it { it with parent := some (.nested owner) }

theorem Filled.id_eq (h : Filled d it it') : it'.id = it.id := by cases h <;> rfl

theorem Filled.content_eq (h : Filled d it it') : it'.content = it.content := by cases h <;> rfl

theorem Filled.len_eq (h : Filled d it it') : it'.len = it.len := by cases h <;> rfl

theorem Cuts.neighbour (h : Cuts d d') {n : Item} (hn : d'.Stored n) :
    Filled d it { it with
      parent := n.parent, hasParentSub := n.hasParentSub, parentSub := n.parentSub } := by
  obtain ⟨m, hm, hp⟩ := h.pieces n hn
  obtain ⟨h1, h2, h3⟩ := hp.parent_eq
  rw [h1, h2, h3]
  exact .neighbour hm

theorem resolveNeighbour_ok (hg : d.store.Gapless) {clean : Doc → ID → Except Err (Doc × Item)}
    {name : Item → ID} (hclean : ∀ {y d' n}, clean d y = .ok (d', n) →
      Cuts d d' ∧ Edits d d' ∧ d'.Stored n ∧ name n = y)
    {o : Option ID} {n : Option Item} (h : d.resolveNeighbour clean o = .ok (d', n)) :
    Cuts d d' ∧ Edits d d' ∧ n.map name = o ∧ ∀ q, n = some q → d'.Stored q := by
  cases o with
  | none =>
    cases h
    exact ⟨.refl hg, .refl, rfl, fun _ hq => by cases hq⟩
  | some y =>
    simp only [resolveNeighbour] at h
    split at h
    next => cases h
    next d₁ l hy =>
      cases h
      obtain ⟨hc, he, hst, rfl⟩ := hclean hy
      exact ⟨hc, he, rfl, fun _ hl => Option.some.inj hl ▸ hst⟩

theorem resolveNeighbour_end (hg : d.store.Gapless) {o : Option ID} {left : Option Item}
    (h : d.resolveNeighbour getItemCleanEnd o = .ok (d', left)) :
    Cuts d d' ∧ Edits d d' ∧ left.map Item.lastID = o ∧ ∀ l, left = some l → d'.Stored l := by
  refine resolveNeighbour_ok hg (fun hy => ?_) h
  obtain ⟨hc, hlast⟩ := cleanEnd_ok hg hy
  exact ⟨hc.cuts, (trims_cleanEnd hg hy).edits, hc.stored, hlast⟩

theorem resolveNeighbour_start (hg : d.store.Gapless) {r : Option ID} {right : Option Item}
    (h : d.resolveNeighbour getItemCleanStart r = .ok (d', right)) :
    Cuts d d' ∧ Edits d d' ∧ right.map Item.id = r ∧ ∀ q, right = some q → d'.Stored q := by
  refine resolveNeighbour_ok hg (fun hy => ?_) h
  obtain ⟨hc, hid⟩ := cleanStart_ok hg hy
  exact ⟨hc.cuts, (trims_cleanStart hg hy).edits, hc.stored, hid⟩

theorem resolveParent_filled {d₀ : Doc} (hc : Cuts d₀ d) {left right : Option Item}
    (hleft : ∀ l, left = some l → Filled d₀ it { it with
      parent := l.parent, hasParentSub := l.hasParentSub, parentSub := l.parentSub })
    (hright : ∀ q, right = some q → d.Stored q) :
    Filled d₀ it (d.resolveParent it left right) := by
  unfold resolveParent
  split
  next =>
    cases left with
    | some l => exact hleft l rfl
    | none =>
      cases right with
      | some r => exact hc.neighbour (hright r rfl)
      | none => exact .same
  next name hp => exact .root hp
  next owner hp =>
    split
    next o hget =>
      split
      next =>
        have ho := (stored_of_getItem hc.gapless hget).1
        exact .nested (hc.has.1 (ho.has hc.gapless (ho.id_mem_units hc.gapless)))
      next => exact .none
    next => exact .none

/-- What `resolve` comes to: a neighbour cannot be cut free, and the item is left without a parent;
or both are found, and the parent is filled in. -/
theorem resolve_cases (hg : d.store.Gapless) {left right : Option ID}
    (h : d.resolve it = some (d', it', left, right)) :
    Cuts d d' ∧ Edits d d' ∧ ∃ l, left = l.map Item.id ∧
      (∀ n, l = some n → ∃ d₁, Cuts d d₁ ∧ Edits d d₁ ∧ Edits d₁ d' ∧ d₁.Stored n) ∧
      (it' = { it with parent := none } ∨ ∃ r, it' = d'.resolveParent it l r ∧
        l.map Item.lastID = it.origin ∧ r.map Item.id = it.rightOrigin ∧
        ∀ n, r = some n → d'.Stored n) := by
  unfold resolve at h
  split at h
  next => cases h
  split at h
  next =>
    cases h
    exact ⟨.refl hg, .refl, none, rfl, fun _ hn => (by cases hn), .inl rfl⟩
  next d₁ l hl =>
    obtain ⟨hc₁, he₁, hlast, hst₁⟩ := resolveNeighbour_end hg hl
    rw [hlast] at h
    simp only at h
    split at h
    next =>
      cases h
      exact ⟨hc₁, he₁, l, rfl, fun n hn => ⟨_, hc₁, he₁, .refl, hst₁ n hn⟩, .inl rfl⟩
    next d₂ r hr =>
      obtain ⟨hc₂, he₂, hid, hst₂⟩ := resolveNeighbour_start hc₁.gapless hr
      cases h
      exact ⟨hc₁.trans hc₂, he₁.trans he₂, l, rfl,
        fun n hn => ⟨d₁, hc₁, he₁, he₂, hst₁ n hn⟩, .inr ⟨r, rfl, hlast, hid, hst₂⟩⟩

theorem resolve_filled (hg : d.store.Gapless) {left right : Option ID}
    (h : d.resolve it = some (d', it', left, right)) :
    Cuts d d' ∧ Edits d d' ∧ Filled d it it' := by
  obtain ⟨hc, he, l, -, hl, rfl | ⟨r, rfl, -, -, hr⟩⟩ := resolve_cases hg h
  · exact ⟨hc, he, .none⟩
  · refine ⟨hc, he, resolveParent_filled hc (fun n hn => ?_) hr⟩
    obtain ⟨d₁, hc₁, -, -, hst⟩ := hl n hn
    exact hc₁.neighbour hst

/-- What `trim` comes to: some cuts, and if the item can be cut, either all of it or the units from
the offset on, behind the item in front of them. -/
theorem trim_cases (hg : d.store.Gapless) {left : Option ID} {offset : ℕ}
    {r : Option (Item × Option ID)} (h : d.trim it left offset = (d', r)) :
    Cuts d d' ∧ Edits d d' ∧ ∀ it' l, r = some (it', l) →
      offset = 0 ∧ it' = it ∧ l = left ∨ 0 < offset ∧ ∃ n hd tl, d'.Stored n ∧ l = some n.id ∧
        n.lastID = ⟨it.id.client, it.id.clock + offset - 1⟩ ∧
        it.content.splice offset = .ok (hd, tl) ∧
        it' = { it with id := it.unit offset, origin := some n.lastID, content := tl } := by
  unfold trim at h
  split at h
  next h0 =>
    cases h
    refine ⟨.refl hg, .refl, ?_⟩
    rintro it' l ⟨⟩
    exact .inl ⟨h0, rfl, rfl⟩
  next h0 =>
    split at h
    next =>
      cases h
      exact ⟨.refl hg, .refl, fun _ _ hr => by cases hr⟩
    next d₁ n hclean =>
      obtain ⟨hc, hlast⟩ := cleanEnd_ok hg hclean
      have he := (trims_cleanEnd hg hclean).edits
      split at h
      next =>
        cases h
        exact ⟨hc.cuts, he, fun _ _ hr => by cases hr⟩
      next hd tl hsplice =>
        cases h
        refine ⟨hc.cuts, he, ?_⟩
        rintro it' l ⟨⟩
        exact .inr ⟨Nat.pos_of_ne_zero h0, n, hd, tl, hc.stored, rfl, hlast, hsplice, rfl⟩

theorem trim_piece (hg : d.store.Gapless) {left : Option ID} {offset : ℕ} (hoff : offset < it.len)
    {r : Option (Item × Option ID)} (h : d.trim it left offset = (d', r)) :
    Cuts d d' ∧ Edits d d' ∧ ∀ it' l, r = some (it', l) →
      it.Piece it' ∧ it'.id = it.unit offset ∧ it'.len = it.len - offset := by
  obtain ⟨hc, he, hcases⟩ := trim_cases hg h
  refine ⟨hc, he, fun it' l hr => ?_⟩
  obtain ⟨rfl, rfl, -⟩ | ⟨h0, n, hd, tl, -, -, hlast, hsplice, rfl⟩ := hcases it' l hr
  · exact ⟨.refl, rfl, rfl⟩
  · rw [hlast]
    exact ⟨Item.Piece.refl.tail hsplice h0 hoff, rfl,
      Item.len_tail (Content.splice_cut hsplice hoff.le)⟩

/-! ### Dropped items -/

/-- The last struct of a client is a GC. -/
def endsInGC (d : Doc) (client : ℕ) : Bool :=
  match (d.store.structs client).getLast? with
  | some (.gc _ _) => true
  | _ => false

/-- The document has the first units of an item and cannot cut them off: there is a GC in front of
the rest, or the cut would fall inside a surrogate pair. -/
def Drops (d : Doc) : Struct → Prop
  | .item it =>
    it.id.clock < d.state it.id.client ∧ d.state it.id.client < it.id.clock + it.len ∧
      (d.endsInGC it.id.client = true ∨
        it.content.lowAt (d.state it.id.client - it.id.clock) = true)
  | _ => False

instance : DecidablePred d.Drops
  | .item _ => inferInstanceAs (Decidable (_ ∧ _))
  | .gc _ _ => inferInstanceAs (Decidable False)
  | .skip _ _ => inferInstanceAs (Decidable False)

theorem exists_last (hg : d.store.Gapless) {c : ℕ} (hpos : 0 < d.state c) :
    ∃ A st, d.store.structs c = A ++ [st] ∧ st.endClock = d.state c ∧ st.id.clock < d.state c := by
  have hne : d.store.structs c ≠ [] := fun h => by
    simp [state, StructStore.state, h, stateOf] at hpos
  obtain ⟨A, st, hs⟩ := List.eq_nil_or_concat'  (d.store.structs c) |>.resolve_left hne
  have hend : st.endClock = d.state c := by
    simp [state, StructStore.state, hs, stateOf]
  obtain ⟨-, -, hlen, -⟩ := (hs ▸ hg.run c).split
  exact ⟨A, st, hs, hend, by rw [← hend, Struct.endClock]; omega⟩

theorem endsInGC_iff (hg : d.store.Gapless) (c : ℕ) : d.endsInGC c = true ↔
    ∃ id n, .gc id n ∈ d.store.structs c ∧ id.clock + n = d.state c := by
  rcases Nat.eq_zero_or_pos (d.state c) with h0 | hpos
  · have hnil : d.store.structs c = [] := by
      have hrun := hg.run c
      rw [state, hg.state_eq] at h0
      cases hs : d.store.structs c with
      | nil => rfl
      | cons st l =>
        rw [hs] at hrun h0
        have := hrun.2.1
        simp at h0
        omega
    simp [endsInGC, hnil]
  obtain ⟨A, last, hs, hend, hlt⟩ := exists_last hg hpos
  have hmem : last ∈ d.store.structs c := by simp [hs]
  constructor
  · intro h
    cases last with
    | gc id n => exact ⟨id, n, hmem, hend⟩
    | item it => simp [endsInGC, hs] at h
    | skip id n => simp [endsInGC, hs] at h
  · rintro ⟨id, n, hgc, hstate⟩
    obtain ⟨P, Q, hPQ⟩ := List.append_of_mem hgc
    obtain ⟨-, -, hn, -⟩ := (hPQ ▸ hg.run c).split
    rw [Struct.len_gc] at hn
    have hlo : (Struct.gc id n).id.clock ≤ d.state c - 1 := by
      rw [Struct.id_gc]
      omega
    have hhi : d.state c - 1 < (Struct.gc id n).endClock := by
      simp only [Struct.endClock, Struct.id_gc, Struct.len_gc]
      omega
    have heq := (hg.run c).cover_unique hmem hgc (by omega) (by omega) hlo hhi
    simp [endsInGC, hs, heq]

theorem Cuts.endsInGC (h : Cuts d d') (hg : d.store.Gapless) (c : ℕ) :
    d'.endsInGC c = d.endsInGC c := by
  rw [Bool.eq_iff_iff, endsInGC_iff h.gapless, endsInGC_iff hg]
  simp only [h.gcs, h.state]

/-- Cutting off the units that the document has fails for two reasons. -/
theorem trim_eq_none (hg : d.store.Gapless) {left : Option ID} {offset : ℕ} (h0 : 0 < offset)
    (hoff : offset < it.len) (hstate : it.id.clock + offset = d.state it.id.client) :
    (d.trim it left offset).2 = none ↔
      d.endsInGC it.id.client = true ∨ it.content.lowAt offset = true := by
  obtain ⟨A, last, hs, hend, hlt⟩ := exists_last hg (c := it.id.client) (by omega)
  have hskip := (hs ▸ hg.run it.id.client).split.2.2.2.1
  set x : ID := ⟨it.id.client, it.id.clock + offset - 1⟩ with hx
  have hs' : d.store.structs x.client = A ++ last :: [] := hs
  have hf : d.store.find x = .ok A.length :=
    hg.find_eq hs' (by simp only [hx]; omega) (by simp only [hx]; omega)
  have hi : (d.store.structs x.client)[A.length]? = some last := by simp [hx, hs]
  unfold trim
  rw [if_neg (by omega)]
  cases last with
  | skip id n => cases hskip
  | gc id n => simp [getItemCleanEnd, ← hx, hf, endsInGC, hs]
  | item l =>
    have hlen : x.clock - l.id.clock + 1 = l.len := by
      simp only [Struct.endClock_item] at hend
      simp only [Struct.id_item] at hlt
      simp only [hx]
      omega
    have hclean : d.getItemCleanEnd x = .ok (d, l) := by
      simp [getItemCleanEnd, hf, hi, hlen]
    have hgc : d.endsInGC it.id.client = false := by simp [endsInGC, hs]
    simp only [← hx, hclean, hgc, Bool.false_eq_true, false_or]
    cases hlow : it.content.lowAt offset with
    | false =>
      obtain ⟨h, t, hsp⟩ := Content.splice_isOk h0 hoff hlow
      simp [hsp]
    | true =>
      cases hsp : it.content.splice offset with
      | error e => simp
      | ok p =>
        have := (Content.splice_cut hsp hoff.le).low_tail 0
        simp [Content.lowAt_zero, hlow] at this

theorem drops_item_iff {d₁ : Doc} (hg : d.store.Gapless) (hc : Cuts d d₁) (hfill : Filled d it it')
    (h1 : it.id.clock ≤ d.state it.id.client) (h2 : d.state it.id.client < it.id.clock + it.len)
    (left : Option ID) : d.Drops (.item it) ↔
      (d₁.trim it' left (d.state it.id.client - it.id.clock)).2 = none := by
  rcases Nat.eq_or_lt_of_le h1 with h0 | hlt
  · simp [Drops, trim, h0]
  · rw [trim_eq_none hc.gapless (by omega) (by rw [hfill.len_eq]; omega)
      (by rw [hfill.id_eq, hc.state]; omega), hfill.id_eq, hfill.content_eq, hc.endsInGC hg]
    simp [Drops, hlt, h2]

/-! ### Turns -/

/-- What is new of an item: the piece of it that starts where its client's clock space ends. -/
structure New (d d₁ : Doc) (it it₁ : Item) : Prop where
  cuts : Cuts d d₁
  id : it₁.id = ⟨it.id.client, d.state it.id.client⟩
  pos : 0 < it₁.len
  endClock : it₁.id.clock + it₁.len = it.id.clock + it.len
  kept : ¬d.Drops (.item it)
  piece : ∃ it', Filled d it it' ∧ it'.Piece it₁

/-- What a turn can do: nothing, because there is nothing new; only cuts, because the item cannot
be cut where it has to be; or some cuts and one struct more. -/
inductive Turn (d : Doc) : Struct → Doc → Prop
  | skip {id : ID} {n : ℕ} : Turn d (.skip id n) d
  | known {st : Struct} : st.isSkip = false → st.endClock ≤ d.state st.id.client → Turn d st d
  | gc {id : ID} {n : ℕ} : id.clock ≤ d.state id.client → d.state id.client < id.clock + n →
      Turn d (.gc id n) { d with
        store := d.store.append (.gc ⟨id.client, d.state id.client⟩
          (id.clock + n - d.state id.client)) }
  | dropped {it : Item} {d₁ : Doc} : d.Drops (.item it) → Cuts d d₁ → Edits d d₁ →
      Turn d (.item it) d₁
  | tombstone {it it₁ : Item} {d₁ : Doc} : New d d₁ it it₁ →
      Turn d (.item it) { d₁ with store := d₁.store.append (.gc it₁.id it₁.len) }
  | link {it it₁ : Item} {d₁ : Doc} {p : TypeID} (left : Option ID) : New d d₁ it it₁ →
      it₁.parent = some p → Turn d (.item it) (d₁.link it₁ p left)

theorem New.state_eq {d₁ : Doc} {it₁ : Item} (h : New d d₁ it it₁) :
    d₁.state it₁.id.client = it₁.id.clock := by
  rw [h.cuts.state, h.id]

/-- An item that has units the document does not have is dropped if it cannot be trimmed; otherwise
what is left of it is new. -/
theorem new_of_trim {d₁ d₂ : Doc} {it₁ : Item} {left right : Option ID}
    {r : Option (Item × Option ID)} (hg : d.store.Gapless)
    (h1 : it.id.clock ≤ d.state it.id.client) (h2 : d.state it.id.client < it.id.clock + it.len)
    (hres : d.resolve it = some (d₁, it₁, left, right))
    (htrim : d₁.trim it₁ left (d.state it.id.client - it.id.clock) = (d₂, r)) :
    Cuts d d₂ ∧ Edits d d₂ ∧ (d.Drops (.item it) ↔ r = none) ∧ ∀ it₂ left₂,
      r = some (it₂, left₂) → New d d₂ it it₂ ∧ it₂.parent = it₁.parent := by
  obtain ⟨hc₁, he₁, hfill⟩ := resolve_filled hg hres
  have hoff : d.state it.id.client - it.id.clock < it₁.len := by
    rw [hfill.len_eq]
    omega
  obtain ⟨hc₂, he₂, hpiece⟩ := trim_piece hc₁.gapless hoff htrim
  have hdrop : d.Drops (.item it) ↔ r = none := by
    rw [drops_item_iff hg hc₁ hfill h1 h2 left, htrim]
  refine ⟨hc₁.trans hc₂, he₁.trans he₂, hdrop, fun it₂ left₂ hr => ?_⟩
  obtain ⟨hp, hid, hlen⟩ := hpiece it₂ left₂ hr
  rw [hfill.len_eq] at hlen
  have hid' : it₂.id = ⟨it.id.client, d.state it.id.client⟩ := by
    rw [hid, Item.unit, hfill.id_eq]
    exact ID.ext rfl (by simp only; omega)
  exact ⟨⟨hc₁.trans hc₂, hid', by omega, by rw [hid', hlen]; simp only; omega,
    fun h => (by cases hr.symm.trans (hdrop.1 h)), it₁, hfill, hp⟩, hp.parent_eq.1⟩

/-- What becomes of an item that has its turn: there is nothing new in it; or it is dropped; or what
is new of it is appended, as a GC if no parent was found for it. -/
theorem integrateHead_item_cases (hg : d.store.Gapless) (h : d.integrateHead (.item it) = some d') :
    it.id.clock + it.len ≤ d.state it.id.client ∧ d' = d ∨
      ∃ d₁ it₁ left right d₂ r, d.resolve it = some (d₁, it₁, left, right) ∧
        d₁.trim it₁ left (d.state it.id.client - it.id.clock) = (d₂, r) ∧ Edits d d₂ ∧
        (d.Drops (.item it) ∧ Cuts d d₂ ∧ d' = d₂ ∨
          ∃ it₂ left₂, r = some (it₂, left₂) ∧ New d d₂ it it₂ ∧ it₂.parent = it₁.parent ∧
            (it₂.parent = none ∧ d' = { d₂ with store := d₂.store.append (.gc it₂.id it₂.len) } ∨
              ∃ p, it₂.parent = some p ∧ d' = d₂.link it₂ p (if d₂.conflicts left₂ right then
                d₂.resolveConflict it₂ p left₂ right else left₂))) := by
  rw [integrateHead_item] at h
  split at h
  next => cases h
  next h1 =>
    split at h
    next h2 => exact .inl ⟨h2, (Option.some.inj h).symm⟩
    next h2 =>
      obtain ⟨⟨d₁, it₁, left, right⟩, hres, heq⟩ := Option.map_eq_some_iff.1 h
      simp only [integrateItem] at heq
      generalize htrim : d₁.trim it₁ left (d.state it.id.client - it.id.clock) = r at heq
      obtain ⟨d₂, r⟩ := r
      obtain ⟨hc, he, hdrop, hnew⟩ := new_of_trim hg (by omega) (by omega) hres htrim
      refine .inr ⟨d₁, it₁, left, right, d₂, r, hres, htrim, he, ?_⟩
      cases r with
      | none => exact .inl ⟨hdrop.2 rfl, hc, heq.symm⟩
      | some r =>
        obtain ⟨it₂, left₂⟩ := r
        obtain ⟨hnew, hpar₂⟩ := hnew it₂ left₂ rfl
        refine .inr ⟨it₂, left₂, rfl, hnew, hpar₂, ?_⟩
        cases hpar : it₂.parent with
        | none =>
          simp only [hpar] at heq
          exact .inl ⟨rfl, heq.symm⟩
        | some p =>
          simp only [hpar] at heq
          exact .inr ⟨p, rfl, heq.symm⟩

theorem turn_of_integrateHead (hg : d.store.Gapless) (h : d.integrateHead st = some d') :
    Turn d st d' := by
  cases st with
  | skip id n =>
    cases h
    exact .skip
  | gc id n =>
    rw [integrateHead_gc] at h
    split at h
    next => cases h
    next h1 =>
      split at h
      next h2 =>
        cases h
        exact .known rfl h2
      next h2 =>
        cases h
        exact .gc (by omega) (by omega)
  | item it =>
    obtain ⟨hle, rfl⟩ | ⟨-, -, -, -, d₂, -, -, -, he, ⟨hdrop, hc, rfl⟩ |
      ⟨it₂, left, -, hnew, -, ⟨-, rfl⟩ | ⟨p, hpar, rfl⟩⟩⟩ := integrateHead_item_cases hg h
    · exact .known rfl hle
    · exact .dropped hdrop hc he
    · exact .tombstone hnew
    · exact .link _ hnew hpar

theorem Turn.gapless (h : Turn d st d') (hg : d.store.Gapless) : d'.store.Gapless := by
  cases h with
  | skip => exact hg
  | known => exact hg
  | gc h1 h2 => exact hg.append (by rw [Struct.len_gc]; omega) rfl
  | dropped _ hc _ => exact hc.gapless
  | tombstone hn => exact hn.cuts.gapless.append hn.pos rfl
  | link left hn =>
    rw [link_store]
    exact hn.cuts.gapless.append hn.pos rfl

theorem Turn.pending (h : Turn d st d') : d'.pending = d.pending := by
  cases h with
  | skip => rfl
  | known => rfl
  | gc => rfl
  | dropped _ hc _ => exact hc.pending
  | tombstone hn => exact hn.cuts.pending
  | link left hn =>
    rw [link_pending]
    exact hn.cuts.pending

theorem Turn.pendingDeletes (h : Turn d st d') : d'.pendingDeletes = d.pendingDeletes := by
  cases h with
  | skip => rfl
  | known => rfl
  | gc => rfl
  | dropped _ hc _ => exact hc.pendingDeletes
  | tombstone hn => exact hn.cuts.pendingDeletes
  | link left hn =>
    rw [link_pendingDeletes]
    exact hn.cuts.pendingDeletes

theorem Cuts.state_append_le (hc : Cuts d d') {s : Struct} (hpos : 0 < s.len)
    (hskip : s.isSkip = false) (hs : d'.state s.id.client = s.id.clock) (c : ℕ) :
    d.state c ≤ (d'.store.append s).state c := by
  rw [hc.gapless.state_append hpos hskip hs]
  split
  next heq =>
    subst heq
    rw [← hc.state, hs, Struct.endClock]
    omega
  next => exact (hc.state c).ge

theorem Turn.state_mono (h : Turn d st d') (hg : d.store.Gapless) (c : ℕ) :
    d.state c ≤ d'.state c := by
  cases h with
  | skip => rfl
  | known => rfl
  | gc h1 h2 => exact (Cuts.refl hg).state_append_le (by rw [Struct.len_gc]; omega) rfl rfl c
  | dropped _ hc _ => exact (hc.state c).ge
  | @tombstone it it₁ d₁ hn =>
    exact hn.cuts.state_append_le (s := .gc it₁.id it₁.len) hn.pos rfl hn.state_eq c
  | @link it it₁ d₁ p left hn =>
    unfold state
    rw [link_store]
    exact hn.cuts.state_append_le (s := .item it₁) hn.pos rfl hn.state_eq c

/-! ### What becomes of a struct -/

/-- There is nothing new in the struct: it is a marker, or its clocks are stored. -/
def Done (d : Doc) (st : Struct) : Prop := st.isSkip = true ∨ st.endClock ≤ d.state st.id.client

theorem Done.mono (h : d.Done st) (hle : ∀ c, d.state c ≤ d'.state c) : d'.Done st :=
  h.imp_right fun h => h.trans (hle _)

theorem done_congr (h : ∀ c, d'.state c = d.state c) : d'.Done st ↔ d.Done st := by
  unfold Done
  rw [h]

theorem Drops.not_done (h : d.Drops st) : ¬d.Done st := by
  cases st with
  | item it =>
    rintro (hskip | hle)
    · cases hskip
    · exact absurd h.2.1 (Nat.not_lt.2 hle)
  | gc id n => exact h.elim
  | skip id n => exact h.elim

theorem done_append (hg : d.store.Gapless) {s : Struct} (hpos : 0 < s.len)
    (hskip : s.isSkip = false) (hs : d.state s.id.client = s.id.clock)
    (hc : s.id.client = st.id.client) (hend : s.endClock = st.endClock)
    (h : d'.store = d.store.append s) : d'.Done st := by
  refine .inr ?_
  rw [state, h, hg.state_append hpos hskip hs, if_pos hc.symm, hend]

theorem New.not_done {d₁ : Doc} {it₁ : Item} (h : New d d₁ it it₁) : ¬d.Done (.item it) := by
  rintro (hskip | hle)
  · cases hskip
  · have hlt := h.endClock
    rw [h.id] at hlt
    have := h.pos
    simp only [Struct.endClock_item, Struct.id_item] at hle
    simp only at hlt
    omega

/-- What becomes of a struct that has its turn: there is nothing new in it, or it is stored, or it is
dropped. -/
theorem outcome (hg : d.store.Gapless) (h : d.integrateHead st = some d') :
    d.Done st ∧ d' = d ∨ ¬d.Done st ∧ ¬d.Drops st ∧ d'.Done st ∨
      d.Drops st ∧ Cuts d d' ∧ Edits d d' := by
  cases turn_of_integrateHead hg h with
  | skip => exact .inl ⟨.inl rfl, rfl⟩
  | known hskip hle => exact .inl ⟨.inr hle, rfl⟩
  | @gc id n h1 h2 =>
    refine .inr (.inl ⟨?_, fun hd => hd, done_append hg (s := .gc ⟨id.client, d.state id.client⟩ _)
      ?_ rfl rfl rfl ?_ rfl⟩)
    · rintro (hskip | hle)
      · cases hskip
      · simp only [Struct.endClock, Struct.id_gc, Struct.len_gc] at hle
        omega
    · rw [Struct.len_gc]
      omega
    · simp only [Struct.endClock, Struct.id_gc, Struct.len_gc]
      omega
  | dropped hd hc he => exact .inr (.inr ⟨hd, hc, he⟩)
  | @tombstone it it₁ d₁ hn =>
    refine .inr (.inl ⟨hn.not_done, hn.kept, done_append hn.cuts.gapless (s := .gc it₁.id it₁.len)
      hn.pos rfl hn.state_eq ?_ hn.endClock rfl⟩)
    rw [Struct.id_gc, hn.id, Struct.id_item]
  | @link it it₁ d₁ p left hn =>
    refine .inr (.inl ⟨hn.not_done, hn.kept, done_append hn.cuts.gapless (s := .item it₁)
      hn.pos rfl hn.state_eq ?_ hn.endClock (link_store ..)⟩)
    rw [Struct.id_item, hn.id, Struct.id_item]

theorem Cuts.drops (h : Cuts d d') (hg : d.store.Gapless) : d'.Drops st ↔ d.Drops st := by
  cases st with
  | item it => simp only [Drops, h.state, h.endsInGC hg]
  | gc id n => exact Iff.rfl
  | skip id n => exact Iff.rfl

end Doc

end YCollab.Crdt
