import Mathlib.Order.Lattice
import Mathlib.Data.List.Induction
import Mathlib.Data.List.Pairwise

/-!
# Finite maps as sorted association lists

`SortedMap K V` is a finite map from a linearly ordered key type, stored as the list of its
entries with strictly decreasing keys. The sortedness is a field, so two maps with the same
lookups are equal (`SortedMap.ext_find`), walking the entries is a walk in a fixed order, and
every operation evaluates in the kernel.
-/

variable {K V : Type*} [LinearOrder K]

namespace SortedMap

/-- The value stored under `k` in an association list. -/
def lookup (k : K) : List (K × V) → Option V
  | [] => none
  | (a, v) :: l => if a = k then some v else lookup k l

/-- Store `v` under `k`, keeping the keys decreasing. -/
def insertEntry (k : K) (v : V) : List (K × V) → List (K × V)
  | [] => [(k, v)]
  | (a, u) :: l =>
    if k < a then (a, u) :: insertEntry k v l
    else if k = a then (k, v) :: l
    else (k, v) :: (a, u) :: l

/-- The keys of an association list are strictly decreasing. -/
def Decreasing (l : List (K × V)) : Prop := l.Pairwise fun p q => q.1 < p.1

theorem mem_insertEntry {k : K} {v : V} {l : List (K × V)} {p : K × V}
    (h : p ∈ insertEntry k v l) : p = (k, v) ∨ p ∈ l := by
  induction l with
  | nil => exact .inl (by simpa [insertEntry] using h)
  | cons q l ih =>
    simp only [insertEntry] at h
    split at h
    · rcases List.mem_cons.1 h with rfl | h
      · exact .inr (List.mem_cons_self ..)
      · exact (ih h).imp_right (List.mem_cons_of_mem _)
    · split at h
      · exact (List.mem_cons.1 h).imp_right (List.mem_cons_of_mem _)
      · exact List.mem_cons.1 h

theorem Decreasing.insertEntry {l : List (K × V)} (h : Decreasing l) (k : K) (v : V) :
    Decreasing (insertEntry k v l) := by
  induction l with
  | nil => simp [SortedMap.insertEntry, Decreasing]
  | cons q l ih =>
    obtain ⟨hq, hl⟩ := List.pairwise_cons.1 h
    simp only [SortedMap.insertEntry]
    split
    next hk =>
      refine List.pairwise_cons.2 ⟨fun p hp => ?_, ih hl⟩
      rcases mem_insertEntry hp with rfl | hp
      · exact hk
      · exact hq p hp
    next hk =>
      split
      next hkq =>
        subst hkq
        exact List.pairwise_cons.2 ⟨hq, hl⟩
      next hkq =>
        have hlt : q.1 < k := lt_of_le_of_ne (not_lt.1 hk) (Ne.symm hkq)
        refine List.pairwise_cons.2 ⟨fun p hp => ?_, h⟩
        rcases List.mem_cons.1 hp with rfl | hp
        · exact hlt
        · exact (hq p hp).trans hlt

theorem lookup_insertEntry (k k' : K) (v : V) (l : List (K × V)) :
    lookup k' (insertEntry k v l) = if k' = k then some v else lookup k' l := by
  induction l with
  | nil => simp [insertEntry, lookup, eq_comm]
  | cons q l ih =>
    simp only [insertEntry]
    split
    next hk =>
      simp only [lookup, ih]
      by_cases h : q.1 = k'
      · have : k' ≠ k := by rintro rfl; exact absurd h hk.ne'
        simp [h, this]
      · simp [h]
    next hk =>
      split
      next hkq => subst hkq; by_cases h : k' = q.1 <;> simp [lookup, h, eq_comm]
      next hkq => simp only [lookup, eq_comm (a := k)]

theorem lookup_eq_none {k : K} {l : List (K × V)} (h : ∀ p ∈ l, p.1 ≠ k) : lookup k l = none := by
  induction l with
  | nil => rfl
  | cons q l ih =>
    have hq : q.1 ≠ k := h q (List.mem_cons_self ..)
    simp [lookup, hq, ih fun p hp => h p (List.mem_cons_of_mem _ hp)]

theorem mem_of_lookup {k : K} {v : V} {l : List (K × V)} (h : lookup k l = some v) :
    (k, v) ∈ l := by
  induction l with
  | nil => simp [lookup] at h
  | cons q l ih =>
    simp only [lookup] at h
    split at h
    next hq => cases h; subst hq; exact List.mem_cons_self ..
    next => exact List.mem_cons_of_mem _ (ih h)

theorem Decreasing.lookup_of_mem {k : K} {v : V} {l : List (K × V)} (hl : Decreasing l)
    (h : (k, v) ∈ l) : lookup k l = some v := by
  induction l with
  | nil => simp at h
  | cons q l ih =>
    obtain ⟨hq, hl'⟩ := List.pairwise_cons.1 hl
    rcases List.mem_cons.1 h with rfl | h
    · simp [lookup]
    · have : q.1 ≠ k := (hq _ h).ne'
      simp [lookup, this, ih hl' h]

theorem Decreasing.ext {l l' : List (K × V)} (hl : Decreasing l) (hl' : Decreasing l')
    (h : ∀ k, lookup k l = lookup k l') : l = l' := by
  induction l generalizing l' with
  | nil =>
    cases l' with
    | nil => rfl
    | cons q l' => simpa [lookup] using h q.1
  | cons p l ih =>
    obtain ⟨hp, hl⟩ := List.pairwise_cons.1 hl
    cases l' with
    | nil => simpa [lookup] using h p.1
    | cons q l' =>
      obtain ⟨hq, hl'⟩ := List.pairwise_cons.1 hl'
      -- the greatest key of one list is looked up in the other, so it cannot be smaller
      have hkey : p.1 = q.1 := by
        rcases lt_trichotomy p.1 q.1 with hlt | heq | hlt
        · have hnone : lookup q.1 l = none :=
            lookup_eq_none fun r hr => ((hp r hr).trans hlt).ne
          have := h q.1
          simp [lookup, hlt.ne, hnone] at this
        · exact heq
        · have hnone : lookup p.1 l' = none :=
            lookup_eq_none fun r hr => ((hq r hr).trans hlt).ne
          have := h p.1
          simp [lookup, hlt.ne, hnone] at this
      have hval : p.2 = q.2 := by
        have := h p.1
        rw [lookup, lookup] at this
        simpa [hkey] using this
      have htail : l = l' := by
        refine ih hl hl' fun k => ?_
        by_cases hk : p.1 = k
        · rw [lookup_eq_none fun r hr => (hk ▸ hp r hr).ne,
            lookup_eq_none fun r hr => (hk ▸ hkey ▸ hq r hr).ne]
        · have hk' : q.1 ≠ k := hkey ▸ hk
          have := h k
          rwa [lookup, lookup, if_neg hk, if_neg hk'] at this
      rw [htail, Prod.ext hkey hval]

end SortedMap

/-- A finite map: its entries, keys strictly decreasing. -/
structure SortedMap (K V : Type*) [LinearOrder K] where
  /-- The entries, greatest key first. -/
  entries : List (K × V)
  /-- No key occurs twice, and the keys decrease. -/
  decreasing : SortedMap.Decreasing entries

namespace SortedMap

/-- The map with no entries. -/
def empty : SortedMap K V := ⟨[], List.Pairwise.nil⟩

/-- The value stored under `k`. -/
def find? (m : SortedMap K V) (k : K) : Option V := lookup k m.entries

/-- The map with `v` stored under `k`. -/
def insert (m : SortedMap K V) (k : K) (v : V) : SortedMap K V :=
  ⟨insertEntry k v m.entries, m.decreasing.insertEntry k v⟩

/-- Apply `f` to every value. -/
def mapVal {W : Type*} (f : V → W) (m : SortedMap K V) : SortedMap K W :=
  ⟨m.entries.map fun p => (p.1, f p.2), by
    have h := m.decreasing
    simpa [Decreasing, List.pairwise_map] using h⟩

/-- Keep the entries that satisfy `p`. -/
def filter (p : K → V → Bool) (m : SortedMap K V) : SortedMap K V :=
  ⟨m.entries.filter fun e => p e.1 e.2, m.decreasing.filter _⟩

/-- The keys, greatest first. -/
def keys (m : SortedMap K V) : List K := m.entries.map Prod.fst

@[simp] theorem find?_empty (k : K) : (empty : SortedMap K V).find? k = none := rfl

theorem find?_insert (m : SortedMap K V) (k k' : K) (v : V) :
    (m.insert k v).find? k' = if k' = k then some v else m.find? k' :=
  lookup_insertEntry k k' v m.entries

theorem find?_insert_of_ne (m : SortedMap K V) {k k' : K} (v : V) (h : k' ≠ k) :
    (m.insert k v).find? k' = m.find? k' := by simp [find?_insert, h]

theorem lookup_map {W : Type*} (f : V → W) (k : K) (l : List (K × V)) :
    lookup k (l.map fun p => (p.1, f p.2)) = (lookup k l).map f := by
  induction l with
  | nil => rfl
  | cons p l ih => by_cases h : p.1 = k <;> simp [lookup, h, ih]

@[simp] theorem find?_mapVal {W : Type*} (f : V → W) (m : SortedMap K V) (k : K) :
    (m.mapVal f).find? k = (m.find? k).map f :=
  lookup_map f k m.entries

theorem find?_eq_some {m : SortedMap K V} {k : K} {v : V} :
    m.find? k = some v ↔ (k, v) ∈ m.entries :=
  ⟨mem_of_lookup, m.decreasing.lookup_of_mem⟩

theorem find?_filter (p : K → V → Bool) (m : SortedMap K V) (k : K) :
    (m.filter p).find? k = (m.find? k).filter (p k) := by
  refine Option.ext fun v => ?_
  rw [find?_eq_some, Option.filter_eq_some_iff, find?_eq_some]
  exact List.mem_filter

theorem mem_keys {m : SortedMap K V} {k : K} : k ∈ m.keys ↔ ∃ v, m.find? k = some v := by
  simp [keys, find?_eq_some]

theorem ext_find {m m' : SortedMap K V} (h : ∀ k, m.find? k = m'.find? k) : m = m' := by
  cases m with
  | mk l hl => cases m' with
    | mk l' hl' =>
      have : l = l' := hl.ext hl' h
      subst this
      rfl

/-! ### Building a map from a list of entries -/

/-- Store the entries one after the other; a key that occurs twice keeps its last value. -/
def ofList (l : List (K × V)) : SortedMap K V := l.foldl (fun m p => m.insert p.1 p.2) empty

theorem find?_ofList (l : List (K × V)) (k : K) :
    (ofList l).find? k = ((l.filter fun p => p.1 = k).getLast?).map Prod.snd := by
  induction l using List.reverseRecOn with
  | nil => rfl
  | append_singleton l p ih =>
    rw [ofList, List.foldl_append, List.foldl_cons, List.foldl_nil, find?_insert, List.filter_append]
    by_cases hk : k = p.1
    · subst hk
      simp
    · have hk' : ¬p.1 = k := fun h => hk h.symm
      rw [if_neg hk, List.filter_cons_of_neg (by simpa using hk'), List.filter_nil, List.append_nil]
      exact ih

theorem mem_entries_insert {m : SortedMap K V} {k : K} {v : V} {p : K × V}
    (h : p ∈ (m.insert k v).entries) : p = (k, v) ∨ p ∈ m.entries := mem_insertEntry h

theorem length_insertEntry_le (k : K) (v : V) (l : List (K × V)) :
    (insertEntry k v l).length ≤ l.length + 1 := by
  induction l with
  | nil => simp [insertEntry]
  | cons q l ih =>
    simp only [insertEntry]
    split
    · simpa using ih
    · split <;> simp

theorem ofList_entries (l : List (K × V)) :
    (∀ p ∈ (ofList l).entries, p ∈ l) ∧ (ofList l).entries.length ≤ l.length := by
  induction l using List.reverseRecOn with
  | nil => simp [ofList, empty]
  | append_singleton l q ih =>
    have hq : ofList (l ++ [q]) = (ofList l).insert q.1 q.2 := by simp [ofList]
    rw [hq, List.length_append]
    refine ⟨fun p hp => ?_, ?_⟩
    · rcases mem_entries_insert hp with rfl | hp
      · simp
      · exact List.mem_append_left _ (ih.1 p hp)
    · exact Nat.le_trans (length_insertEntry_le q.1 q.2 _) (Nat.succ_le_succ ih.2)

theorem insertEntry_of_lt {k : K} {v : V} {l : List (K × V)} (h : ∀ p ∈ l, k < p.1) :
    insertEntry k v l = l ++ [(k, v)] := by
  induction l with
  | nil => rfl
  | cons q l ih =>
    rw [insertEntry, if_pos (h q (List.mem_cons_self ..)),
      ih fun p hp => h p (List.mem_cons_of_mem _ hp)]
    rfl

theorem ofList_of_decreasing {l : List (K × V)} (h : Decreasing l) : ofList l = ⟨l, h⟩ := by
  induction l using List.reverseRecOn with
  | nil => rfl
  | append_singleton l q ih =>
    obtain ⟨hl, -, hlt⟩ := List.pairwise_append.1 h
    have hq : ofList (l ++ [q]) = (ofList l).insert q.1 q.2 := by simp [ofList]
    have hent : insertEntry q.1 q.2 l = l ++ [q] := insertEntry_of_lt fun p hp => hlt p hp q (by simp)
    rw [hq, ih hl]
    simp only [insert, hent]

@[simp] theorem ofList_entries_self (m : SortedMap K V) : ofList m.entries = m :=
  ofList_of_decreasing m.decreasing

/-! ### The entries up to their order -/

theorem insertEntry_perm {l : List (K × V)} (h : Decreasing l) (k : K) (v : V) :
    (insertEntry k v l).Perm ((k, v) :: l.filter fun p => p.1 ≠ k) := by
  -- the keys behind `k` are smaller, so the filter keeps them
  have hkeep : ∀ {l : List (K × V)}, (∀ p ∈ l, p.1 < k) → l.filter (fun p => p.1 ≠ k) = l :=
    fun hl => List.filter_eq_self.2 fun p hp => by simpa using (hl p hp).ne
  induction l with
  | nil => rfl
  | cons q l ih =>
    obtain ⟨hq, hl⟩ := List.pairwise_cons.1 h
    simp only [insertEntry]
    split
    next hk =>
      rw [List.filter_cons_of_pos (by simpa using hk.ne')]
      exact ((ih hl).cons q).trans (List.Perm.swap ..)
    next hk =>
      split
      next hkq =>
        subst hkq
        rw [List.filter_cons_of_neg (by simp), hkeep hq]
      next hkq =>
        have hlt : q.1 < k := lt_of_le_of_ne (not_lt.1 hk) (Ne.symm hkq)
        rw [hkeep fun p hp => ?_]
        rcases List.mem_cons.1 hp with rfl | hp
        · exact hlt
        · exact (hq p hp).trans hlt

theorem insert_perm (m : SortedMap K V) (k : K) (v : V) :
    (m.insert k v).entries.Perm ((k, v) :: m.entries.filter fun p => p.1 ≠ k) :=
  insertEntry_perm m.decreasing k v

theorem insert_of_find? {m : SortedMap K V} {k : K} {v : V} (h : m.find? k = some v) :
    m.insert k v = m :=
  ext_find fun k' => by
    rw [find?_insert]
    split
    next hk => rw [hk, h]
    next => rfl

theorem perm_of_find? {m : SortedMap K V} {k : K} {v : V} (h : m.find? k = some v) :
    m.entries.Perm ((k, v) :: m.entries.filter fun p => p.1 ≠ k) := by
  simpa only [insert_of_find? h] using m.insert_perm k v

theorem filter_of_find?_none {m : SortedMap K V} {k : K} (h : m.find? k = none) :
    m.entries.filter (fun p => p.1 ≠ k) = m.entries :=
  List.filter_eq_self.2 fun p hp => by
    simp only [ne_eq, decide_not, Bool.not_eq_true', decide_eq_false_iff_not]
    rintro rfl
    rw [find?_eq_some.2 hp] at h
    cases h

end SortedMap
