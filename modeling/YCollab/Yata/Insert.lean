import YCollab.Yata.Siblings

/-!
# Inserting into a list by scanning the conflicting range

`Ops.insert` puts a new element into a list by the YATA rule: starting after the origin, it
walks to the right over the elements that were inserted after the same origin, or after an
element already walked over, and decides on the way which of them stay to the left.  Two sets
carry the decision: the elements that are settled to the left (`done`) and the ones that are
not (`pass`).

* `Nested` : between an element and its origin there are only elements whose origin lies in
  that stretch too, so that origins nest like brackets.
* `Nested.eq_of_sibs` : a nested list is determined by the order of its siblings.
* `Inv.insert` : inserting keeps lists nested and siblings ordered by client, and
  places the new element among its siblings as `Placed` says (`insert_placed`).
* `insert_comm` : two insertions by different clients can be made in either order.
-/

namespace Yata

namespace Ops

section Defs

variable {ι κ : Type*} [DecidableEq ι] [LinearOrder κ] (I : Ops ι κ)

/-- The scan for the place of `x`.  `done` is settled to its left, `pass` has been walked over
since, `rest` is still to come; the result is what stays left and what stays right of `x`. -/
def scan (x : ι) : List ι → List ι → List ι → List ι × List ι
  | done, pass, [] => (done, pass)
  | done, pass, z :: rest =>
    if I.right x = some z then (done, pass ++ z :: rest)
    else if I.origin z = I.origin x then
      if I.client z < I.client x then scan x (done ++ pass ++ [z]) [] rest
      else if I.right z = I.right x then (done, pass ++ z :: rest)
      else scan x done (pass ++ [z]) rest
    else match I.origin z with
      | none => (done, pass ++ z :: rest)
      | some p =>
        if p ∈ pass then scan x done (pass ++ [z]) rest
        else if p ∈ done then scan x (done ++ pass ++ [z]) [] rest
        else (done, pass ++ z :: rest)

/-- What `L` shows up to the origin `o`, and what it shows after it. -/
def cut (L : List ι) : Option ι → List ι × List ι
  | none => ([], L)
  | some o => (L.takeWhile (· ≠ o) ++ [o], (L.dropWhile (· ≠ o)).tail)

/-- Insert `x` into `L`. -/
def insert (L : List ι) (x : ι) : List ι :=
  let c := cut L (I.origin x)
  let r := I.scan x [] [] c.2
  c.1 ++ r.1 ++ x :: r.2

/-- Insert a sequence of elements into the empty list. -/
def insertAll (w : List ι) : List ι := w.foldl I.insert []

/-- The elements inserted after `o`, in the order of `L`. -/
def sibs (L : List ι) (o : Option ι) : List ι := L.filter fun z => decide (I.origin z = o)

/-- Origins nest: an element is shown after its origin, and what is shown in between was
inserted after something shown from that origin on. -/
def Nested (L : List ι) : Prop :=
  ∀ z p, z ∈ L → I.origin z = some p → Before L p z ∧
    ∀ y, Before L p y → Before L y z → ∃ q, I.origin y = some q ∧ (q = p ∨ Before L p q)

/-- The lists insertion works on. -/
structure Inv (L : List ι) : Prop where
  nodup : L.Nodup
  nested : I.Nested L
  ordered : ∀ o, I.ClientOrdered (I.sibs L o)

/-- The right neighbour of `x` is a sibling of `x`, or was inserted after something shown
before the origin of `x`. -/
def RightOk (L : List ι) (x : ι) : Prop :=
  ∀ t, I.right x = some t → I.origin t = I.origin x ∨
    ∃ o, I.origin x = some o ∧ ∀ p, I.origin t = some p → Before L p o

/-- `x` can be inserted into `L`. -/
structure Insertable (L : List ι) (x : ι) : Prop where
  fresh : x ∉ L
  origin_mem : ∀ o, I.origin x = some o → o ∈ L
  right_mem : ∀ t, I.right x = some t → t ∈ L
  rightOk : I.RightOk L x

end Defs

variable {ι κ : Type*} {I : Ops ι κ} {L L' : List ι} {x : ι}

/-! ### A nested list is determined by its siblings -/

section Nested

theorem Nested.origin_mem_of_append {A X : List ι} {z p : ι} (h : I.Nested (A ++ z :: X))
    (hn : (A ++ z :: X).Nodup) (hz : I.origin z = some p) : p ∈ A := by
  have hb := (h z p (by simp) hz).1
  have hzA : z ∉ A ++ X := fun hm => (List.nodup_cons.1 (List.nodup_middle.1 hn)).1 hm
  exact (before_insert_left hzA).1 hb

/-- At the first place where two nested lists differ, the one whose element has the later
origin breaks the nesting of the other. -/
theorem Nested.not_before_origin {A X Y : List ι} {z z' p : ι}
    (h : I.Nested (A ++ z :: X)) (h' : I.Nested (A ++ z' :: Y))
    (hn : (A ++ z :: X).Nodup) (hn' : (A ++ z' :: Y).Nodup) (hz : z ∈ Y)
    (hp : I.origin z = some p) :
    ∃ q, I.origin z' = some q ∧ (q = p ∨ Before A p q) := by
  have hpA := h.origin_mem_of_append hn hp
  have hb1 : Before (A ++ z' :: Y) p z' := by
    exact before_of_mem hpA List.mem_cons_self
  have hb2 : Before (A ++ z' :: Y) z' z := by
    exact Before.append_right (.inl ⟨rfl, hz⟩)
  obtain ⟨q, hq, hqp⟩ := (h' z p (by simp [hz]) hp).2 z' hb1 hb2
  refine ⟨q, hq, hqp.imp id fun hb => ?_⟩
  have hqA := h'.origin_mem_of_append hn' hq
  have hqY : q ∉ z' :: Y := fun hm => (List.nodup_append.1 hn').2.2 q hqA q hm rfl
  rcases before_append.1 hb with hb | ⟨-, hb⟩ | hb
  · exact hb
  · exact absurd hb hqY
  · exact absurd hb.mem_right hqY

variable [DecidableEq ι]

theorem mem_sibs {o : Option ι} {z : ι} : z ∈ I.sibs L o ↔ z ∈ L ∧ I.origin z = o := by
  simp [sibs]

theorem before_sibs {o : Option ι} {a b : ι} :
    Before (I.sibs L o) a b ↔ Before L a b ∧ I.origin a = o ∧ I.origin b = o := by
  simp [sibs, Before.filter]

theorem sibs_append {U V : List ι} {o : Option ι} :
    I.sibs (U ++ V) o = I.sibs U o ++ I.sibs V o := by
  simp [sibs]

theorem Nested.eq_of_sibs_aux : ∀ {X Y A : List ι}, I.Nested (A ++ X) → I.Nested (A ++ Y) →
    (A ++ X).Nodup → (A ++ Y).Nodup → (∀ a, a ∈ X ↔ a ∈ Y) →
    (∀ o, I.sibs (A ++ X) o = I.sibs (A ++ Y) o) → X = Y
  | [], [], _, _, _, _, _, _, _ => rfl
  | [], c :: Y, _, _, _, _, _, hm, _ => absurd ((hm c).2 List.mem_cons_self) (by simp)
  | c :: X, [], _, _, _, _, _, hm, _ => absurd ((hm c).1 List.mem_cons_self) (by simp)
  | z :: X, z' :: Y, A, h, h', hn, hn', hm, hs => by
    have hzz : z = z' := by
      by_contra hne
      have hzY : z ∈ Y := (List.mem_cons.1 ((hm z).1 List.mem_cons_self)).resolve_left hne
      have hzX : z' ∈ X :=
        (List.mem_cons.1 ((hm z').2 List.mem_cons_self)).resolve_left (Ne.symm hne)
      have ho : I.origin z = I.origin z' := by
        -- whichever of the two origins is later, the other list is not nested
        have hA : A.Nodup := (List.nodup_append.1 hn).1
        cases hp : I.origin z with
        | none =>
          cases hq : I.origin z' with
          | none => rfl
          | some q =>
            obtain ⟨p, hp', -⟩ := h'.not_before_origin h hn' hn hzX hq
            rw [hp] at hp'; cases hp'
        | some p =>
          obtain ⟨q, hq, hqp⟩ := h.not_before_origin h' hn hn' hzY hp
          obtain ⟨p', hp', hpq⟩ := h'.not_before_origin h hn' hn hzX hq
          rw [hp] at hp'; cases hp'
          rw [hq]
          rcases hqp with rfl | hb
          · rfl
          · rcases hpq with rfl | hb'
            · rfl
            · exact absurd hb' (hb.asymm hA)
      have hsib := hs (I.origin z)
      rw [sibs_append, sibs_append, List.append_cancel_left_eq] at hsib
      simp only [sibs, List.filter_cons, decide_true, ho, ↓reduceIte, List.cons.injEq] at hsib
      exact hne hsib.1
    subst hzz
    have hzX : z ∉ X := (List.nodup_cons.1 (List.nodup_append.1 hn).2.1).1
    have hzY : z ∉ Y := (List.nodup_cons.1 (List.nodup_append.1 hn').2.1).1
    have hm' : ∀ a, a ∈ X ↔ a ∈ Y := by
      intro a
      have := hm a
      simp only [List.mem_cons] at this
      constructor
      · intro ha; exact (this.1 (.inr ha)).resolve_left (by rintro rfl; exact hzX ha)
      · intro ha; exact (this.2 (.inr ha)).resolve_left (by rintro rfl; exact hzY ha)
    rw [List.append_cons] at h h' hn hn'
    have := eq_of_sibs_aux (A := A ++ [z]) h h' hn hn' hm'
      fun o => by simpa using hs o
    rw [this]

/-- **A nested list is determined by its elements and the order of its siblings.** -/
theorem Nested.eq_of_sibs (h : I.Nested L) (h' : I.Nested L') (hn : L.Nodup) (hn' : L'.Nodup)
    (hm : ∀ a, a ∈ L ↔ a ∈ L') (hs : ∀ o, I.sibs L o = I.sibs L' o) : L = L' :=
  Nested.eq_of_sibs_aux (A := []) h h' hn hn' hm hs

end Nested

/-- Inserting `x` between `U` and `V` keeps the list nested when everything between the origin
of `x` and `x` was inserted after that origin, and nothing to the right of `x` was inserted
after something between them. -/
theorem Nested.insert {U V : List ι} (h : I.Nested (U ++ V)) (hn : (U ++ V).Nodup)
    (hx : x ∉ U ++ V)
    (h1 : ∀ o, I.origin x = some o → o ∈ U ∧
      ∀ y, Before U o y → ∃ q, I.origin y = some q ∧ (q = o ∨ Before U o q))
    (h2 : ∀ z p, z ∈ V → I.origin z = some p → p ∈ U →
      ∃ o, I.origin x = some o ∧ (o = p ∨ Before U p o)) :
    I.Nested (U ++ x :: V) := by
  have hne : ∀ {a}, a ∈ U ++ V → a ≠ x := fun ha => by rintro rfl; exact hx ha
  have hxo : ∀ {y q}, y ∈ U ++ V → I.origin y = some q → q ≠ x := by
    intro y q hy hq
    exact hne (h y q hy hq).1.mem_left
  have hdisj : ∀ {a}, a ∈ U → a ∉ V := fun ha hb => (List.nodup_append.1 hn).2.2 _ ha _ hb rfl
  intro z p hz hp
  by_cases hzx : z = x
  · subst hzx
    obtain ⟨hpU, hbetween⟩ := h1 p hp
    refine ⟨(before_insert_left hx).2 hpU, fun y hpy hyz => ?_⟩
    have hyU : y ∈ U := (before_insert_left hx).1 hyz
    have hpy' : Before U p y := by
      rw [before_insert_iff (hne (by simp [hpU])) (hne (by simp [hyU]))] at hpy
      rcases before_append.1 hpy with hb | ⟨-, hb⟩ | hb
      · exact hb
      · exact absurd hb (hdisj hyU)
      · exact absurd hb.mem_right (hdisj hyU)
    obtain ⟨q, hq, hqp⟩ := hbetween y hpy'
    exact ⟨q, hq, hqp.imp id fun hb => hb.append_left⟩
  · have hz' : z ∈ U ++ V := by
      simp only [List.mem_append, List.mem_cons] at hz ⊢; tauto
    obtain ⟨hpz, hbetween⟩ := h z p hz' hp
    refine ⟨hpz.insert, fun y hpy hyz => ?_⟩
    by_cases hyx : y = x
    · subst hyx
      have hpU : p ∈ U := (before_insert_left hx).1 hpy
      have hzV : z ∈ V := (before_insert_right hx).1 hyz
      obtain ⟨o, ho, hop⟩ := h2 z p hzV hp hpU
      exact ⟨o, ho, hop.imp id fun hb => hb.append_left⟩
    · have hpx : p ≠ x := hne hpz.mem_left
      obtain ⟨q, hq, hqp⟩ := hbetween y ((before_insert_iff hpx hyx).1 hpy)
        ((before_insert_iff hyx hzx).1 hyz)
      exact ⟨q, hq, hqp.imp id fun hb => hb.insert⟩

/-! ### What the scan decides -/

section Scan

variable [LinearOrder κ]

variable (I) in
/-- What holds while the scan for `x` runs. -/
structure ScanInv (x : ι) (done pass : List ι) : Prop where
  done_origin : ∀ y ∈ done, I.origin y = I.origin x ∨ ∃ q ∈ done, I.origin y = some q
  pass_origin : ∀ y ∈ pass, I.origin y = I.origin x ∨ ∃ q ∈ pass, I.origin y = some q
  pass_client : ∀ y ∈ pass, I.origin y = I.origin x → ¬ I.client y < I.client x
  pass_head : ∀ s P, pass = s :: P → I.origin s = I.origin x
  done_last : ∀ y ∈ done, I.origin y = I.origin x →
    ∃ s ∈ done, I.origin s = I.origin x ∧ I.client s < I.client x ∧ (y = s ∨ Before done y s)
  right_not_mem : ∀ t, I.right x = some t → t ∉ done

variable (I) in
/-- Why the scan for `x` stops in front of `rest`. -/
def Stop (x : ι) (done pass rest : List ι) : Prop :=
  rest = [] ∨ ∃ e R, rest = e :: R ∧ (I.right x = some e ∨
    (I.origin e = I.origin x ∧ ¬ I.client e < I.client x ∧ I.right e = I.right x) ∨
    (I.origin e ≠ I.origin x ∧ ∀ p, I.origin e = some p → p ∉ done ∧ p ∉ pass))

/-- A sibling that stays left takes everything walked over so far with it. -/
theorem ScanInv.settle_sibling {done pass : List ι} {z : ι} (h : I.ScanInv x done pass)
    (hz : I.origin z = I.origin x) (hc : I.client z < I.client x)
    (hr : ∀ t, I.right x = some t → t ∉ pass ∧ t ≠ z) :
    I.ScanInv x (done ++ pass ++ [z]) [] where
  done_origin := by
    intro y hy
    simp only [List.mem_append, List.mem_singleton] at hy ⊢
    rcases hy with (hy | hy) | rfl
    · exact (h.done_origin y hy).imp id fun ⟨q, hq, e⟩ => ⟨q, .inl (.inl hq), e⟩
    · exact (h.pass_origin y hy).imp id fun ⟨q, hq, e⟩ => ⟨q, .inl (.inr hq), e⟩
    · exact .inl hz
  pass_origin := by simp
  pass_client := by simp
  pass_head := by simp
  done_last := by
    intro y hy _
    refine ⟨z, by simp, hz, hc, ?_⟩
    simp only [List.mem_append, List.mem_singleton] at hy
    rcases hy with hy | rfl
    · exact .inr (before_of_mem (List.mem_append.2 hy) (by simp))
    · exact .inl rfl
  right_not_mem := by
    intro t ht
    have := hr t ht
    have := h.right_not_mem t ht
    simp only [List.mem_append, List.mem_singleton]; tauto

/-- An element inserted after something settled to the left is settled too. -/
theorem ScanInv.settle_descendant {done : List ι} {z p : ι} (h : I.ScanInv x done [])
    (hz : I.origin z ≠ I.origin x) (hp : I.origin z = some p) (hpd : p ∈ done)
    (hr : I.right x ≠ some z) : I.ScanInv x (done ++ [z]) [] where
  done_origin := by
    intro y hy
    simp only [List.mem_append, List.mem_singleton] at hy ⊢
    rcases hy with hy | rfl
    · exact (h.done_origin y hy).imp id fun ⟨q, hq, e⟩ => ⟨q, .inl hq, e⟩
    · exact .inr ⟨p, .inl hpd, hp⟩
  pass_origin := by simp
  pass_client := by simp
  pass_head := by simp
  done_last := by
    intro y hy hyo
    simp only [List.mem_append, List.mem_singleton] at hy
    rcases hy with hy | rfl
    · obtain ⟨s, hs, hso, hsc, hys⟩ := h.done_last y hy hyo
      exact ⟨s, by simp [hs], hso, hsc, hys.imp id fun hb => hb.append_left⟩
    · exact absurd hyo hz
  right_not_mem := by
    intro t ht
    have := h.right_not_mem t ht
    simp only [List.mem_append, List.mem_singleton]
    rintro (h' | rfl)
    · exact this h'
    · exact hr ht

/-- An element that does not move the place of `x` is walked over. -/
theorem ScanInv.walk {done pass : List ι} {z : ι} (h : I.ScanInv x done pass)
    (hz : (I.origin z = I.origin x ∧ ¬ I.client z < I.client x) ∨
      (I.origin z ≠ I.origin x ∧ ∃ p ∈ pass, I.origin z = some p)) :
    I.ScanInv x done (pass ++ [z]) where
  done_origin := h.done_origin
  pass_origin := by
    intro y hy
    simp only [List.mem_append, List.mem_singleton] at hy ⊢
    rcases hy with hy | rfl
    · exact (h.pass_origin y hy).imp id fun ⟨q, hq, e⟩ => ⟨q, .inl hq, e⟩
    · rcases hz with ⟨hz, -⟩ | ⟨-, q, hq, e⟩
      · exact .inl hz
      · exact .inr ⟨q, .inl hq, e⟩
  pass_client := by
    intro y hy hyo
    simp only [List.mem_append, List.mem_singleton] at hy
    rcases hy with hy | rfl
    · exact h.pass_client y hy hyo
    · rcases hz with ⟨-, hc⟩ | ⟨hne, -⟩
      · exact hc
      · exact absurd hyo hne
  pass_head := by
    intro s P he
    cases hp : pass with
    | nil =>
      simp only [hp, List.nil_append, List.cons.injEq] at he
      rcases hz with ⟨hz, -⟩ | ⟨-, q, hq, -⟩
      · rw [← he.1]; exact hz
      · simp [hp] at hq
    | cons s' P' =>
      simp only [hp, List.cons_append, List.cons.injEq] at he
      rw [← he.1]; exact h.pass_head s' P' hp
  done_last := h.done_last
  right_not_mem := h.right_not_mem

/-- The scan keeps its invariant and stops for one of the reasons in `Stop`, provided that no
element is inserted after something to the left of a sibling it follows. -/
theorem scan_spec [DecidableEq ι] {F : List ι}
    (hN : ∀ s z p, Before F s z → I.origin s = I.origin x → I.origin z = some p →
      ¬ Before F p s) :
    ∀ (rest done pass : List ι), done ++ pass ++ rest = F → I.ScanInv x done pass →
      (∀ t, I.right x = some t → t ∉ pass) →
      ∃ done' pass' rest', I.scan x done pass rest = (done', pass' ++ rest') ∧
        done' ++ pass' ++ rest' = F ∧ I.ScanInv x done' pass' ∧ I.Stop x done' pass' rest' := by
  intro rest
  induction rest with
  | nil => intro done pass hF h _; exact ⟨done, pass, [], by simp [scan], hF, h, .inl rfl⟩
  | cons z rest ih =>
    intro done pass hF h hr
    have stop (hst : I.right x = some z ∨
        (I.origin z = I.origin x ∧ ¬ I.client z < I.client x ∧ I.right z = I.right x) ∨
        (I.origin z ≠ I.origin x ∧ ∀ p, I.origin z = some p → p ∉ done ∧ p ∉ pass)) :
        ∃ done' pass' rest', (done, pass ++ z :: rest) = (done', pass' ++ rest') ∧
          done' ++ pass' ++ rest' = F ∧ I.ScanInv x done' pass' ∧ I.Stop x done' pass' rest' :=
      ⟨done, pass, z :: rest, rfl, hF, h, .inr ⟨z, rest, rfl, hst⟩⟩
    rw [scan]
    split_ifs with hright ho hc hsame
    · exact stop (.inl hright)
    · refine ih _ _ (by simpa using hF) (h.settle_sibling ho hc fun t ht => ⟨hr t ht, ?_⟩) (by simp)
      rintro rfl; exact hright ht
    · exact stop (.inr (.inl ⟨ho, hc, hsame⟩))
    · refine ih _ _ (by simpa using hF) (h.walk (.inl ⟨ho, hc⟩)) fun t ht => ?_
      have := hr t ht
      simp only [List.mem_append, List.mem_singleton]
      rintro (h' | rfl)
      · exact this h'
      · exact hright ht
    · cases hp : I.origin z with
      | none => exact stop (.inr (.inr ⟨ho, fun p hp' => by rw [hp] at hp'; cases hp'⟩))
      | some p =>
        simp only
        split_ifs with hpp hpd
        · refine ih _ _ (by simpa using hF) (h.walk (.inr ⟨ho, p, hpp, hp⟩)) fun t ht => ?_
          have := hr t ht
          simp only [List.mem_append, List.mem_singleton]
          rintro (h' | rfl)
          · exact this h'
          · exact hright ht
        · -- nothing can have been walked over: its first element would be a sibling in between
          have hpass : pass = [] := by
            cases hps : pass with
            | nil => rfl
            | cons s P =>
              refine absurd ?_ (hN s z p ?_ (h.pass_head s P hps) hp)
              · rw [← hF, hps]; exact (before_of_mem hpd (by simp)).append_left
              · rw [← hF, hps]; exact before_of_mem (by simp) (by simp)
          subst hpass
          refine ih _ _ (by simpa using hF) ?_ (by simp)
          simpa using h.settle_descendant ho hp hpd hright
        · exact stop (.inr (.inr ⟨ho, fun q hq => by rw [hp] at hq; cases hq; exact ⟨hpd, hpp⟩⟩))

end Scan

/-! ### Where an insertion goes -/

theorem cut_spec [DecidableEq ι] {o : Option ι} (ho : ∀ a, o = some a → a ∈ L) :
    (cut L o).1 ++ (cut L o).2 = L ∧ (o = none → (cut L o).1 = []) ∧
      ∀ a, o = some a → ∃ A, (cut L o).1 = A ++ [a] := by
  cases o with
  | none => simp [cut]
  | some a =>
    refine ⟨?_, by simp, fun b hb => by cases hb; exact ⟨_, rfl⟩⟩
    have ha := ho a rfl
    clear ho
    induction L with
    | nil => cases ha
    | cons c L ih =>
      by_cases hc : c = a
      · subst hc; simp [cut]
      · have := ih ((List.mem_cons.1 ha).resolve_left (Ne.symm hc))
        simpa [cut, hc] using this

theorem not_before_of_append {U V : List ι} (hn : (U ++ V).Nodup) {a b : ι} (ha : a ∈ V)
    (hb : b ∈ U) : ¬ Before (U ++ V) a b :=
  (before_of_mem hb ha).asymm hn

section Place

variable {C F : List ι}

theorem Nested.sibling_mem (hN : I.Nested (C ++ F)) (hn : (C ++ F).Nodup)
    (hC0 : I.origin x = none → C = []) (hC1 : ∀ o, I.origin x = some o → ∃ A, C = A ++ [o])
    {s : ι} (hs : s ∈ C ++ F) (ho : I.origin s = I.origin x) : s ∈ F := by
  cases hx : I.origin x with
  | none => rw [hC0 hx] at hs; simpa using hs
  | some o =>
    obtain ⟨A, rfl⟩ := hC1 o hx
    rw [hx] at ho
    have hb := (hN s o hs ho).1
    rcases List.mem_append.1 hs with hs | hs
    · rcases List.mem_append.1 hs with hs' | hs'
      · have : Before (A ++ [o] ++ F) s o := (before_of_mem hs' (by simp)).append_left
        exact absurd this (hb.asymm hn)
      · rw [List.mem_singleton.1 hs'] at hb; exact absurd hb (Before.irrefl hn)
    · exact hs

/-- What follows a sibling of `x` was not inserted after something between the origin of `x`
and that sibling. -/
theorem Nested.sibling_separates (hN : I.Nested (C ++ F)) (hn : (C ++ F).Nodup)
    (hC1 : ∀ o, I.origin x = some o → ∃ A, C = A ++ [o]) {s z p : ι} (hsz : Before F s z)
    (hs : I.origin s = I.origin x) (hz : I.origin z = some p) : ¬ Before F p s := by
  intro hps
  obtain ⟨q, hq, hqp⟩ := (hN z p (by simp [hsz.mem_right]) hz).2 s
    hps.append_right hsz.append_right
  rw [hs] at hq
  obtain ⟨A, rfl⟩ := hC1 q hq
  rcases hqp with rfl | hb
  · exact (List.nodup_append.1 hn).2.2 q (by simp) q hps.mem_left rfl
  · exact not_before_of_append hn hps.mem_left (by simp) hb

variable [LinearOrder κ] {done pass rest : List ι}

/-- The element the scan stops at was inserted after the origin of `x` or before it, never
after something settled to the left. -/
theorem Stop.origin_of (hF : done ++ pass ++ rest = F) (hN : I.Nested (C ++ F))
    (hn : (C ++ F).Nodup) (hC0 : I.origin x = none → C = [])
    (hC1 : ∀ o, I.origin x = some o → ∃ A, C = A ++ [o]) (hr : I.RightOk (C ++ F) x)
    {e : ι} {R : List ι} (he : rest = e :: R) (hstop : I.Stop x done pass rest) :
    I.origin e = I.origin x ∨ (I.origin x ≠ none ∧ ∀ q, I.origin e = some q → q ∈ C) := by
  rcases hstop with h | ⟨e', R', h, hst⟩
  · rw [h] at he; cases he
  rw [he] at h
  obtain ⟨rfl, rfl⟩ := List.cons.inj h
  rcases hst with hst | ⟨ho, -, -⟩ | ⟨ho, hout⟩
  · rcases hr e hst with ho | ⟨o, ho, hp⟩
    · exact .inl ho
    · refine .inr ⟨by simp [ho], fun q hq => ?_⟩
      obtain ⟨A, rfl⟩ := hC1 o ho
      by_contra hqC
      have hb := hp q hq
      have hqF : q ∈ F := (List.mem_append.1 hb.mem_left).resolve_left hqC
      exact not_before_of_append hn hqF (by simp) hb
  · exact .inl ho
  · right
    have hin : ∀ q, I.origin e = some q → q ∈ C := by
      intro q hq
      have heF : e ∈ F := by rw [← hF, he]; simp
      have hb := (hN e q (by simp [heF]) hq).1
      obtain ⟨hqd, hqp⟩ := hout q hq
      have hsplit : C ++ F = (C ++ (done ++ pass)) ++ e :: R := by rw [← hF, he]; simp
      rw [hsplit] at hb hn
      have hee : e ∉ (C ++ (done ++ pass)) ++ R := (List.nodup_cons.1 (List.nodup_middle.1 hn)).1
      have := (before_insert_left hee).1 hb
      simp only [List.mem_append] at this; tauto
    refine ⟨fun hx => ?_, hin⟩
    cases hq : I.origin e with
    | none => exact ho (hq.trans hx.symm)
    | some q => have := hin q hq; rw [hC0 hx] at this; cases this

/-- Nothing to the right of the place of `x` was inserted after something between the origin
of `x` and that place. -/
theorem ScanInv.origin_not_mem_done (h : I.ScanInv x done pass) (hF : done ++ pass ++ rest = F)
    (hN : I.Nested (C ++ F)) (hn : (C ++ F).Nodup) (hC0 : I.origin x = none → C = [])
    (hC1 : ∀ o, I.origin x = some o → ∃ A, C = A ++ [o]) (hr : I.RightOk (C ++ F) x)
    (hstop : I.Stop x done pass rest) {z p : ι} (hz : z ∈ pass ++ rest)
    (hp : I.origin z = some p) : p ∉ done := by
  intro hpd
  have hFn := (List.nodup_append.1 hn).2.1
  have hpF : p ∈ F := by rw [← hF]; simp [hpd]
  have hpC : p ∉ C := fun hc => (List.nodup_append.1 hn).2.2 p hc p hpF rfl
  have hxp : I.origin x ≠ some p := fun hx => by
    obtain ⟨A, rfl⟩ := hC1 p hx; exact hpC (by simp)
  have hdp : p ∉ pass := fun hc => by
    rw [← hF] at hFn
    exact (List.nodup_append.1 (List.nodup_append.1 hFn).1).2.2 p hpd p hc rfl
  rcases List.mem_append.1 hz with hz | hz
  · rcases h.pass_origin z hz with ho | ⟨q, hq, ho⟩
    · exact hxp (ho.symm.trans hp)
    · rw [hp] at ho; cases ho; exact hdp hq
  · cases hps : pass with
    | cons s P =>
      -- the first element walked over is a sibling between `p` and `z`
      refine hN.sibling_separates hn hC1 (s := s) (z := z) ?_ (h.pass_head s P hps) hp ?_
      · rw [← hF, hps]; exact before_of_mem (by simp) hz
      · rw [← hF, hps]; exact (before_of_mem hpd (by simp)).append_left
    | nil =>
      cases hre : rest with
      | nil => rw [hre] at hz; cases hz
      | cons e R =>
        have heo := hstop.origin_of hF hN hn hC0 hC1 hr hre
        by_cases hez : z = e
        · subst hez
          rcases heo with ho | ⟨-, hq⟩
          · exact hxp (ho.symm.trans hp)
          · exact hpC (hq p hp)
        · have hzR : z ∈ R := by rw [hre] at hz; exact (List.mem_cons.1 hz).resolve_left hez
          obtain ⟨q, hq, hqp⟩ := (hN z p (by rw [← hF, hre]; simp [hzR]) hp).2 e
            (by rw [← hF, hre]; exact (before_of_mem (by simp [hpd]) (by simp)).append_right)
            (by rw [← hF, hre]; exact Before.append_right (Before.append_right (.inl ⟨rfl, hzR⟩)))
          have hqC : q ∈ C := by
            rcases heo with ho | ⟨-, h'⟩
            · obtain ⟨A, rfl⟩ := hC1 q (ho.symm.trans hq); simp
            · exact h' q hq
          rcases hqp with rfl | hb
          · exact hpC hqC
          · exact not_before_of_append hn hpF hqC hb

/-- The siblings settled to the left of `x` are the ones that stay to its left. -/
theorem ScanInv.mem_iff_low [DecidableEq ι] (h : I.ScanInv x done pass)
    (hF : done ++ pass ++ rest = F)
    (hN : I.Nested (C ++ F)) (hn : (C ++ F).Nodup) (hC0 : I.origin x = none → C = [])
    (hC1 : ∀ o, I.origin x = some o → ∃ A, C = A ++ [o]) (hr : I.RightOk (C ++ F) x)
    (hord : I.ClientOrdered (I.sibs (C ++ F) (I.origin x))) (hstop : I.Stop x done pass rest)
    {s : ι} (hs : s ∈ I.sibs (C ++ F) (I.origin x)) :
    s ∈ C ++ done ↔ I.Low (I.sibs (C ++ F) (I.origin x)) x s := by
  have inF : ∀ {a}, a ∈ I.sibs (C ++ F) (I.origin x) → a ∈ F := fun ha =>
    hN.sibling_mem hn hC0 hC1 (mem_sibs.1 ha).1 (mem_sibs.1 ha).2
  have notC : ∀ {a}, a ∈ F → a ∉ C := fun ha hc => (List.nodup_append.1 hn).2.2 _ hc _ ha rfl
  have hsplit : C ++ F = (C ++ done) ++ (pass ++ rest) := by rw [← hF]; simp
  constructor
  · intro hsd
    have hsd : s ∈ done := (List.mem_append.1 hsd).resolve_left (notC (inF hs))
    obtain ⟨s', hs', hso, hsc, hle⟩ := h.done_last s hsd (mem_sibs.1 hs).2
    have hs'm : s' ∈ I.sibs (C ++ F) (I.origin x) :=
      mem_sibs.2 ⟨by rw [hsplit]; simp [hs'], hso⟩
    refine ⟨s', hs'm, hle.imp id fun hb => ?_, hsc, fun t ht htr => ?_⟩
    · refine before_sibs.2 ⟨?_, (mem_sibs.1 hs).2, hso⟩
      rw [← hF]; exact hb.append_left.append_left.append_right
    · refine before_sibs.2 ⟨?_, hso, (mem_sibs.1 ht).2⟩
      have htd := h.right_not_mem t htr
      have htF : t ∈ pass ++ rest := by
        have := inF ht
        rw [← hF, List.append_assoc] at this
        exact (List.mem_append.1 this).resolve_left htd
      rw [hsplit]; exact before_of_mem (by simp [hs']) htF
  · rintro ⟨s', hs', hle, hc, hseg⟩
    suffices hs'd : s' ∈ C ++ done by
      rcases hle with rfl | hb
      · exact hs'd
      · by_contra hsn
        have hsr : s ∈ pass ++ rest := by
          have := (mem_sibs.1 hs).1
          rw [hsplit] at this
          exact (List.mem_append.1 this).resolve_left hsn
        have hb' := (before_sibs.1 hb).1
        rw [hsplit] at hb' hn
        exact not_before_of_append hn hsr hs'd hb'
    have hs'F := inF hs'
    have hso := (mem_sibs.1 hs').2
    have hs'o := hs'F
    rw [← hF] at hs'o
    simp only [List.mem_append] at hs'o
    rcases hs'o with (hd | hp) | hre
    · exact List.mem_append.2 (.inr hd)
    · exact absurd hc (h.pass_client s' hp hso)
    · -- beyond the stop no sibling has a smaller client and stands before the right neighbour
      exfalso
      rcases hrest : rest with _ | ⟨e, R⟩
      · rw [hrest] at hre; cases hre
      have heo := hstop.origin_of hF hN hn hC0 hC1 hr hrest
      have heF : e ∈ F := by rw [← hF, hrest]; simp
      have hbF : s' ≠ e → Before F e s' := fun hne => by
        rw [hrest] at hre
        have hR := (List.mem_cons.1 hre).resolve_left hne
        rw [← hF, hrest]
        exact Before.append_right (.inl ⟨rfl, hR⟩)
      by_cases ho : I.origin e = I.origin x
      · -- it stops at a sibling
        have hem : e ∈ I.sibs (C ++ F) (I.origin x) := mem_sibs.2 ⟨by simp [heF], ho⟩
        have hes : s' = e ∨ Before (I.sibs (C ++ F) (I.origin x)) e s' := by
          by_cases hne : s' = e
          · exact .inl hne
          · exact .inr (before_sibs.2 ⟨(hbF hne).append_right, ho, hso⟩)
        have hsn : (I.sibs (C ++ F) (I.origin x)).Nodup := hn.filter _
        have hbeyond : ∀ q, (q = s' ∨ Before (I.sibs (C ++ F) (I.origin x)) q s') →
            q ∈ I.sibs (C ++ F) (I.origin x) → I.right x ≠ some q := by
          intro q hqs hq hqr
          have := hseg q hq hqr
          rcases hqs with rfl | hb
          · exact this.irrefl hsn
          · exact this.asymm hsn hb
        rcases hstop with h' | ⟨e', R', h', hst⟩
        · rw [h'] at hrest; cases hrest
        rw [hrest] at h'
        obtain ⟨rfl, rfl⟩ := List.cons.inj h'
        rcases hst with hst | ⟨-, hce, hrr⟩ | ⟨ho', -⟩
        · exact hbeyond e (hes.imp Eq.symm id) hem hst
        · rcases hes with rfl | hb
          · exact hce hc
          · obtain ⟨q, hq, hqr, hqs⟩ := hord e s' hb (hc.trans_le (not_lt.1 hce))
            exact hbeyond q hqs hq (hrr ▸ hqr)
        · exact ho' ho
      · -- it stops outside: a sibling further right would not nest
        obtain ⟨hx, hout⟩ := heo.resolve_left ho
        obtain ⟨o, hxo⟩ := Option.ne_none_iff_exists'.1 hx
        obtain ⟨A, rfl⟩ := hC1 o hxo
        have hne : s' ≠ e := by rintro rfl; exact ho hso
        obtain ⟨q, hq, hqo⟩ := (hN s' o (by simp [hs'F]) (hso.trans hxo)).2 e
          (before_of_mem (by simp) heF)
          (hbF hne).append_right
        have hqA : q ∈ A := by
          have := hout q hq
          simp only [List.mem_append, List.mem_singleton] at this
          exact this.resolve_right (by rintro rfl; exact ho (hq.trans hxo.symm))
        rcases hqo with rfl | hb
        · exact ho (hq.trans hxo.symm)
        · have hqo : Before (A ++ [o] ++ F) q o :=
            (before_of_mem hqA (by simp)).append_left
          exact hqo.asymm hn hb

end Place

variable [DecidableEq ι] [LinearOrder κ]

/-- **Where an insertion goes.**  It keeps the order of what is there, keeps the list nested
and puts the new element at its place among its siblings. -/
theorem insert_spec (h : I.Inv L) (hx : I.Insertable L x) :
    ∃ U V, L = U ++ V ∧ I.insert L x = U ++ x :: V ∧ I.Nested (U ++ x :: V) ∧
      ∀ s ∈ I.sibs L (I.origin x), s ∈ U ↔ I.Low (I.sibs L (I.origin x)) x s := by
  obtain ⟨hL, hC0, hC1⟩ := cut_spec (L := L) (o := I.origin x) hx.origin_mem
  have hins : I.insert L x = (cut L (I.origin x)).1 ++
      (I.scan x [] [] (cut L (I.origin x)).2).1 ++
        x :: (I.scan x [] [] (cut L (I.origin x)).2).2 := rfl
  rw [hins]
  generalize (cut L (I.origin x)).1 = C at hL hC0 hC1 ⊢
  generalize (cut L (I.origin x)).2 = F at hL ⊢
  subst hL
  have hn := h.nodup
  have hN := h.nested
  have hempty : I.ScanInv x [] [] := by constructor <;> simp
  obtain ⟨done, pass, rest, hscan, hF, hinv, hstop⟩ := scan_spec (I := I) (x := x) (F := F)
    (fun s z p hsz hs hz => hN.sibling_separates hn hC1 hsz hs hz) F [] [] rfl hempty (by simp)
  rw [hscan]
  have hsplit : C ++ F = (C ++ done) ++ (pass ++ rest) := by rw [← hF]; simp
  refine ⟨C ++ done, pass ++ rest, hsplit, rfl, ?_, fun s hs => ?_⟩
  · refine Nested.insert (hsplit ▸ hN) (hsplit ▸ hn) (hsplit ▸ hx.fresh) (fun o ho => ?_)
      fun z p hz hp hpU => ?_
    · obtain ⟨A, rfl⟩ := hC1 o ho
      refine ⟨by simp, fun y hy => ?_⟩
      have hyd : y ∈ done := by
        have hn' : (A ++ [o] ++ done).Nodup := by
          rw [hsplit] at hn; exact (List.nodup_append.1 hn).1
        rcases before_append.1 hy with hb | ⟨-, hb⟩ | hb
        · rcases before_append.1 hb with hb | ⟨-, hb⟩ | hb
          · have : o ∉ A := by simp only [List.nodup_append, List.mem_singleton] at hn'; tauto
            exact absurd hb.mem_left this
          · rw [List.mem_singleton.1 hb] at hy; exact absurd hy (Before.irrefl hn')
          · simp [before_cons] at hb
        · exact hb
        · exact hb.mem_right
      rcases hinv.done_origin y hyd with he | ⟨q, hq, he⟩
      · exact ⟨o, he.trans ho, .inl rfl⟩
      · exact ⟨q, he, .inr (before_of_mem (by simp) hq)⟩
    · have hpd := hinv.origin_not_mem_done hF hN hn hC0 hC1 hx.rightOk hstop hz hp
      have hpC : p ∈ C := (List.mem_append.1 hpU).resolve_right hpd
      cases ho : I.origin x with
      | none => rw [hC0 ho] at hpC; cases hpC
      | some o =>
        obtain ⟨A, rfl⟩ := hC1 o ho
        refine ⟨o, rfl, ?_⟩
        rcases List.mem_append.1 hpC with hpA | hpo
        · exact .inr (before_of_mem hpA (by simp)).append_left
        · exact .inl (List.mem_singleton.1 hpo).symm
  · exact hinv.mem_iff_low hF hN hn hC0 hC1 hx.rightOk (h.ordered _) hstop hs

theorem insert_placed (h : I.Inv L) (hx : I.Insertable L x) :
    I.Placed (I.sibs L (I.origin x)) x (I.sibs (I.insert L x) (I.origin x)) := by
  obtain ⟨U, V, rfl, hins, -, hlow⟩ := insert_spec h hx
  refine ⟨fun hm => hx.fresh (mem_sibs.1 hm).1, I.sibs U (I.origin x), I.sibs V (I.origin x),
    sibs_append, ?_, fun s hs => ?_⟩
  · rw [hins, sibs_append]; simp [sibs]
  · rw [← hlow s hs, mem_sibs]
    exact ⟨fun h => h.1, fun h => ⟨h, (mem_sibs.1 hs).2⟩⟩

theorem sibs_insert_of_ne (h : I.Inv L) (hx : I.Insertable L x) {o : Option ι}
    (ho : o ≠ I.origin x) : I.sibs (I.insert L x) o = I.sibs L o := by
  obtain ⟨U, V, rfl, hins, -, -⟩ := insert_spec h hx
  rw [hins, sibs_append, sibs_append]; simp [sibs, ho.symm]

theorem mem_insert (h : I.Inv L) (hx : I.Insertable L x) {a : ι} :
    a ∈ I.insert L x ↔ a = x ∨ a ∈ L := by
  obtain ⟨U, V, rfl, hins, -, -⟩ := insert_spec h hx
  rw [hins]; simp only [List.mem_append, List.mem_cons]; tauto

theorem before_insert (h : I.Inv L) (hx : I.Insertable L x) {a b : ι} (hab : Before L a b) :
    Before (I.insert L x) a b := by
  obtain ⟨U, V, rfl, hins, -, -⟩ := insert_spec h hx
  rw [hins]; exact hab.insert

theorem Inv.insert (h : I.Inv L) (hx : I.Insertable L x) : I.Inv (I.insert L x) where
  nodup := by
    obtain ⟨U, V, rfl, hins, -, -⟩ := insert_spec h hx
    rw [hins]; exact List.nodup_middle.2 (List.nodup_cons.2 ⟨hx.fresh, h.nodup⟩)
  nested := by
    obtain ⟨U, V, -, hins, hN, -⟩ := insert_spec h hx
    rw [hins]; exact hN
  ordered := by
    intro o
    by_cases ho : o = I.origin x
    · subst ho
      exact (insert_placed h hx).clientOrdered (h.nodup.filter _) (h.ordered _)
    · rw [sibs_insert_of_ne h hx ho]; exact h.ordered o

theorem Insertable.insert {y : ι} (h : I.Inv L) (hx : I.Insertable L x) (hy : I.Insertable L y)
    (hne : x ≠ y) : I.Insertable (I.insert L x) y where
  fresh := by rw [mem_insert h hx]; rintro (rfl | hm); exacts [hne rfl, hy.fresh hm]
  origin_mem o ho := (mem_insert h hx).2 (.inr (hy.origin_mem o ho))
  right_mem t ht := (mem_insert h hx).2 (.inr (hy.right_mem t ht))
  rightOk t ht := (hy.rightOk t ht).imp id fun ⟨o, ho, hp⟩ =>
    ⟨o, ho, fun p hpt => before_insert h hx (hp p hpt)⟩

/-- **Insertions by different clients commute**: neither was made against the other, so either
may come first. -/
theorem insert_comm {y : ι} (h : I.Inv L) (hx : I.Insertable L x) (hy : I.Insertable L y)
    (hc : I.client x ≠ I.client y) :
    I.insert (I.insert L x) y = I.insert (I.insert L y) x := by
  have hne : x ≠ y := by rintro rfl; exact hc rfl
  have hxy := Insertable.insert h hx hy hne
  have hyx := Insertable.insert h hy hx hne.symm
  have hix := h.insert hx
  have hiy := h.insert hy
  refine Nested.eq_of_sibs (hix.insert hxy).nested (hiy.insert hyx).nested
    (hix.insert hxy).nodup (hiy.insert hyx).nodup (fun a => ?_) fun o => ?_
  · rw [mem_insert hix hxy, mem_insert h hx, mem_insert hiy hyx, mem_insert h hy]; tauto
  by_cases hox : o = I.origin x
  · by_cases hoy : o = I.origin y
    · have hxp := insert_placed h hx
      have hyp := insert_placed h hy
      have hxyp := insert_placed hix hxy
      have hyxp := insert_placed hiy hyx
      rw [← hox] at hxp hyxp
      rw [← hoy] at hyp hxyp
      exact hxp.comm (h.nodup.filter _) hxyp hyp hyxp hc
        (fun hr => hy.fresh (hx.right_mem y hr)) fun hr => hx.fresh (hy.right_mem x hr)
    · rw [sibs_insert_of_ne hix hxy hoy]
      have hxp := insert_placed h hx
      have hyxp := insert_placed hiy hyx
      rw [← hox] at hxp hyxp
      rw [sibs_insert_of_ne h hy hoy] at hyxp
      exact hxp.unique (h.nodup.filter _) hyxp
  · rw [sibs_insert_of_ne hiy hyx hox]
    by_cases hoy : o = I.origin y
    · have hyp := insert_placed h hy
      have hxyp := insert_placed hix hxy
      rw [← hoy] at hyp hxyp
      rw [sibs_insert_of_ne h hx hox] at hxyp
      exact hxyp.unique (h.nodup.filter _) hyp
    · rw [sibs_insert_of_ne hix hxy hoy, sibs_insert_of_ne h hx hox, sibs_insert_of_ne h hy hoy]

end Ops

end Yata
