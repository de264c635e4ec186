import YCollab.Yata.Converge

/-!
# Runs of elements

An author who inserts several elements in one go inserts each of them after the one before: a
*run* (`Ops.Follows`). An implementation keeps a run as one block and scans block by block. The scan
treats the elements of a run alike: the first one decides, and the others stay with it
(`scan_run_done`, `scan_run_pass`). A run that is inserted stays together (`insertAll_run`).
-/

namespace Yata

namespace Ops

variable {ι κ : Type*} [DecidableEq ι] [LinearOrder κ] (I : Ops ι κ)

/-- `ys` was inserted in one go after `z`: each element after the one before. -/
def Follows : ι → List ι → Prop
  | _, [] => True
  | z, y :: ys => I.origin y = some z ∧ Follows y ys

variable {I} {x z : ι} {done pass ys rest w : List ι}

theorem scan_run_done (h : I.Follows z ys) (hz : z ∈ done)
    (ho : ∀ y ∈ z :: ys, I.origin x ≠ some y) (hr : ∀ y ∈ ys, I.right x ≠ some y) :
    I.scan x done [] (ys ++ rest) = I.scan x (done ++ ys) [] rest := by
  induction ys generalizing z done with
  | nil => simp
  | cons y ys ih =>
    have hne : I.origin y ≠ I.origin x := by
      rw [h.1]
      exact (ho z (List.mem_cons_self ..)).symm
    rw [List.cons_append, scan, if_neg (hr y (List.mem_cons_self ..)), if_neg hne]
    simp only [h.1, List.not_mem_nil, if_false, hz, if_true, List.append_nil]
    rw [ih h.2 (by simp) (fun a ha => ho a (List.mem_cons_of_mem _ ha))
      fun a ha => hr a (List.mem_cons_of_mem _ ha)]
    simp

theorem scan_run_pass (h : I.Follows z ys) (hz : z ∈ pass)
    (ho : ∀ y ∈ z :: ys, I.origin x ≠ some y) (hr : ∀ y ∈ ys, I.right x ≠ some y) :
    I.scan x done pass (ys ++ rest) = I.scan x done (pass ++ ys) rest := by
  induction ys generalizing z pass with
  | nil => simp
  | cons y ys ih =>
    have hne : I.origin y ≠ I.origin x := by
      rw [h.1]
      exact (ho z (List.mem_cons_self ..)).symm
    rw [List.cons_append, scan, if_neg (hr y (List.mem_cons_self ..)), if_neg hne]
    simp only [h.1, hz, if_true]
    rw [ih h.2 (by simp) (fun a ha => ho a (List.mem_cons_of_mem _ ha))
      fun a ha => hr a (List.mem_cons_of_mem _ ha)]
    simp

theorem cut_some {A F : List ι} (hz : z ∉ A) : cut (A ++ z :: F) (some z) = (A ++ [z], F) := by
  have hA : ∀ a ∈ A, decide (a ≠ z) = true := fun a ha => by
    simpa using fun h : a = z => hz (h ▸ ha)
  rw [cut, List.takeWhile_append_of_pos hA, List.dropWhile_append_of_pos hA]
  simp

theorem insert_after {A F : List ι} (hx : I.origin x = some z) (hz : z ∉ A)
    (hF : ∀ f, F.head? = some f → I.origin f ≠ some z) :
    I.insert (A ++ z :: F) x = A ++ z :: x :: F := by
  have hscan : I.scan x [] [] F = ([], F) := by
    cases F with
    | nil => rfl
    | cons f F =>
      have hne : I.origin f ≠ I.origin x := by
        rw [hx]
        exact hF f rfl
      by_cases hr : I.right x = some f
      · rw [scan, if_pos hr, List.nil_append]
      · rw [scan, if_neg hr, if_neg hne]
        split <;> simp
  rw [insert, hx, cut_some hz]
  simp [hscan]

theorem insertAll_run {U V : List ι} (hx : I.insertAll (w ++ [x]) = U ++ x :: V)
    (hn : (U ++ x :: ys ++ V).Nodup) (hf : I.Follows x ys)
    (hV : ∀ v ∈ V, ∀ y ∈ x :: ys, I.origin v ≠ some y) :
    I.insertAll (w ++ x :: ys) = U ++ x :: ys ++ V := by
  induction ys generalizing w x U with
  | nil => simpa using hx
  | cons y ys ih =>
    have hxU : x ∉ U := fun hm => by
      have := (List.nodup_append.1 (List.nodup_append.1 hn).1).2.2 x hm x (by simp)
      exact this rfl
    have hy : I.insertAll ((w ++ [x]) ++ [y]) = (U ++ [x]) ++ y :: V := by
      rw [insertAll_snoc, hx, insert_after hf.1 hxU fun f hf =>
        hV f (List.mem_of_head? hf) x (by simp)]
      simp
    have := ih hy (by simpa using hn) hf.2
      fun v hv a ha => hV v hv a (List.mem_cons_of_mem _ ha)
    simpa using this

theorem insert_adjacent {A B : List ι} (hn : (A ++ B).Nodup) (hA : A.getLast? = I.origin x)
    (hB : B.head? = I.right x) : I.insert (A ++ B) x = A ++ x :: B := by
  have hscan : I.scan x [] [] B = ([], B) := by
    cases B with
    | nil => rfl
    | cons b B =>
      rw [List.head?_cons] at hB
      rw [scan, if_pos hB.symm, List.nil_append]
  have hcut : cut (A ++ B) (I.origin x) = (A, B) := by
    rw [← hA]
    cases A using List.reverseRecOn with
    | nil => rfl
    | append_singleton A z =>
      have hz : z ∉ A := fun hm => by
        have := (List.nodup_append.1 (List.nodup_append.1 hn).1).2.2 z hm z (by simp)
        exact this rfl
      rw [List.getLast?_concat, List.append_assoc, List.singleton_append, cut_some hz]
  rw [insert, hcut]
  simp [hscan]

theorem insertAll_run_adjacent {A B : List ι} (hL : I.insertAll w = A ++ B)
    (hA : A.getLast? = I.origin x) (hB : B.head? = I.right x)
    (hn : (A ++ x :: ys ++ B).Nodup) (hf : I.Follows x ys)
    (hV : ∀ v ∈ B, ∀ y ∈ x :: ys, I.origin v ≠ some y) :
    I.insertAll (w ++ x :: ys) = A ++ x :: ys ++ B := by
  refine insertAll_run ?_ hn hf hV
  rw [insertAll_snoc, hL]
  refine insert_adjacent (hn.sublist ?_) hA hB
  exact (List.sublist_append_left A (x :: ys)).append (List.Sublist.refl B)

end Ops

end Yata
