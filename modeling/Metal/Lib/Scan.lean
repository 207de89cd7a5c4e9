import Mathlib.Algebra.Group.Int.Units
import Mathlib.Data.List.Basic

namespace Metal.Lib

/-! Scanning a list from an index on, as loops over a buffer do. -/

variable {α : Type} {p : α → Bool} {s : List α} {stop i j : Nat}

/-- `while (i < stop && p(s[i])) i++` -/
def skipWhile (p : α → Bool) (s : List α) (stop i : Nat) : Nat :=
  if i < stop ∧ s[i]?.any p then skipWhile p s stop (i + 1) else i
termination_by stop - i

theorem le_skipWhile (p : α → Bool) (s : List α) (stop i : Nat) : i ≤ skipWhile p s stop i := by
  induction i using skipWhile.induct p s stop with
  | case1 i here ih =>
      rw [skipWhile, if_pos here]
      exact Nat.le_of_succ_le ih
  | case2 i fails =>
      exact Nat.le_of_eq (by rw [skipWhile, if_neg fails])

theorem skipWhile_le (inside : i ≤ stop) : skipWhile p s stop i ≤ stop := by
  fun_induction skipWhile p s stop i with
  | case1 i here ih =>
      exact ih here.1
  | case2 i fails =>
      exact inside

theorem skipWhile_skips (from_ : i ≤ j) (before : j < skipWhile p s stop i) :
    s[j]?.any p = true := by
  fun_induction skipWhile p s stop i with
  | case1 i here ih =>
      rcases Nat.eq_or_lt_of_le from_ with rfl | after
      · exact here.2
      · exact ih after before
  | case2 i fails =>
      omega

theorem skipWhile_stops (before : skipWhile p s stop i < stop) :
    s[skipWhile p s stop i]?.any p = false := by
  induction i using skipWhile.induct p s stop with
  | case1 i here ih =>
      rw [skipWhile, if_pos here] at before ⊢
      exact ih before
  | case2 i fails =>
      rw [skipWhile, if_neg fails] at before ⊢
      by_contra holds
      exact fails ⟨before, by simpa using holds⟩

theorem lt_skipWhile (inside : i < stop) (here : s[i]?.any p) : i < skipWhile p s stop i := by
  rw [skipWhile, if_pos ⟨inside, here⟩]
  exact le_skipWhile p s stop (i + 1)

theorem skipWhile_eq {stop' : Nat} (more : stop ≤ stop')
    (ends : stop < stop' → s[stop]?.any p = false) (inside : i ≤ stop) :
    skipWhile p s stop' i = skipWhile p s stop i := by
  induction i using skipWhile.induct p s stop with
  | case1 i here ih =>
      rw [skipWhile, if_pos ⟨Nat.lt_of_lt_of_le here.1 more, here.2⟩, skipWhile.eq_def p s stop i,
        if_pos here]
      exact ih here.1
  | case2 i fails =>
      rw [skipWhile.eq_def p s stop i, if_neg fails, skipWhile, if_neg]
      rintro ⟨before, holds⟩
      rcases Nat.eq_or_lt_of_le inside with rfl | here
      · exact absurd ((ends before).symm.trans holds) nofun
      · exact fails ⟨here, holds⟩

theorem skipWhile_unique (from_ : i ≤ j)
    (passes : ∀ k, i ≤ k → k < j → k < stop ∧ s[k]?.any p = true)
    (ends : ¬ (j < stop ∧ s[j]?.any p = true)) : skipWhile p s stop i = j := by
  fun_induction skipWhile p s stop i with
  | case1 i here ih =>
      have after : i ≠ j := by
        rintro rfl
        exact ends here
      exact ih (Nat.lt_of_le_of_ne from_ after) fun k later => passes k (Nat.le_of_succ_le later)
  | case2 i fails =>
      by_contra other
      exact fails (passes i (Nat.le_refl i) (Nat.lt_of_le_of_ne from_ other))

theorem skipWhile_shift (p : α → Bool) (before s : List α) (stop i : Nat) :
    skipWhile p (before ++ s) (before.length + stop) (before.length + i) =
      before.length + skipWhile p s stop i := by
  induction i using skipWhile.induct p s stop with
  | case1 i here ih =>
      rw [skipWhile.eq_def p s, if_pos here, skipWhile, if_pos, Nat.add_assoc, ih]
      rw [List.getElem?_append_right (Nat.le_add_right _ _), Nat.add_sub_cancel_left]
      exact ⟨Nat.add_lt_add_left here.1 _, here.2⟩
  | case2 i fails =>
      rw [skipWhile.eq_def p s, if_neg fails, skipWhile, if_neg]
      rw [List.getElem?_append_right (Nat.le_add_right _ _), Nat.add_sub_cancel_left]
      exact fun here => fails ⟨Nat.lt_of_add_lt_add_left here.1, here.2⟩

theorem skipWhile_until {shared rest rest' : List α} (inside : stop ≤ shared.length) :
    skipWhile p (shared ++ rest') stop i = skipWhile p (shared ++ rest) stop i := by
  induction i using skipWhile.induct p (shared ++ rest) stop with
  | case1 i here ih =>
      have within := Nat.lt_of_lt_of_le here.1 inside
      rw [skipWhile, skipWhile.eq_def p (shared ++ rest), if_pos here, if_pos, ih]
      rw [List.getElem?_append_left within] at here ⊢
      exact here
  | case2 i fails =>
      rw [skipWhile, skipWhile.eq_def p (shared ++ rest), if_neg fails, if_neg]
      rintro here
      have within := Nat.lt_of_lt_of_le here.1 inside
      rw [List.getElem?_append_left within] at here fails
      exact fails here

theorem skipWhile_within {shared rest rest' : List α} {stop' : Nat}
    (before : skipWhile p (shared ++ rest) stop i < shared.length)
    (stops : shared.length ≤ stop) (stops' : shared.length ≤ stop') :
    skipWhile p (shared ++ rest') stop' i = skipWhile p (shared ++ rest) stop i := by
  have same (k : Nat) (inside : k < shared.length) :
      (shared ++ rest')[k]? = (shared ++ rest)[k]? := by
    rw [List.getElem?_append_left inside, List.getElem?_append_left inside]
  refine skipWhile_unique (le_skipWhile _ _ _ _) (fun k from_ passed => ?_) fun here => ?_
  · have inside := Nat.lt_trans passed before
    rw [same k inside]
    exact ⟨Nat.lt_of_lt_of_le inside stops', skipWhile_skips from_ passed⟩
  · rw [same _ before] at here
    have fails := skipWhile_stops (Nat.lt_of_lt_of_le before stops)
    exact absurd (fails.symm.trans here.2) nofun

end Metal.Lib
