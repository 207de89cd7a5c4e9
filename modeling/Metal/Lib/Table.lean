import Mathlib.Algebra.Group.Int.Units
import Mathlib.Data.List.Perm.Basic

namespace Metal.Lib

open scoped List

/-! Tables kept in the first entries of an array: a row is looked for from the
front, and a removed row's place is taken by the last one. -/

variable {α : Type}

def modifyFirst (wanted : α → Bool) (change : α → α) : List α → Option (α × List α)
  | [] => none
  | x :: l =>
      if wanted x then some (change x, change x :: l)
      else (modifyFirst wanted change l).map fun (y, l) => (y, x :: l)

/-- The last row takes the place of row `i`. -/
def swapRemove (l : List α) (i : Nat) : List α :=
  match l.getLast? with
  | none => []
  | some last => (l.set i last).dropLast

/-- Every dead row from `i` on is removed, and its place looked at again. What
is left, and the removed rows in order; each step leaves fewer to look at. -/
def sweep (dead : α → Bool) : Nat → Nat → List α → List α × List α
  | 0, _, l => (l, [])
  | fuel + 1, i, l =>
      match l[i]? with
      | none => (l, [])
      | some x =>
          if dead x then
            let (kept, gone) := sweep dead fuel i (swapRemove l i)
            (kept, x :: gone)
          else
            sweep dead fuel (i + 1) l

theorem modifyFirst_cases (wanted : α → Bool) (change : α → α) (l : List α) :
    modifyFirst wanted change l = none ∧ (∀ x ∈ l, wanted x = false) ∨
      ∃ before x after, l = before ++ x :: after ∧ wanted x = true ∧
        (∀ y ∈ before, wanted y = false) ∧
        modifyFirst wanted change l =
          some (change x, before ++ change x :: after) := by
  induction l with
  | nil => exact .inl ⟨rfl, by simp⟩
  | cons head rest ih =>
      cases here : wanted head with
      | true =>
          refine .inr ⟨[], head, rest, rfl, here, by simp, ?_⟩
          rw [modifyFirst, if_pos here]
          rfl
      | false =>
          have step : modifyFirst wanted change (head :: rest) =
              (modifyFirst wanted change rest).map fun (y, l) => (y, head :: l) := by
            rw [modifyFirst, if_neg (by simp [here])]
          rcases ih with
            ⟨missed, absent⟩ | ⟨before, x, after, split, found, earlier, hit⟩
          · refine .inl ⟨by rw [step, missed]; rfl, ?_⟩
            exact List.forall_mem_cons.mpr ⟨here, absent⟩
          · refine .inr ⟨head :: before, x, after, by rw [split]; rfl, found,
              List.forall_mem_cons.mpr ⟨here, earlier⟩, ?_⟩
            rw [step, hit]
            rfl

theorem swapRemove_append (before : List α) (x : α) (after : List α) :
    ∃ after', swapRemove (before ++ x :: after) before.length = before ++ after' ∧
      after'.Perm after := by
  rcases List.eq_nil_or_concat after with rfl | ⟨middle, last, rfl⟩
  · refine ⟨[], ?_, .refl _⟩
    simp [swapRemove]
  · refine ⟨last :: middle, ?_, ?_⟩
    · have shape : before ++ x :: middle.concat last = (before ++ x :: middle) ++ [last] := by
        simp
      have cut : ((last :: middle) ++ [last]).dropLast = last :: middle :=
        List.dropLast_concat
      rw [swapRemove, shape, List.getLast?_append]
      simpa using cut
    · rw [List.concat_eq_append]
      exact (List.perm_append_singleton last middle).symm

theorem swapRemove_perm {l : List α} {i : Nat} (below : i < l.length) :
    (l[i] :: swapRemove l i).Perm l := by
  have split : l = l.take i ++ l[i] :: l.drop (i + 1) := by
    rw [← List.drop_eq_getElem_cons below, List.take_append_drop]
  have position : (l.take i).length = i := List.length_take_of_le (Nat.le_of_lt below)
  obtain ⟨after, removed, moved⟩ :=
    swapRemove_append (l.take i) l[i] (l.drop (i + 1))
  rw [← split, position] at removed
  rw [removed]
  calc
    l[i] :: (l.take i ++ after)
    _ ~ l[i] :: (l.take i ++ l.drop (i + 1)) := (moved.append_left _).cons _
    _ ~ l.take i ++ l[i] :: l.drop (i + 1) := List.perm_middle.symm
    _ = l := split.symm

theorem sweep_append (dead : α → Bool) {fuel : Nat} (before : List α) {rest : List α}
    (enough : rest.length ≤ fuel) :
    ∃ kept gone, sweep dead fuel before.length (before ++ rest) = (before ++ kept, gone) ∧
      kept.Perm (rest.filter fun x => !dead x) ∧ gone.Perm (rest.filter dead) := by
  induction fuel generalizing before rest with
  | zero =>
      obtain rfl := List.length_eq_zero_iff.mp (Nat.le_zero.mp enough)
      exact ⟨[], [], rfl, .refl _, .refl _⟩
  | succ fuel ih =>
      cases rest with
      | nil =>
          refine ⟨[], [], ?_, .refl _, .refl _⟩
          simp [sweep]
      | cons x after =>
          have here : (before ++ x :: after)[before.length]? = some x := by simp
          rw [sweep, here]
          dsimp only
          cases isDead : dead x with
          | true =>
              obtain ⟨after', removed, moved⟩ := swapRemove_append before x after
              have shorter : after'.length ≤ fuel := by
                rw [moved.length_eq]
                exact Nat.le_of_succ_le_succ enough
              obtain ⟨kept, gone, swept, keptPerm, gonePerm⟩ :=
                ih before shorter
              rw [removed, swept]
              refine ⟨kept, x :: gone, rfl, ?_, ?_⟩
              · rw [List.filter_cons_of_neg (by simp [isDead])]
                exact keptPerm.trans (moved.filter _)
              · rw [List.filter_cons_of_pos isDead]
                exact (gonePerm.trans (moved.filter _)).cons x
          | false =>
              have length : before.length + 1 = (before ++ [x]).length := by simp
              have shape : before ++ x :: after = (before ++ [x]) ++ after := by simp
              obtain ⟨kept, gone, swept, keptPerm, gonePerm⟩ :=
                ih (before ++ [x]) (Nat.le_of_succ_le_succ enough)
              rw [length, shape, swept]
              refine ⟨x :: kept, gone, by simp, ?_, ?_⟩
              · rw [List.filter_cons_of_pos (by simp [isDead])]
                exact keptPerm.cons x
              · rw [List.filter_cons_of_neg (by simp [isDead])]
                exact gonePerm

theorem sweep_perm (dead : α → Bool) (l : List α) :
    (sweep dead l.length 0 l).1.Perm (l.filter fun x => !dead x) ∧
      (sweep dead l.length 0 l).2.Perm (l.filter dead) := by
  obtain ⟨kept, gone, swept, keptPerm, gonePerm⟩ :=
    sweep_append dead [] (Nat.le_refl l.length)
  rw [List.length_nil, List.nil_append, List.nil_append] at swept
  rw [swept]
  exact ⟨keptPerm, gonePerm⟩

end Metal.Lib
