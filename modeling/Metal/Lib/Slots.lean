import Mathlib.Algebra.Group.Int.Units
import Mathlib.Data.List.Basic

namespace Metal.Lib

/-! Tables of slots: one slot is changed, the others stay where they are. -/

variable {α : Type} {slots : List α} {i j : Nat} {x new found : α}

theorem modify_eq_set_of (here : slots[i]? = some x) (change : α → α) :
    slots.modify i change = slots.set i (change x) := by
  apply List.ext_getElem?
  intro j
  rw [List.getElem?_modify, List.getElem?_set]
  split
  · rename_i same
    have inside := (List.getElem?_eq_some_iff.mp here).1
    rw [← same, here, if_pos inside]
    rfl
  · cases slots[j]? <;> rfl

theorem set_cases (there : (slots.set i new)[j]? = some found) :
    j = i ∧ found = new ∨ j ≠ i ∧ slots[j]? = some found := by
  rw [List.getElem?_set] at there
  split at there
  · rename_i same
    split at there
    · cases there
      exact .inl ⟨same.symm, rfl⟩
    · cases there
  · rename_i different
    exact .inr ⟨fun same => different same.symm, there⟩

theorem modify_cases {change : α → α} (there : (slots.modify i change)[j]? = some found) :
    (∃ x, slots[i]? = some x ∧ j = i ∧ found = change x) ∨ j ≠ i ∧ slots[j]? = some found := by
  rw [List.getElem?_modify] at there
  cases here : slots[j]? with
  | none =>
      rw [here] at there
      cases there
  | some x =>
      rw [here] at there
      by_cases same : i = j
      · subst same
        simp only [if_true] at there
        cases there
        exact .inl ⟨x, here, rfl, rfl⟩
      · simp only [if_neg same] at there
        cases there
        exact .inr ⟨Ne.symm same, rfl⟩

theorem set_here (here : slots[i]? = some x) (new : α) : (slots.set i new)[i]? = some new := by
  rw [List.getElem?_set_self (List.getElem?_eq_some_iff.mp here).1]

theorem modify_here (here : slots[i]? = some x) (change : α → α) :
    (slots.modify i change)[i]? = some (change x) := by
  rw [modify_eq_set_of here, set_here here]

theorem set_same (here : slots[i]? = some x) : slots.set i x = slots := by
  obtain ⟨inside, at_⟩ := List.getElem?_eq_some_iff.mp here
  rw [← at_, List.set_getElem_self]

theorem set_there (different : j ≠ i) (new : α) : (slots.set i new)[j]? = slots[j]? :=
  List.getElem?_set_ne different.symm

theorem set_kept (there : slots[j]? = some found) (new : α) :
    ∃ now, (slots.set i new)[j]? = some now ∧ (j = i ∧ now = new ∨ j ≠ i ∧ now = found) := by
  by_cases same : j = i
  · obtain rfl := same
    exact ⟨new, set_here there new, .inl ⟨rfl, rfl⟩⟩
  · exact ⟨found, by rw [set_there same, there], .inr ⟨same, rfl⟩⟩

theorem countP_set_add (p : α → Bool) (here : slots[i]? = some x) (new : α) :
    (slots.set i new).countP p + (p x).toNat = slots.countP p + (p new).toNat := by
  obtain ⟨inside, at_⟩ := List.getElem?_eq_some_iff.mp here
  have least : (p x).toNat ≤ slots.countP p := by
    cases holds : p x with
    | false => exact Nat.zero_le _
    | true =>
        exact List.countP_pos_iff.mpr ⟨x, List.mem_of_getElem? here, holds⟩
  have one (b : Bool) : b.toNat = if b = true then 1 else 0 := by cases b <;> rfl
  rw [List.countP_set inside, at_, one, one]
  rw [one] at least
  omega

theorem append_cases (there : (slots ++ [new])[j]? = some found) :
    j = slots.length ∧ found = new ∨ slots[j]? = some found := by
  rcases Nat.lt_or_ge j slots.length with inside | outside
  · rw [List.getElem?_append_left inside] at there
    exact .inr there
  · rw [List.getElem?_append_right outside] at there
    rcases Nat.eq_zero_or_pos (j - slots.length) with here | beyond
    · rw [here] at there
      cases there
      exact .inl ⟨by omega, rfl⟩
    · rw [List.getElem?_eq_none beyond] at there
      cases there

theorem append_replicate_cases {more : Nat}
    (there : (slots ++ List.replicate more new)[j]? = some found) :
    slots[j]? = some found ∨ found = new := by
  rcases Nat.lt_or_ge j slots.length with inside | outside
  · rw [List.getElem?_append_left inside] at there
    exact .inl there
  · rw [List.getElem?_append_right outside, List.getElem?_replicate] at there
    split at there
    · exact .inr (Option.some.inj there).symm
    · cases there

/-! Tables in which the live slots have keys of their own. -/

def Distinct {κ : Type} (live : α → Bool) (key : α → κ) (slots : List α) : Prop :=
  ∀ (i j : Nat) (a b : α), slots[i]? = some a → slots[j]? = some b → live a = true →
    live b = true → key a = key b → i = j

section Distinct

variable {κ : Type} {live : α → Bool} {key : α → κ}

theorem Distinct.claim (distinct : Distinct live key slots)
    (fresh : ∀ a ∈ slots, live a = true → key a ≠ key new) (i : Nat) :
    Distinct live key (slots.set i new) := by
  intro j k a b first second liveA liveB same
  rcases set_cases first with ⟨atJ, rfl⟩ | ⟨_, oldA⟩
  · rcases set_cases second with ⟨atK, _⟩ | ⟨_, oldB⟩
    · rw [atJ, atK]
    · exact absurd same.symm (fresh b (List.mem_of_getElem? oldB) liveB)
  · rcases set_cases second with ⟨_, rfl⟩ | ⟨_, oldB⟩
    · exact absurd same (fresh a (List.mem_of_getElem? oldA) liveA)
    · exact distinct j k a b oldA oldB liveA liveB same

theorem Distinct.of_kept {slots' : List α} (distinct : Distinct live key slots)
    (kept : ∀ (i : Nat) (a : α), slots'[i]? = some a → live a = true →
      ∃ old, slots[i]? = some old ∧ live old = true ∧ key old = key a) :
    Distinct live key slots' := by
  intro i j a b first second liveA liveB same
  obtain ⟨oldA, atI, wasA, keyA⟩ := kept i a first liveA
  obtain ⟨oldB, atJ, wasB, keyB⟩ := kept j b second liveB
  exact distinct i j oldA oldB atI atJ wasA wasB (by rw [keyA, keyB, same])

end Distinct

end Metal.Lib
