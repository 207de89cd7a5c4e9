import Mathlib.Data.Fin.Basic
import Mathlib.Data.Nat.ModEq

namespace Metal.Lib

open Function

/-! A window of a ring: the slots from `first` on, around the ring, agree with
the entries of a list one by one. -/

variable {n : Nat} [NeZero n] {α β : Type}

/-- The slot `k` places after `first`. -/
def slotAfter (first : Fin n) (k : Nat) : Fin n := Fin.ofNat n (first.val + k)

@[simp] theorem slotAfter_zero (first : Fin n) : slotAfter first 0 = first := by
  ext
  exact Nat.mod_eq_of_lt first.isLt

theorem slotAfter_succ (first : Fin n) (k : Nat) :
    slotAfter (first + 1) k = slotAfter first (k + 1) := by
  ext
  simp only [slotAfter, Fin.ofNat, Fin.val_add, Fin.val_one']
  rw [Nat.add_mod_mod, Nat.mod_add_mod, Nat.add_right_comm, Nat.add_assoc]

theorem slotAfter_inj {first : Fin n} {k m : Nat} (inside : k < n)
    (inside' : m < n) : slotAfter first k = slotAfter first m ↔ k = m := by
  refine ⟨fun same => ?_, congrArg _⟩
  have same : (first.val + k) % n = (first.val + m) % n := congrArg Fin.val same
  have := Nat.ModEq.add_left_cancel' first.val same
  rwa [Nat.ModEq, Nat.mod_eq_of_lt inside, Nat.mod_eq_of_lt inside'] at this

/-- `agree` holds between each slot of the window and its entry of the list. -/
def Window (agree : α → β → Prop) (ring : Fin n → α) (first : Fin n)
    (l : List β) : Prop :=
  ∀ k entry, l[k]? = some entry → agree (ring (slotAfter first k)) entry

section Window

variable {agree : α → β → Prop} {ring : Fin n → α} {first : Fin n} {l : List β}

theorem Window.nil : Window agree ring first [] := by
  intro k entry at_
  simp at at_

theorem Window.head {entry : β} (window : Window agree ring first (entry :: l)) :
    agree (ring first) entry := by
  simpa using window 0 entry rfl

theorem Window.tail {entry : β} (window : Window agree ring first (entry :: l)) :
    Window agree ring (first + 1) l := by
  intro k later at_
  rw [slotAfter_succ]
  exact window (k + 1) later at_

theorem Window.left {m : List β} (window : Window agree ring first (l ++ m)) :
    Window agree ring first l := by
  intro k entry at_
  exact window k entry (List.getElem?_append_left
    (List.getElem?_eq_some_iff.mp at_).1 ▸ at_)

theorem Window.frame {value : α} (window : Window agree ring first l)
    (room : l.length < n) :
    Window agree (update ring (slotAfter first l.length) value) first l := by
  intro k entry at_
  have inside : k < l.length := (List.getElem?_eq_some_iff.mp at_).1
  rw [update_of_ne
    (mt (slotAfter_inj (inside.trans room) room).mp (Nat.ne_of_lt inside))]
  exact window k entry at_

theorem Window.write {before after : List β} {old new : β} {value : α}
    (window : Window agree ring first (before ++ old :: after))
    (fits : (before ++ old :: after).length ≤ n) (agrees : agree value new) :
    Window agree
      (update ring (slotAfter first before.length) value) first
      (before ++ new :: after) := by
  intro k entry at_
  have length : (before ++ new :: after).length ≤ n := by simpa using fits
  have inside : k < n := lt_of_lt_of_le (List.getElem?_eq_some_iff.mp at_).1 length
  have here : before.length < n := by
    rw [List.length_append, List.length_cons] at fits
    omega
  by_cases same : k = before.length
  · subst same
    rw [List.getElem?_append_right le_rfl, Nat.sub_self] at at_
    rw [update_self]
    exact Option.some.inj at_ ▸ agrees
  · rw [update_of_ne (mt (slotAfter_inj inside here).mp same)]
    apply window k entry
    rw [← at_]
    simp only [List.getElem?_append]
    split
    · rfl
    · rw [List.getElem?_cons, List.getElem?_cons, if_neg (by omega),
        if_neg (by omega)]

theorem Window.push {entry : β} {value : α} (window : Window agree ring first l)
    (room : l.length < n) (agrees : agree value entry) :
    Window agree (update ring (slotAfter first l.length) value) first
      (l ++ [entry]) := by
  intro k later at_
  by_cases old : k < l.length
  · rw [List.getElem?_append_left old] at at_
    exact window.frame room k later at_
  · have here : k = l.length := by
      have := (List.getElem?_eq_some_iff.mp at_).1
      rw [List.length_append, List.length_singleton] at this
      omega
    subst here
    rw [List.getElem?_concat_length] at at_
    rw [update_self]
    exact Option.some.inj at_ ▸ agrees

end Window

/-- The first of `count` slots that satisfies `wanted`. -/
def scan (wanted : α → Bool) (ring : Fin n → α) : Fin n → Nat → Option (Fin n)
  | _, 0 => none
  | i, count + 1 =>
      if wanted (ring i) then some i else scan wanted ring (i + 1) count

theorem Window.scan {agree : α → β → Prop} {ring : Fin n → α}
    {wanted : α → Bool} {sought : β → Bool}
    (matching : ∀ value entry, agree value entry → wanted value = sought entry)
    {first : Fin n} {l : List β} (window : Window agree ring first l) :
    scan wanted ring first l.length = none ∧ (∀ entry ∈ l, sought entry = false) ∨
      ∃ (before : List β) (entry : β) (after : List β), l = before ++ entry :: after ∧
        scan wanted ring first l.length = some (slotAfter first before.length) ∧
        sought entry = true ∧ ∀ earlier ∈ before, sought earlier = false := by
  induction l generalizing first with
  | nil => exact .inl ⟨rfl, by simp⟩
  | cons head rest ih =>
      have same := matching _ _ window.head
      cases found : sought head with
      | true =>
          refine .inr ⟨[], head, rest, rfl, ?_, found, by simp⟩
          simp [Lib.scan, same, found]
      | false =>
          have step : Lib.scan wanted ring first (head :: rest).length =
              Lib.scan wanted ring (first + 1) rest.length := by
            simp [Lib.scan, same, found]
          rw [step]
          rcases ih window.tail with
            ⟨missed, absent⟩ | ⟨before, entry, after, split, hit, here, earlier⟩
          · refine .inl ⟨missed, ?_⟩
            rintro entry (_ | ⟨_, member⟩)
            · exact found
            · exact absent entry member
          · refine .inr ⟨head :: before, entry, after, by rw [split]; rfl, ?_,
              here, ?_⟩
            · rw [hit, slotAfter_succ, List.length_cons]
            · rintro other (_ | ⟨_, member⟩)
              · exact found
              · exact earlier other member

end Metal.Lib
