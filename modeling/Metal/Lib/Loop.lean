import Mathlib.Algebra.Group.Int.Units
import Mathlib.Order.Basic

namespace Metal.Lib

/-! Loops that need not end, run with fuel. -/

inductive Turn (σ ρ : Type) where
  | next (s : σ)
  | done (r : ρ)

variable {σ ρ : Type} {turn : Nat → σ → Option (Turn σ ρ)}

def loop (turn : Nat → σ → Option (Turn σ ρ)) : Nat → σ → Option ρ
  | 0, _ => none
  | fuel + 1, s =>
      match turn fuel s with
      | none => none
      | some (.done r) => some r
      | some (.next s') => loop turn fuel s'

def Turns (turn : Nat → σ → Option (Turn σ ρ)) (s : σ) (t : Turn σ ρ) : Prop :=
  ∃ fuel, turn fuel s = some t

inductive Comes (turn : Nat → σ → Option (Turn σ ρ)) (s : σ) : σ → Prop where
  | start : Comes turn s s
  | turn {s' s'' : σ} : Comes turn s s' → Turns turn s' (.next s'') → Comes turn s s''

def Ends (turn : Nat → σ → Option (Turn σ ρ)) (s : σ) (r : ρ) : Prop :=
  ∃ fuel, loop turn fuel s = some r

def Steady (turn : Nat → σ → Option (Turn σ ρ)) : Prop :=
  ∀ ⦃fuel fuel' : Nat⦄ ⦃s : σ⦄ ⦃t : Turn σ ρ⦄, fuel ≤ fuel' → turn fuel s = some t →
    turn fuel' s = some t

theorem Steady.of_total (total : σ → Turn σ ρ) : Steady fun _ s => some (total s) :=
  fun _ _ _ _ _ same => same

variable {s : σ}

theorem Turns.unique (steady : Steady turn) {t t' : Turn σ ρ} (one : Turns turn s t)
    (other : Turns turn s t') : t = t' := by
  obtain ⟨fuel, one⟩ := one
  obtain ⟨fuel', other⟩ := other
  exact Option.some.inj ((steady (Nat.le_max_left fuel fuel') one).symm.trans
    (steady (Nat.le_max_right fuel fuel') other))

theorem Steady.loop (steady : Steady turn) {fuel fuel' : Nat} {r : ρ} (more : fuel ≤ fuel')
    (ends : loop turn fuel s = some r) : loop turn fuel' s = some r := by
  induction fuel generalizing fuel' s with
  | zero => exact (Option.some_ne_none _ ends.symm).elim
  | succ fuel ih =>
      obtain ⟨fuel', rfl⟩ := Nat.exists_eq_add_one_of_ne_zero (Nat.ne_zero_of_lt more)
      have more' := Nat.le_of_succ_le_succ more
      rw [Lib.loop] at ends ⊢
      cases taken : turn fuel s with
      | none =>
          rw [taken] at ends
          exact (Option.some_ne_none _ ends.symm).elim
      | some t =>
          rw [taken] at ends
          rw [steady more' taken]
          cases t with
          | done r => exact ends
          | next s' => exact ih more' ends

theorem Comes.trans {s' s'' : σ} (comes : Comes turn s s') (comes' : Comes turn s' s'') :
    Comes turn s s'' := by
  induction comes' with
  | start => exact comes
  | turn _ turns ih => exact ih.turn turns

theorem comes_iff {s' : σ} :
    Comes turn s s' ↔ s' = s ∨ ∃ s'', Turns turn s (.next s'') ∧ Comes turn s'' s' := by
  constructor
  · intro comes
    induction comes with
    | start => exact .inl rfl
    | @turn _ last _ turns ih =>
        rcases ih with rfl | ⟨s'', first_, comes⟩
        · exact .inr ⟨last, turns, .start⟩
        · exact .inr ⟨s'', first_, comes.turn turns⟩
  · rintro (rfl | ⟨s'', first_, comes⟩)
    · exact .start
    · exact (Comes.start.turn first_).trans comes

theorem Ends.of_comes (steady : Steady turn) {s' : σ} {r : ρ} (ends : Ends turn s r)
    (comes : Comes turn s s') : Ends turn s' r := by
  induction comes with
  | start => exact ends
  | turn _ turns ih =>
      obtain ⟨fuel, ends⟩ := ih
      cases fuel with
      | zero => exact (Option.some_ne_none _ ends.symm).elim
      | succ fuel =>
          rw [loop] at ends
          cases taken : turn fuel _ with
          | none =>
              rw [taken] at ends
              exact (Option.some_ne_none _ ends.symm).elim
          | some t =>
              obtain rfl := Turns.unique steady (.intro fuel taken) turns
              rw [taken] at ends
              exact ⟨fuel, ends⟩

theorem Turns.ends {s' : σ} {r : ρ} (steady : Steady turn) (turns : Turns turn s (.next s'))
    (ends : Ends turn s' r) : Ends turn s r := by
  obtain ⟨fuel, taken⟩ := turns
  obtain ⟨fuel', ends⟩ := ends
  refine ⟨max fuel fuel' + 1, ?_⟩
  rw [loop, steady (Nat.le_max_left fuel fuel') taken]
  exact steady.loop (Nat.le_max_right fuel fuel') ends

/-- A loop whose turns make something smaller, where they do not leave the state as it was, ends
just when each turn it comes to ends and changes the state. -/
theorem ends_iff (steady : Steady turn) (size : σ → Nat)
    (less : ∀ s s', Turns turn s (.next s') → s' = s ∨ size s' < size s) (s : σ) :
    (∃ r, Ends turn s r) ↔
      ∀ s', Comes turn s s' → ∃ t, Turns turn s' t ∧ t ≠ .next s' := by
  constructor
  · rintro ⟨r, ends⟩ s' comes
    obtain ⟨fuel, ends'⟩ := ends.of_comes steady comes
    induction fuel with
    | zero => exact (Option.some_ne_none _ ends'.symm).elim
    | succ fuel ih =>
        rw [loop] at ends'
        cases taken : turn fuel s' with
        | none =>
            rw [taken] at ends'
            exact (Option.some_ne_none _ ends'.symm).elim
        | some t =>
            refine ⟨t, ⟨fuel, taken⟩, ?_⟩
            rintro rfl
            rw [taken] at ends'
            obtain ⟨t, turns, changes⟩ := ih ends'
            exact changes (turns.unique steady ⟨fuel, taken⟩)
  · intro changes
    generalize bound : size s = n
    induction n using Nat.strongRecOn generalizing s with
    | ind n ih =>
        obtain ⟨t, turns, differs⟩ := changes s .start
        cases t with
        | done r =>
            obtain ⟨fuel, taken⟩ := turns
            refine ⟨r, fuel + 1, ?_⟩
            rw [loop, taken]
        | next s' =>
            have smaller := (less s s' turns).resolve_left fun same => differs (by rw [same])
            obtain ⟨r, ends⟩ := ih (size s') (bound ▸ smaller) s'
              (fun s'' comes => changes s'' ((Comes.start.turn turns).trans comes)) rfl
            exact ⟨r, turns.ends steady ends⟩

end Metal.Lib
