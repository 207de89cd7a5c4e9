namespace Metal.Lib

/-! Computations that may fail, and that do not. -/

variable {ε α β : Type} {x x' : Except ε α} {f f' : α → Except ε β} {post : α → Prop}
  {after : β → Prop}

/-- The computation gives a value, and the value satisfies `post`. -/
def Returns (post : α → Prop) (x : Except ε α) : Prop := ∃ a, x = .ok a ∧ post a

def Agree (x x' : Except ε α) : Prop := Returns (fun a => x' = .ok a) x

theorem Returns.ok {a : α} (holds : post a) : Returns post (.ok a : Except ε α) := ⟨a, rfl, holds⟩

theorem Returns.bind (first : Returns post x) (next : ∀ a, post a → Returns after (f a)) :
    Returns after (x >>= f) := by
  obtain ⟨a, rfl, holds⟩ := first
  exact next a holds

theorem Agree.ok (a : α) : Agree (.ok a : Except ε α) (.ok a) := ⟨a, rfl, rfl⟩

theorem Agree.bind (first : Agree x x') (next : ∀ a, Agree (f a) (f' a)) :
    Agree (x >>= f) (x' >>= f') := by
  obtain ⟨a, rfl, rfl⟩ := first
  exact next a

theorem Returns.bind_agree (first : Returns post x) (next : ∀ a, post a → Agree (f a) (f' a)) :
    Agree (x >>= f) (x >>= f') := by
  obtain ⟨a, rfl, holds⟩ := first
  exact next a holds

theorem Agree.eq (agree : Agree x x') : x = x' := by
  obtain ⟨a, rfl, rfl⟩ := agree
  rfl

end Metal.Lib
