import Mathlib.Data.Set.Card

namespace Metal.Lib.Rows

/-! Tables whose live rows have keys. A new row takes the first place that is free or
has its key; a full table grows by blank rows, and the new row comes behind them. -/

variable {ρ κ : Type} [DecidableEq κ] (live : ρ → Bool) (key : ρ → κ)

/-- The table grows by `blanks`, or not at all. -/
def put (blanks : Option (List ρ)) (new : ρ) : List ρ → List ρ
  | [] =>
      match blanks with
      | none => []
      | some blanks => blanks ++ [new]
  | row :: rows =>
      if live row = false ∨ key row = key new then new :: rows
      else row :: put blanks new rows

def find (k : κ) (rows : List ρ) : Option ρ := rows.find? fun row => live row && key row = k

def keys (rows : List ρ) : List κ := (rows.filter live).map key

variable {live key} {blanks : List ρ} {new row : ρ} {rows : List ρ} {k : κ}

theorem find_cons : find live key k (row :: rows) =
    if live row = true ∧ key row = k then some row else find live key k rows := by
  rw [find, List.find?_cons]
  by_cases here : live row = true ∧ key row = k
  · simp [here]
  · rw [if_neg here]
    rw [not_and] at here
    cases living : live row with
    | false => rfl
    | true => simp [here living, find]

theorem find_of_dead (dead : ∀ row ∈ blanks, live row = false) :
    find live key k (blanks ++ rows) = find live key k rows := by
  have none_ : blanks.find? (fun row => live row && decide (key row = k)) = none := by
    rw [List.find?_eq_none]
    intro row member
    simp [dead row member]
  rw [find, List.find?_append, none_]
  rfl

theorem find_dead (dead : ∀ row ∈ blanks, live row = false) : find live key k blanks = none := by
  rw [← List.append_nil blanks, find_of_dead dead]
  rfl

theorem find_put (live : ρ → Bool) (key : ρ → κ) (living : live new = true)
    (dead : ∀ row ∈ blanks, live row = false) (k : κ) (rows : List ρ) :
    find live key k (put live key (some blanks) new rows) =
      if k = key new then some new else find live key k rows := by
  induction rows with
  | nil =>
      rw [put, find_of_dead dead, find_cons]
      simp only [living, true_and, eq_comm]
  | cons row rows ih =>
      rw [put]
      split
      · rename_i first
        rw [find_cons, find_cons]
        by_cases same : k = key new
        · simp [living, same]
        · have passed : ¬ (live row = true ∧ key row = k) := by
            rintro ⟨here, mine⟩
            rcases first with free | other
            · rw [here] at free
              cases free
            · exact same (mine.symm.trans other)
          rw [if_neg passed, if_neg same, if_neg (fun mine => same mine.2.symm)]
      · rename_i passed
        rw [not_or] at passed
        rw [find_cons, find_cons, ih]
        split
        · rename_i here
          rw [if_neg (fun same => passed.2 (here.2.trans same))]
        · rfl

theorem mem_keys : k ∈ keys live key rows ↔ (find live key k rows).isSome := by
  simp [keys, find, and_assoc]

theorem keys_put (live : ρ → Bool) (key : ρ → κ) (living : live new = true)
    (dead : ∀ row ∈ blanks, live row = false) (fresh : key new ∉ keys live key rows) :
    (keys live key (put live key (some blanks) new rows)).Perm (key new :: keys live key rows) := by
  induction rows with
  | nil =>
      have none_ : blanks.filter live = [] := by
        rw [List.filter_eq_nil_iff]
        intro row member
        simp [dead row member]
      simp [put, keys, none_, living]
  | cons row rows ih =>
      rw [put]
      cases here : live row with
      | false => simp [keys, here, living]
      | true =>
          have tail : key new ∉ keys live key rows := by
            simp only [keys, List.filter_cons_of_pos here, List.map_cons, List.mem_cons] at fresh
            exact fun member => fresh (.inr member)
          have other : key row ≠ key new := by
            simp only [keys, List.filter_cons_of_pos here, List.map_cons, List.mem_cons] at fresh
            exact fun same => fresh (.inl same.symm)
          have step := ih tail
          simp only [other, or_false, Bool.true_eq_false, if_false]
          simp only [keys, List.filter_cons_of_pos here, List.map_cons] at step ⊢
          exact (step.cons _).trans (.swap ..)

theorem ncard_find (distinct : (keys live key rows).Nodup) :
    {k | (find live key k rows).isSome}.ncard = (keys live key rows).length := by
  have same : {k | (find live key k rows).isSome} = ↑(keys live key rows).toFinset := by
    ext k
    rw [Set.mem_ofPred_eq, List.coe_toFinset, Set.mem_ofPred_eq, mem_keys]
  rw [same, Set.ncard_coe_finset, List.toFinset_card_of_nodup distinct]

end Metal.Lib.Rows
