import Mathlib.Algebra.Group.Int.Units
import Mathlib.Data.List.Basic

namespace Metal.Lib

/-! The last entries of a log, kept in a ring that may be laid out anew. -/

/-- The slot `back` entries before `head` in a ring of `n` slots. -/
def slotBack (n head back : Nat) : Nat := (head + n - back) % n

theorem slotBack_eq {n head back : Nat} (inside : head < n) (some_ : 0 < back) (turn : back ≤ n) :
    slotBack n head back = if back ≤ head then head - back else head + n - back := by
  rw [slotBack]
  split
  · rw [show head + n - back = head - back + n by omega, Nat.add_mod_right,
      Nat.mod_eq_of_lt (by omega)]
  · exact Nat.mod_eq_of_lt (by omega)

theorem mod_succ_eq {n i : Nat} (inside : i < n) :
    (i + 1) % n = if i + 1 = n then 0 else i + 1 := by
  split
  · rename_i last
    rw [last, Nat.mod_self]
  · exact Nat.mod_eq_of_lt (by omega)

variable {α : Type} {rows : List α} {head count : Nat} {log : List α}

/-- The ring keeps the last `count` entries of the log, the newest just before
`head`; until it is full the oldest is in the first slot. -/
structure Keeps (rows : List α) (head count : Nat) (log : List α) : Prop where
  inside : head < rows.length
  fits : count ≤ rows.length
  logged : count ≤ log.length
  start : count < rows.length → head = count
  held : ∀ k < count, rows[slotBack rows.length head (k + 1)]? = log.reverse[k]?

theorem Keeps.nil (some_ : 0 < rows.length) (log : List α) : Keeps rows 0 0 log :=
  ⟨some_, Nat.zero_le _, Nat.zero_le _, fun _ => rfl, fun _ none_ => absurd none_ (Nat.not_lt_zero _)⟩

theorem Keeps.push (keeps : Keeps rows head count log) (entry : α) :
    Keeps (rows.set head entry) ((head + 1) % rows.length)
      (if count < rows.length then count + 1 else count) (log ++ [entry]) := by
  have inside := keeps.inside
  have fits := keeps.fits
  have next := mod_succ_eq inside
  have inside' : (head + 1) % rows.length < rows.length := Nat.mod_lt _ (by omega)
  refine ⟨?_, ?_, ?_, ?_, ?_⟩
  · rwa [List.length_set]
  · rw [List.length_set]
    split
    · omega
    · omega
  · have logged := keeps.logged
    rw [List.length_append, List.length_singleton]
    split
    · omega
    · omega
  · rw [List.length_set, next]
    intro room
    split at room
    · have start := keeps.start (by omega)
      rw [if_neg (by omega), if_pos (by omega), start]
    · omega
  · intro k below
    rw [List.length_set, List.reverse_append, List.reverse_singleton, List.singleton_append]
    have turn : k + 1 ≤ rows.length := by
      split at below
      · omega
      · omega
    have slot := slotBack_eq inside' (Nat.succ_pos k) turn
    cases k with
    | zero =>
        have same : slotBack rows.length ((head + 1) % rows.length) (0 + 1) = head := by
          rw [slot, next]
          split
          · rw [if_neg (by omega)]
            omega
          · rw [if_pos (by omega)]
            rfl
        rw [same, List.getElem?_set_self inside]
        rfl
    | succ k =>
        have before := slotBack_eq inside (Nat.succ_pos k) (by omega)
        have same : slotBack rows.length ((head + 1) % rows.length) (k + 1 + 1) =
            slotBack rows.length head (k + 1) := by
          rw [slot, before, next]
          split
          · rw [if_neg (by omega)]
            split
            · omega
            · omega
          · split
            · rw [if_pos (by omega)]
              omega
            · rw [if_neg (by omega)]
              omega
        have other : head ≠ slotBack rows.length head (k + 1) := by
          rw [before]
          split
          · omega
          · omega
        rw [same, List.getElem?_set_ne other, List.getElem?_cons_succ]
        refine keeps.held k ?_
        split at below
        · omega
        · omega

/-- A new ring gets the newest entries that it has room for, the oldest of them
first. -/
theorem Keeps.layOut (keeps : Keeps rows head count log) (rows' : List α)
    (some_ : 0 < rows'.length)
    (copied : ∀ i < min count rows'.length, rows'[i]? =
      rows[slotBack rows.length head (min count rows'.length - i)]?) :
    Keeps rows' (min count rows'.length % rows'.length) (min count rows'.length) log := by
  have logged := keeps.logged
  generalize same : min count rows'.length = keep at copied
  have less : keep ≤ count := same ▸ Nat.min_le_left _ _
  have fits : keep ≤ rows'.length := same ▸ Nat.min_le_right _ _
  have inside : keep % rows'.length < rows'.length := Nat.mod_lt _ some_
  refine ⟨inside, fits, Nat.le_trans less logged, fun room => Nat.mod_eq_of_lt room,
    fun k below => ?_⟩
  have slot : slotBack rows'.length (keep % rows'.length) (k + 1) = keep - (k + 1) := by
    rw [slotBack_eq inside (Nat.succ_pos k) (by omega)]
    rcases Nat.lt_or_eq_of_le fits with room | full
    · rw [Nat.mod_eq_of_lt room, if_pos (by omega)]
    · rw [full, Nat.mod_self, if_neg (by omega), Nat.zero_add]
  rw [slot, copied _ (by omega), show keep - (keep - (k + 1)) = k + 1 by omega]
  exact keeps.held k (Nat.lt_of_lt_of_le below less)

theorem Keeps.replay (keeps : Keeps rows head count log) {i : Nat} (below : i < count) :
    rows[((if count = rows.length then head else 0) + i) % rows.length]? =
      (log.drop (log.length - count))[i]? := by
  have inside := keeps.inside
  have logged := keeps.logged
  have fits := keeps.fits
  have held := keeps.held (count - 1 - i) (by omega)
  have back : count - 1 - i + 1 = count - i := by omega
  have slot : slotBack rows.length head (count - i) =
      ((if count = rows.length then head else 0) + i) % rows.length := by
    rw [slotBack]
    split
    · rename_i full
      congr 1
      omega
    · rw [keeps.start (by omega), show count + rows.length - (count - i) = i + rows.length by omega,
        Nat.add_mod_right, Nat.zero_add]
  rw [← slot, ← back, held, List.getElem?_reverse (by omega), List.getElem?_drop]
  congr 1
  omega

/-! A ring whose slots are found by the number of the entry alone. -/

/-- Of the last entries of the log, as many as there are slots, entry `k` is in slot `k` modulo
their number. -/
def Wraps (rows log : List α) : Prop :=
  ∀ k, log.length ≤ k + rows.length → k < log.length → rows[k % rows.length]? = log[k]?

theorem Wraps.nil (rows : List α) : Wraps rows [] := fun _ _ below =>
  (Nat.not_lt_zero _ below).elim

theorem Wraps.push (wraps : Wraps rows log) (some_ : 0 < rows.length) (entry : α) :
    Wraps (rows.set (log.length % rows.length) entry) (log ++ [entry]) := by
  intro k recent below
  rw [List.length_set] at recent ⊢
  rw [List.length_append, List.length_singleton] at recent below
  rcases Nat.lt_succ_iff_lt_or_eq.mp below with older | rfl
  · have apart : log.length % rows.length ≠ k % rows.length := by
      intro same
      have turn := Nat.sub_mod_eq_zero_of_mod_eq same
      rw [Nat.mod_eq_of_lt (by omega)] at turn
      omega
    rw [List.getElem?_set_ne apart, List.getElem?_append_left older]
    exact wraps k (by omega) older
  · rw [List.getElem?_set_self (Nat.mod_lt _ some_), List.getElem?_concat_length]

end Metal.Lib
