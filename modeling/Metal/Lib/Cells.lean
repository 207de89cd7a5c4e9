import Metal.Lib.Endian
import Metal.Lib.Run

namespace Metal.Lib

/-! Words in memory that is read and written one byte at a time, least significant
byte first. -/

abbrev Cells (n : Nat) := Fin n → UInt8

variable {n : Nat}

def cells (n value : Nat) : Cells n := fun k => UInt8.ofNat (value / 256 ^ k.val)

def Cells.nat (word : Cells n) : Nat := leNat (List.ofFn word)

def Cells.store (k : Fin n) (value : Nat) (word : Cells n) : Cells n :=
  Function.update word k (cells n value k)

/-- The first `k` bytes are those of `value`. -/
def Cells.Begins (value k : Nat) (word : Cells n) : Prop :=
  ∀ j : Fin n, j.val < k → word j = cells n value j

theorem ofFn_cells (n value : Nat) : List.ofFn (cells n value) = natLe n value := by
  induction n generalizing value with
  | zero => rfl
  | succ n ih =>
      rw [List.ofFn_succ, natLe, ← ih]
      congr 1
      · simp [cells]
      · congr 1
        funext k
        rw [cells, cells, Fin.val_succ, Nat.pow_succ, Nat.mul_comm, Nat.div_div_eq_div_mul]

@[simp] theorem nat_cells (n value : Nat) : (cells n value).nat = value % 256 ^ n := by
  rw [Cells.nat, ofFn_cells, leNat_natLe]

theorem cells_mod (n value : Nat) : cells n (value % 256 ^ n) = cells n value :=
  List.ofFn_injective (by rw [ofFn_cells, ofFn_cells, natLe_mod])

theorem Cells.Begins.zero (value : Nat) (word : Cells n) : word.Begins value 0 :=
  fun _ below => absurd below (Nat.not_lt_zero _)

theorem Cells.Begins.store {value : Nat} {k : Fin n} {word : Cells n}
    (begins : word.Begins value k) : (word.store k value).Begins value (k + 1) := by
  intro j below
  by_cases here : j = k
  · rw [here, Cells.store, Function.update_self]
  · rw [Cells.store, Function.update_of_ne here]
    exact begins j (by omega)

theorem Cells.Begins.whole {value : Nat} {word : Cells n} (begins : word.Begins value n) :
    word = cells n value := funext fun k => begins k k.isLt

def half (value : UInt16) : Cells 2 := cells 2 value.toNat

def Cells.half (word : Cells 2) : UInt16 := UInt16.ofNat word.nat

theorem half_ofNat (count : Nat) : half (UInt16.ofNat count) = cells 2 count := by
  rw [half, UInt16.toNat_ofNat']
  exact cells_mod 2 count

@[simp] theorem half_cells (value : UInt16) : (half value).half = value := by
  have below : value.toNat < 256 ^ 2 := value.toNat_lt
  rw [Cells.half, half, nat_cells, Nat.mod_eq_of_lt below, UInt16.ofNat_toNat]

theorem half_half (word : Cells 2) : Lib.half word.half = word := by
  have below := leNat_lt (List.ofFn word)
  rw [List.length_ofFn] at below
  apply List.ofFn_injective
  rw [Cells.half, half_ofNat, ofFn_cells]
  apply leNat_inj
  · rw [length_natLe, List.length_ofFn]
  · rw [leNat_natLe]
    exact Nat.mod_eq_of_lt below

theorem cells_half (value : Nat) : (cells 2 value).half = UInt16.ofNat value := by
  rw [← half_ofNat, half_cells]

theorem store_both (word : Cells 2) (value : Nat) :
    (word.store 0 value).store 1 value = cells 2 value :=
  (Cells.Begins.store (k := 1) (Cells.Begins.store (k := 0) (Cells.Begins.zero value word))).whole

/-- Two bytes that were read in turn, the low one first. -/
def pair (low high : UInt8) : Cells 2 := fun k => if k = 0 then low else high

theorem pair_bytes (word : Cells 2) : pair (word 0) (word 1) = word :=
  funext (Fin.forall_fin_two.mpr ⟨rfl, rfl⟩)

end Metal.Lib
