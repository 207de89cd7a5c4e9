import Metal.Lib.Cells
import Metal.Lib.Counter

namespace Metal.Lib

/-! A count that writers publish as a word of 16 bits, one byte after the other, and a
reader that loads the word whole. -/

/-- `count` is the one whose low byte was stored last.  `seen` is what the reader loaded;
`counts` records how far the writers were then. -/
structure Published where
  word : Cells 2
  count : Nat
  seen : List UInt16
  counts : List Nat

namespace Published

def start (count : Nat) : Published := ⟨cells 2 count, count, [], []⟩

def storeLow (value : UInt16) (count : Nat) (p : Published) : Published :=
  { p with word := p.word.store 0 value.toNat, count := count }

def storeHigh (value : UInt16) (p : Published) : Published :=
  { p with word := p.word.store 1 value.toNat }

def load (p : Published) : Published :=
  { p with seen := p.seen ++ [p.word.half], counts := p.counts ++ [p.count] }

/-- What the reader knows; before its first load that is 0. -/
def last (p : Published) : UInt16 := p.seen.getLastD 0

def known (p : Published) : Nat := p.counts.getLastD 0

/-- The high byte is not that of the count whose low byte was stored last. -/
def Torn (p : Published) : Prop := p.word 1 ≠ cells 2 p.count 1

/-- A high byte of the count whose low byte was stored last. -/
def Fits (value : UInt16) (p : Published) : Prop := half value 1 = cells 2 p.count 1

/-- What the reader loaded are counts modulo 2^16 that never go back, and none is more than
`size` ahead of the one before. -/
structure Forward (size : Nat) (p : Published) : Prop where
  seen : p.seen = p.counts.map UInt16.ofNat
  forward : (0 :: p.counts).IsChain fun a b => a ≤ b ∧ b ≤ a + size

structure Sound (size : Nat) (p : Published) : Prop extends Forward size p where
  low : p.word.Begins p.count 1
  le : ∀ count ∈ p.counts, count ≤ p.count

variable {size : Nat} {p : Published}

theorem Sound.start (size count : Nat) : Sound size (.start count) where
  seen := rfl
  forward := .singleton 0
  low _ _ := rfl
  le := nofun

theorem Forward.last_eq (forward : Forward size p) : p.last = UInt16.ofNat p.known := by
  rw [last, known, forward.seen, List.getLastD_eq_getLast?, List.getLast?_map,
    List.getLastD_eq_getLast?]
  cases p.counts.getLast? with
  | none => rfl
  | some count => rfl

section Sound

variable (sound : Sound size p)
include sound

theorem Sound.known_le : p.known ≤ p.count := by
  rw [known, List.getLastD_eq_getLast?]
  cases found : p.counts.getLast? with
  | none => exact Nat.zero_le _
  | some count => exact sound.le count (List.mem_of_getLast? found)

theorem Sound.storeLow {count : Nat} (more : p.count ≤ count) :
    Sound size (p.storeLow (.ofNat count) count) where
  seen := sound.seen
  forward := sound.forward
  low := by
    have begins := Cells.Begins.store (k := 0) (Cells.Begins.zero count p.word)
    rwa [Cells.store, ← half_ofNat] at begins
  le old member := (sound.le old member).trans more

theorem Sound.storeHigh (value : UInt16) : Sound size (p.storeHigh value) where
  seen := sound.seen
  forward := sound.forward
  low j below := by
    have apart : j ≠ 1 := by
      rintro rfl
      exact absurd below (by decide)
    exact (Function.update_of_ne apart ..).trans (sound.low j below)
  le := sound.le

theorem Sound.half_eq (whole : ¬ p.Torn) : p.word.half = UInt16.ofNat p.count := by
  have word : p.word = cells 2 p.count :=
    funext (Fin.forall_fin_two.mpr ⟨sound.low 0 Nat.zero_lt_one, not_not.mp whole⟩)
  rw [word, ← half_ofNat, half_cells]

theorem Sound.load (whole : ¬ p.Torn) (near : p.count ≤ p.known + size) :
    Sound size p.load where
  seen := by
    rw [Published.load, List.map_append, ← sound.seen, sound.half_eq whole]
    rfl
  forward := by
    rw [Published.load, ← List.cons_append, List.isChain_append]
    refine ⟨sound.forward, .singleton _, fun old before new next => ?_⟩
    obtain rfl : p.count = new := by simpa using next
    have old_ : old = p.known := by
      rw [Option.mem_def, List.getLast?_cons] at before
      exact (Option.some.inj before).symm.trans (List.getLastD_eq_getLast? ..).symm
    rw [old_]
    exact ⟨sound.known_le, near⟩
  low := sound.low
  le count member := by
    rcases List.mem_append.mp member with old | new
    · exact sound.le count old
    · exact Nat.le_of_eq (List.mem_singleton.mp new)

end Sound

@[simp] theorem known_load : p.load.known = p.count := by
  rw [known, load, List.getLastD_eq_getLast?, List.getLast?_concat]
  rfl

theorem store_whole (value : UInt16) (count : Nat) (p : Published) :
    (p.storeLow value count).storeHigh value = { p with word := half value, count := count } := by
  rw [storeLow, storeHigh, store_both, half]

theorem Fits.whole {value : UInt16} (fits : p.Fits value) : ¬ (p.storeHigh value).Torn := by
  have stored : (p.word.store 1 value.toNat) 1 = half value 1 := Function.update_self ..
  exact not_not.mpr (stored.trans fits)

/-- A load of a torn word gives another count. -/
theorem Torn.load (torn : p.Torn) : ¬ Forward size p.load := by
  intro forward
  have same := forward.seen
  rw [Published.load, List.map_append] at same
  have half := List.append_inj_right' same rfl
  have word : p.word.half = UInt16.ofNat p.count := by simpa using half
  refine torn (congrFun (?_ : p.word = cells 2 p.count) 1)
  rw [← half_ofNat, ← word, half_half]

end Published

end Metal.Lib
