import Mathlib.Algebra.GroupWithZero.Nat
import Metal.Lib.CString

namespace Metal.Lib

/-! Words of 32 bits in byte buffers, in both byte orders. -/

instance sixteen_neZero : NeZero 16 := ⟨by decide⟩

/-- The word at the start of a buffer; bytes past its end count as zero. -/
def leU32 (p : Bytes) : UInt32 :=
  (p.getD 0 0).toUInt32 ||| (p.getD 1 0).toUInt32 <<< 8 |||
    (p.getD 2 0).toUInt32 <<< 16 ||| (p.getD 3 0).toUInt32 <<< 24

def leU64 (p : Bytes) : UInt64 :=
  (leU32 p).toUInt64 ||| (leU32 (p.drop 4)).toUInt64 <<< 32

def leBytes32 (v : UInt32) : Bytes :=
  [v.toUInt8, (v >>> 8).toUInt8, (v >>> 16).toUInt8, (v >>> 24).toUInt8]

def leBytes64 (v : UInt64) : Bytes :=
  leBytes32 v.toUInt32 ++ leBytes32 (v >>> 32).toUInt32

@[simp] theorem length_leBytes32 (v : UInt32) : (leBytes32 v).length = 4 := rfl

@[simp] theorem length_leBytes64 (v : UInt64) : (leBytes64 v).length = 8 := rfl

/-- The word at the start of a buffer, most significant byte first; bytes past its
end count as zero. -/
def beU32 (p : Bytes) : UInt32 :=
  (p.getD 0 0).toUInt32 <<< 24 ||| (p.getD 1 0).toUInt32 <<< 16 |||
    (p.getD 2 0).toUInt32 <<< 8 ||| (p.getD 3 0).toUInt32

def beBytes32 (v : UInt32) : Bytes :=
  [(v >>> 24).toUInt8, (v >>> 16).toUInt8, (v >>> 8).toUInt8, v.toUInt8]

@[simp] theorem length_beBytes32 (v : UInt32) : (beBytes32 v).length = 4 := rfl

theorem or_bytes {a b c d : Nat} (hb : b < 256) (hc : c < 256) (hd : d < 256) :
    a <<< 24 ||| b <<< 16 ||| c <<< 8 ||| d = a * 2 ^ 24 + b * 2 ^ 16 + c * 2 ^ 8 + d := by
  have low : c <<< 8 ||| d = c * 2 ^ 8 + d := by
    rw [← Nat.shiftLeft_add_eq_or_of_lt hd, Nat.shiftLeft_eq]
  have mid : b <<< 16 ||| (c * 2 ^ 8 + d) = b * 2 ^ 16 + (c * 2 ^ 8 + d) := by
    rw [← Nat.shiftLeft_add_eq_or_of_lt (by omega), Nat.shiftLeft_eq]
  have high : a <<< 24 ||| (b * 2 ^ 16 + (c * 2 ^ 8 + d)) =
      a * 2 ^ 24 + (b * 2 ^ 16 + (c * 2 ^ 8 + d)) := by
    rw [← Nat.shiftLeft_add_eq_or_of_lt (by omega), Nat.shiftLeft_eq]
  rw [Nat.or_assoc, Nat.or_assoc, low, mid, high]
  omega

theorem toNat_beU32 (p : Bytes) :
    (beU32 p).toNat = (p.getD 0 0).toNat * 2 ^ 24 + (p.getD 1 0).toNat * 2 ^ 16 +
      (p.getD 2 0).toNat * 2 ^ 8 + (p.getD 3 0).toNat := by
  have below (i : Nat) : (p.getD i 0).toNat < 256 := (p.getD i 0).toNat_lt
  have first := below 0
  have second := below 1
  have third := below 2
  have wide {x k : Nat} (small : x * 2 ^ k < 2 ^ 32) : x <<< k % 2 ^ 32 = x <<< k := by
    rw [Nat.shiftLeft_eq, Nat.mod_eq_of_lt small]
  rw [← or_bytes second third (below 3)]
  simp only [beU32, UInt32.toNat_or, UInt32.toNat_shiftLeft, UInt8.toNat_toUInt32,
    UInt32.reduceToNat, Nat.reduceMod]
  rw [wide (by omega), wide (by omega), wide (by omega)]

/-- The halfword at the start of a buffer, most significant byte first; bytes past
its end count as zero. -/
def beU16 (p : Bytes) : UInt16 :=
  (p.getD 0 0).toUInt16 <<< 8 ||| (p.getD 1 0).toUInt16

def beBytes16 (v : UInt16) : Bytes := [(v >>> 8).toUInt8, v.toUInt8]

@[simp] theorem length_beBytes16 (v : UInt16) : (beBytes16 v).length = 2 := rfl

theorem toNat_beU16 (p : Bytes) :
    (beU16 p).toNat = (p.getD 0 0).toNat * 2 ^ 8 + (p.getD 1 0).toNat := by
  have first : (p.getD 0 0).toNat < 256 := (p.getD 0 0).toNat_lt
  have second : (p.getD 1 0).toNat < 2 ^ 8 := (p.getD 1 0).toNat_lt
  have wide : (p.getD 0 0).toNat <<< 8 % 2 ^ 16 = (p.getD 0 0).toNat <<< 8 := by
    rw [Nat.shiftLeft_eq, Nat.mod_eq_of_lt (by omega)]
  simp only [beU16, UInt16.toNat_or, UInt16.toNat_shiftLeft, UInt8.toNat_toUInt16,
    UInt16.reduceToNat, Nat.reduceMod]
  rw [wide, ← Nat.shiftLeft_add_eq_or_of_lt second, Nat.shiftLeft_eq]

theorem beU16_beBytes16 (v : UInt16) (rest : Bytes) : beU16 (beBytes16 v ++ rest) = v := by
  have below := v.toNat_lt
  apply UInt16.toNat_inj.mp
  rw [toNat_beU16]
  simp [beBytes16, UInt16.toNat_shiftRight, Nat.shiftRight_eq_div_pow]
  omega

theorem beU32_append {p : Bytes} (long : 4 ≤ p.length) (rest : Bytes) :
    beU32 (p ++ rest) = beU32 p := by
  have same {i : Nat} (inside : i < 4) : (p ++ rest).getD i 0 = p.getD i 0 := by
    rw [List.getD_eq_getElem?_getD, List.getD_eq_getElem?_getD,
      List.getElem?_append_left (Nat.lt_of_lt_of_le inside long)]
  rw [beU32, beU32, same (by decide), same (by decide), same (by decide), same (by decide)]

theorem beU32_beBytes32 (v : UInt32) (rest : Bytes) : beU32 (beBytes32 v ++ rest) = v := by
  have below := v.toNat_lt
  apply UInt32.toNat_inj.mp
  rw [toNat_beU32]
  simp [beBytes32, UInt32.toNat_shiftRight, Nat.shiftRight_eq_div_pow]
  omega

theorem leU32_leBytes32 (v : UInt32) (rest : Bytes) : leU32 (leBytes32 v ++ rest) = v := by
  refine Eq.trans ?_ (beU32_beBytes32 v rest)
  change v.toUInt8.toUInt32 ||| (v >>> 8).toUInt8.toUInt32 <<< 8 |||
      (v >>> 16).toUInt8.toUInt32 <<< 16 ||| (v >>> 24).toUInt8.toUInt32 <<< 24 =
    (v >>> 24).toUInt8.toUInt32 <<< 24 ||| (v >>> 16).toUInt8.toUInt32 <<< 16 |||
      (v >>> 8).toUInt8.toUInt32 <<< 8 ||| v.toUInt8.toUInt32
  generalize v.toUInt8.toUInt32 = a
  generalize (v >>> 8).toUInt8.toUInt32 <<< 8 = b
  generalize (v >>> 16).toUInt8.toUInt32 <<< 16 = c
  generalize (v >>> 24).toUInt8.toUInt32 <<< 24 = d
  ac_rfl

theorem leU64_leBytes64 (v : UInt64) (rest : Bytes) : leU64 (leBytes64 v ++ rest) = v := by
  have below := v.toNat_lt
  have low : v.toNat % 2 ^ 32 < 2 ^ 32 := Nat.mod_lt _ (by decide)
  rw [leBytes64, List.append_assoc, leU64, leU32_leBytes32,
    List.drop_left' (length_leBytes32 _), leU32_leBytes32]
  apply UInt64.toNat_inj.mp
  simp only [UInt64.toNat_or, UInt64.toNat_shiftLeft, UInt32.toNat_toUInt64,
    UInt64.toNat_toUInt32, UInt64.toNat_shiftRight, UInt64.reduceToNat, Nat.reduceMod]
  have high : v.toNat / 2 ^ 32 * 2 ^ 32 < 2 ^ 64 := by omega
  rw [Nat.shiftRight_eq_div_pow, Nat.mod_eq_of_lt (by omega : v.toNat / 2 ^ 32 < 2 ^ 32),
    Nat.or_comm, Nat.shiftLeft_eq, Nat.mod_eq_of_lt high, ← Nat.shiftLeft_eq,
    ← Nat.shiftLeft_add_eq_or_of_lt low, Nat.shiftLeft_eq]
  omega

end Metal.Lib
