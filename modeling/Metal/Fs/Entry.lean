import Metal.Lib.Bits
import Metal.Lib.Words
import Metal.Fs.Fat

namespace Metal.Fs

open Metal.Lib

/-! The file allocation table as packed numbers of 12, 16 or 28 bits, and what
`fat_entry` reads of it. -/

def FatBits.stride : FatBits → Nat
  | .fat12 => 12
  | .fat16 => 16
  | .fat32 => 32

def FatBits.width : FatBits → Nat
  | .fat12 => 12
  | .fat16 => 16
  | .fat32 => 28

/-- A byte of the table, which begins at the sector `reserved`. -/
def fatByte (disk : Disk) (reserved k : Nat) : UInt8 :=
  match disk (reserved + k / fatSec) with
  | some sec => sec.bytes.getD (k % fatSec) 0
  | none => 0

def entryAt (disk : Disk) (v : Vol) (clus : Nat) : Nat :=
  bitsAt (fatByte disk v.reserved.toNat) (v.bits.stride * clus) v.bits.width

def EntryReads (disk : Disk) (v : Vol) (clus : Nat) : Prop :=
  ∀ bit, bit < v.bits.stride →
    (disk (v.reserved.toNat + (v.bits.stride * clus + bit) / 8 / fatSec)).isSome

theorem Sector.byte_eq (sec : Sector) {i : Nat} (inside : i < fatSec) :
    sec.byte i = .ok (sec.bytes.getD i 0) := by
  have some_byte : sec.bytes[i]? = some (sec.bytes.getD i 0) := by
    rw [List.getD_eq_getElem?_getD, List.getElem?_eq_getElem (by rw [sec.length_eq]; exact inside),
      Option.getD_some]
  rw [byte, some_byte]

theorem fatByte_eq {disk : Disk} {reserved k : Nat} {sec : Sector}
    (reads : disk (reserved + k / fatSec) = some sec) :
    fatByte disk reserved k = sec.bytes.getD (k % fatSec) 0 := by
  rw [fatByte, reads]

theorem toNat_pair (low high : UInt8) :
    (low.toUInt32 ||| high.toUInt32 <<< 8).toNat = 2 ^ 8 * high.toNat + low.toNat := by
  have wide : high.toNat <<< 8 % 2 ^ 32 = high.toNat <<< 8 := by
    have := high.toNat_lt
    rw [Nat.shiftLeft_eq]
    omega
  simp only [UInt32.toNat_or, UInt32.toNat_shiftLeft, UInt8.toNat_toUInt32, UInt32.reduceToNat,
    Nat.reduceMod]
  rw [wide, Nat.or_comm, ← Nat.shiftLeft_add_eq_or_of_lt low.toNat_lt, Nat.shiftLeft_eq,
    Nat.mul_comm]

theorem toNat_pair16 (low high : UInt8) :
    (low.toUInt16 ||| high.toUInt16 <<< 8).toNat = 2 ^ 8 * high.toNat + low.toNat := by
  have wide : high.toNat <<< 8 % 2 ^ 16 = high.toNat <<< 8 := by
    have := high.toNat_lt
    rw [Nat.shiftLeft_eq]
    omega
  simp only [UInt16.toNat_or, UInt16.toNat_shiftLeft, UInt8.toNat_toUInt16, UInt16.reduceToNat,
    Nat.reduceMod]
  rw [wide, Nat.or_comm, ← Nat.shiftLeft_add_eq_or_of_lt low.toNat_lt, Nat.shiftLeft_eq,
    Nat.mul_comm]

theorem toNat_quad (first second third fourth : UInt8) :
    (first.toUInt32 ||| second.toUInt32 <<< 8 ||| third.toUInt32 <<< 16 |||
      fourth.toUInt32 <<< 24).toNat =
    2 ^ 8 * (2 ^ 8 * (2 ^ 8 * fourth.toNat + third.toNat) + second.toNat) + first.toNat := by
  have same : first.toUInt32 ||| second.toUInt32 <<< 8 ||| third.toUInt32 <<< 16 |||
      fourth.toUInt32 <<< 24 = beU32 [fourth, third, second, first] := by
    change _ = fourth.toUInt32 <<< 24 ||| third.toUInt32 <<< 16 ||| second.toUInt32 <<< 8 |||
      first.toUInt32
    generalize second.toUInt32 <<< 8 = b
    generalize third.toUInt32 <<< 16 = c
    generalize fourth.toUInt32 <<< 24 = d
    ac_rfl
  rw [same, toNat_beU32]
  change fourth.toNat * 2 ^ 24 + third.toNat * 2 ^ 16 + second.toNat * 2 ^ 8 + first.toNat = _
  omega

theorem toNat_half (clus : UInt32) (low high : UInt8) :
    (half clus low high).toNat =
      (2 ^ 8 * high.toNat + low.toNat) >>> (4 * (clus.toNat % 2)) % 2 ^ 12 := by
  have mask (x : UInt32) : (x &&& 0xfff).toNat = x.toNat % 2 ^ 12 := by
    rw [UInt32.toNat_and]
    exact Nat.and_two_pow_sub_one_eq_mod x.toNat 12
  have parity : clus &&& 1 = 0 ↔ clus.toNat % 2 = 0 := by
    rw [← UInt32.toNat_inj, UInt32.toNat_and]
    exact iff_of_eq (congrArg (· = 0) (Nat.and_one_is_mod clus.toNat))
  rw [half]
  split
  case isTrue odd =>
    have odd : clus.toNat % 2 = 1 := by
      have := mt parity.mpr odd
      omega
    rw [mask, UInt32.toNat_shiftRight, toNat_pair, odd]
    rfl
  case isFalse even =>
    rw [mask, toNat_pair, parity.mp (not_not.mp even)]
    rfl

theorem Sector.le16_eq (sec : Sector) {i : Nat} (inside : i + 1 < fatSec) :
    sec.le16 i =
      .ok ((sec.bytes.getD i 0).toUInt16 ||| (sec.bytes.getD (i + 1) 0).toUInt16 <<< 8) := by
  rw [le16, byte_eq sec (by omega), byte_eq sec inside]
  rfl

theorem Sector.le32_eq (sec : Sector) {i : Nat} (inside : i + 3 < fatSec) :
    sec.le32 i =
      .ok ((sec.bytes.getD i 0).toUInt32 ||| (sec.bytes.getD (i + 1) 0).toUInt32 <<< 8 |||
        (sec.bytes.getD (i + 2) 0).toUInt32 <<< 16 |||
          (sec.bytes.getD (i + 3) 0).toUInt32 <<< 24) := by
  rw [le32, byte_eq sec (by omega), byte_eq sec (by omega), byte_eq sec (by omega),
    byte_eq sec inside]
  rfl

theorem entryIn_total (disk : Disk) (bits : FatBits) (clus lba : UInt32) {o : Nat}
    (inside : o < fatSec) : ∃ next, entryIn disk bits clus lba o = .ok next := by
  rw [entryIn]
  cases disk lba.toNat with
  | none => exact ⟨0, rfl⟩
  | some sec =>
      cases bits with
      | fat12 =>
          dsimp only
          split
          case isTrue =>
            cases disk (lba + 1).toNat with
            | none => exact ⟨0, rfl⟩
            | some nxt =>
                dsimp only
                rw [sec.byte_eq inside, nxt.byte_eq (by decide)]
                exact ⟨_, rfl⟩
          case isFalse within =>
            rw [sec.byte_eq inside, sec.byte_eq (Nat.lt_of_not_le within)]
            exact ⟨_, rfl⟩
      | fat16 =>
          dsimp only
          split
          case isTrue => exact ⟨0, rfl⟩
          case isFalse within =>
            rw [sec.le16_eq (Nat.lt_of_not_le within)]
            exact ⟨_, rfl⟩
      | fat32 =>
          dsimp only
          split
          case isTrue => exact ⟨0, rfl⟩
          case isFalse within =>
            rw [sec.le32_eq (Nat.lt_of_not_le within)]
            exact ⟨_, rfl⟩

theorem fatEntry_total (disk : Disk) (reserved : UInt32) (bits : FatBits) (clus : UInt32) :
    ∃ next, fatEntry disk reserved bits clus = .ok next := by
  refine entryIn_total disk bits clus _ ?_
  rw [UInt32.toNat_mod]
  exact Nat.mod_lt _ (by decide)

variable {disk : Disk} {v : Vol} {clus : UInt32}

theorem toNat_offset (small : clus < v.bits.eoc) :
    (v.bits.offset clus).toNat = v.bits.stride * clus.toNat / 8 ∧
      v.bits.stride * clus.toNat / 8 < 2 ^ 30 := by
  rw [UInt32.lt_iff_toNat_lt] at small
  cases bits : v.bits <;> rw [bits] at small
  case fat12 =>
    have small : clus.toNat < 0xff8 := small
    have same : 12 * clus.toNat / 8 = clus.toNat + clus.toNat / 2 := by omega
    change (clus.toNat + clus.toNat / 2) % 2 ^ 32 = 12 * clus.toNat / 8 ∧
      12 * clus.toNat / 8 < 2 ^ 30
    rw [same, Nat.mod_eq_of_lt (by omega)]
    omega
  case fat16 =>
    have small : clus.toNat < 0xfff8 := small
    change (clus.toNat * 2) % 2 ^ 32 = 16 * clus.toNat / 8 ∧ 16 * clus.toNat / 8 < 2 ^ 30
    omega
  case fat32 =>
    have small : clus.toNat < 0x0ffffff8 := small
    change (clus.toNat * 4) % 2 ^ 32 = 32 * clus.toNat / 8 ∧ 32 * clus.toNat / 8 < 2 ^ 30
    omega

theorem littleAt_two (bytes : Nat → UInt8) (offset : Nat) :
    littleAt bytes offset 2 = 2 ^ 8 * (bytes (offset + 1)).toNat + (bytes offset).toNat := by
  rw [littleAt, littleAt, littleAt, Nat.mul_zero, Nat.zero_add]

theorem littleAt_four (bytes : Nat → UInt8) (offset : Nat) :
    littleAt bytes offset 4 = 2 ^ 8 * (2 ^ 8 * (2 ^ 8 * (bytes (offset + 3)).toNat +
      (bytes (offset + 2)).toNat) + (bytes (offset + 1)).toNat) + (bytes offset).toNat := by
  rw [littleAt, littleAt, littleAt_two]

theorem entryIn_fat12 {base off : Nat} {lba : UInt32} (here : lba.toNat = base + off / fatSec)
    (next : (lba + 1).toNat = lba.toNat + 1)
    (first : (disk (base + off / fatSec)).isSome)
    (second : (disk (base + (off + 1) / fatSec)).isSome) :
    entryIn disk .fat12 clus lba (off % fatSec) =
      .ok (half clus (fatByte disk base off) (fatByte disk base (off + 1))) := by
  obtain ⟨sec, first⟩ := Option.isSome_iff_exists.mp first
  obtain ⟨nxt, second⟩ := Option.isSome_iff_exists.mp second
  have low : (off % fatSec) < fatSec := Nat.mod_lt off (by decide)
  rw [entryIn, here, first, fatByte_eq first, fatByte_eq second]
  dsimp only
  split
  case isTrue last =>
    have later : (off + 1) / fatSec = off / fatSec + 1 := by
      simp only [fatSec] at last ⊢
      omega
    have start : (off + 1) % fatSec = 0 := by
      simp only [fatSec] at last ⊢
      omega
    rw [next, here, Nat.add_assoc, ← later, second, start]
    dsimp only
    rw [sec.byte_eq low, nxt.byte_eq (by decide)]
    rfl
  case isFalse within =>
    have within := Nat.lt_of_not_le within
    have same : (off + 1) / fatSec = off / fatSec := by
      simp only [fatSec] at within ⊢
      omega
    have after : (off + 1) % fatSec = off % fatSec + 1 := by
      simp only [fatSec] at within ⊢
      omega
    rw [same, first] at second
    cases second
    rw [sec.byte_eq low, sec.byte_eq within, after]
    rfl

theorem entryIn_fat16 (clus : UInt32) {base off : Nat} {lba : UInt32}
    (here : lba.toNat = base + off / fatSec)
    (even : off % 2 = 0) (reads : (disk (base + off / fatSec)).isSome) :
    ∃ next, entryIn disk .fat16 clus lba (off % fatSec) = .ok next ∧
      next.toNat = littleAt (fatByte disk base) off 2 := by
  obtain ⟨sec, reads⟩ := Option.isSome_iff_exists.mp reads
  have within : off % fatSec + 1 < fatSec := by
    simp only [fatSec]
    omega
  have same : (off + 1) / fatSec = off / fatSec := by
    simp only [fatSec]
    omega
  have after : (off + 1) % fatSec = off % fatSec + 1 := by
    simp only [fatSec]
    omega
  rw [entryIn, here, reads]
  dsimp only
  rw [if_neg (Nat.not_le.mpr within), sec.le16_eq within, littleAt_two, fatByte_eq reads,
    fatByte_eq (same ▸ reads), after]
  exact ⟨_, rfl, (UInt16.toNat_toUInt32 _).trans (toNat_pair16 _ _)⟩

theorem entryIn_fat32 (clus : UInt32) {base off : Nat} {lba : UInt32}
    (here : lba.toNat = base + off / fatSec)
    (even : off % 4 = 0) (reads : (disk (base + off / fatSec)).isSome) :
    ∃ next, entryIn disk .fat32 clus lba (off % fatSec) = .ok next ∧
      next.toNat = littleAt (fatByte disk base) off 4 % 2 ^ 28 := by
  obtain ⟨sec, reads⟩ := Option.isSome_iff_exists.mp reads
  have within : off % fatSec + 3 < fatSec := by
    simp only [fatSec]
    omega
  have same (i : Nat) (small : i < 4) : (off + i) / fatSec = off / fatSec := by
    simp only [fatSec]
    omega
  have after (i : Nat) (small : i < 4) : (off + i) % fatSec = off % fatSec + i := by
    simp only [fatSec]
    omega
  have byte (i : Nat) (small : i < 4) :
      fatByte disk base (off + i) = sec.bytes.getD (off % fatSec + i) 0 := by
    rw [fatByte_eq (same i small ▸ reads), after i small]
  rw [entryIn, here, reads]
  dsimp only
  rw [if_neg (Nat.not_le.mpr within), sec.le32_eq within, littleAt_four, fatByte_eq reads,
    byte 1 (by decide), byte 2 (by decide), byte 3 (by decide), ← toNat_quad]
  refine ⟨_, rfl, ?_⟩
  rw [UInt32.toNat_and]
  exact Nat.and_two_pow_sub_one_eq_mod _ 28

theorem fatEntry_eq (small : clus < v.bits.eoc) (reads : EntryReads disk v clus.toNat) :
    ∃ next, fatEntry disk v.reserved v.bits clus = .ok next ∧
      next.toNat = entryAt disk v clus.toNat := by
  have reserved := v.reserved_lt
  obtain ⟨offset, below⟩ := toNat_offset small
  have lba : (v.reserved + v.bits.offset clus / 512).toNat =
      v.reserved.toNat + v.bits.stride * clus.toNat / 8 / fatSec := by
    rw [UInt32.toNat_add, UInt32.toNat_div, offset]
    change (v.reserved.toNat + v.bits.stride * clus.toNat / 8 / 512) % 2 ^ 32 = _
    exact Nat.mod_eq_of_lt (by omega)
  have o : (v.bits.offset clus % 512).toNat = v.bits.stride * clus.toNat / 8 % fatSec := by
    rw [UInt32.toNat_mod, offset]
    rfl
  have next_lba : (v.reserved + v.bits.offset clus / 512 + 1).toNat =
      (v.reserved + v.bits.offset clus / 512).toNat + 1 := by
    rw [UInt32.toNat_add, lba]
    change (v.reserved.toNat + v.bits.stride * clus.toNat / 8 / 512 + 1) % 2 ^ 32 = _
    exact Nat.mod_eq_of_lt (by omega)
  rw [fatEntry, o, entryAt]
  rw [EntryReads] at reads
  revert lba next_lba
  generalize v.reserved + v.bits.offset clus / 512 = sector
  intro lba next_lba
  cases bits : v.bits <;> rw [bits] at lba reads <;>
    dsimp only [FatBits.stride, FatBits.width] at lba reads ⊢
  case fat12 =>
    have first := reads 0 (by decide)
    have second := reads 11 (by decide)
    have last : (12 * clus.toNat + 11) / 8 = 12 * clus.toNat / 8 + 1 := by omega
    have start : 12 * clus.toNat = 8 * (12 * clus.toNat / 8) + 4 * (clus.toNat % 2) := by omega
    rw [last] at second
    refine ⟨_, entryIn_fat12 lba next_lba first second, ?_⟩
    rw [toNat_half, ← littleAt_two, ← bitsAt_eq _ _ (by omega), ← start]
  case fat16 =>
    have start : 16 * clus.toNat = 8 * (16 * clus.toNat / 8) + 0 := by omega
    obtain ⟨next, found, value⟩ := entryIn_fat16 clus lba
      (show 16 * clus.toNat / 8 % 2 = 0 by omega) (reads 0 (by decide))
    refine ⟨next, found, ?_⟩
    have short : littleAt (fatByte disk v.reserved.toNat) (16 * clus.toNat / 8) 2 < 2 ^ 16 :=
      littleAt_lt _ _ 2
    conv => rhs; rw [start]
    rw [value, bitsAt_eq _ _ (show 0 + 16 ≤ 8 * 2 by decide), Nat.shiftRight_zero,
      Nat.mod_eq_of_lt short]
  case fat32 =>
    have start : 32 * clus.toNat = 8 * (32 * clus.toNat / 8) + 0 := by omega
    obtain ⟨next, found, value⟩ := entryIn_fat32 clus lba
      (show 32 * clus.toNat / 8 % 4 = 0 by omega) (reads 0 (by decide))
    refine ⟨next, found, ?_⟩
    conv => rhs; rw [start]
    rw [value, bitsAt_eq _ _ (show 0 + 28 ≤ 8 * 4 by decide), Nat.shiftRight_zero]

end Metal.Fs
