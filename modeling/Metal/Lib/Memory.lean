import Metal.Lib.CString

namespace Metal.Lib

/-! Writing into the middle of a block of bytes. -/

def writeAt (at_ : Nat) (new target : Bytes) : Bytes :=
  target.take at_ ++ new ++ target.drop (at_ + new.length)

variable {new target : Bytes} {at_ : Nat}

theorem length_writeAt (fits : at_ + new.length ≤ target.length) :
    (writeAt at_ new target).length = target.length := by
  rw [writeAt, List.length_append, List.length_append, List.length_take, List.length_drop]
  omega

theorem take_writeAt (new : Bytes) (fits : at_ ≤ target.length) :
    (writeAt at_ new target).take (at_ + new.length) = target.take at_ ++ new := by
  have front : (target.take at_ ++ new).length = at_ + new.length := by
    rw [List.length_append, List.length_take, Nat.min_eq_left fits]
  rw [writeAt, List.take_left' front]

theorem getElem?_writeAt (fits : at_ ≤ target.length) (offset : Nat) :
    (writeAt at_ new target)[offset]? =
      if at_ ≤ offset ∧ offset < at_ + new.length then new[offset - at_]?
      else target[offset]? := by
  have front : (target.take at_).length = at_ := by
    rw [List.length_take, Nat.min_eq_left fits]
  rw [writeAt, List.append_assoc]
  rcases Nat.lt_or_ge offset at_ with before | after
  · rw [if_neg (by omega), List.getElem?_append_left (by omega), List.getElem?_take_of_lt before]
  · rw [List.getElem?_append_right (by omega), front]
    by_cases inside : offset < at_ + new.length
    · rw [if_pos ⟨after, inside⟩, List.getElem?_append_left (by omega)]
    · rw [if_neg (fun both => inside both.2), List.getElem?_append_right (by omega),
        List.getElem?_drop]
      congr 1
      omega

theorem writeAt_append (front : Bytes) {old : Bytes} (rest : Bytes)
    (same : new.length = old.length) :
    writeAt front.length new (front ++ (old ++ rest)) = front ++ (new ++ rest) := by
  rw [writeAt, List.take_left, List.append_assoc, ← List.drop_drop, List.drop_left, same,
    List.drop_left]

/-- `n` bytes from `offset` on; `none` where the block does not go that far. -/
def slice (block : Bytes) (offset n : Nat) : Option Bytes :=
  if offset + n ≤ block.length then some ((block.drop offset).take n) else none

theorem slice_append (front mid rest : Bytes) :
    slice (front ++ (mid ++ rest)) front.length mid.length = some mid := by
  rw [slice, if_pos (by simp only [List.length_append]; omega), List.drop_left, List.take_left]

theorem slice_writeAt (fits : at_ + new.length ≤ target.length) :
    slice (writeAt at_ new target) at_ new.length = some new := by
  rw [slice, if_pos (by rw [length_writeAt fits]; exact fits), writeAt, List.append_assoc,
    List.drop_left' (by rw [List.length_take]; omega), List.take_left]

theorem slice_writeAt_of_apart {offset n : Nat} (fits : at_ + new.length ≤ target.length)
    (apart : offset + n ≤ at_ ∨ at_ + new.length ≤ offset) :
    slice (writeAt at_ new target) offset n = slice target offset n := by
  rw [slice, slice, length_writeAt fits]
  split
  · congr 1
    apply List.ext_getElem?
    intro i
    rw [List.getElem?_take, List.getElem?_take, List.getElem?_drop, List.getElem?_drop]
    split
    · rw [getElem?_writeAt (by omega), if_neg (by omega)]
    · rfl
  · rfl

theorem slot_apart {slot other width n m : Nat} (different : slot ≠ other) (small : n ≤ width)
    (small' : m ≤ width) :
    slot * width + n ≤ other * width ∨ other * width + m ≤ slot * width := by
  rcases Nat.lt_or_gt_of_ne different with before | after
  · left
    have : (slot + 1) * width ≤ other * width := Nat.mul_le_mul_right width before
    rw [Nat.succ_mul] at this
    omega
  · right
    have : (other + 1) * width ≤ slot * width := Nat.mul_le_mul_right width after
    rw [Nat.succ_mul] at this
    omega

structure Outside where
  place : Nat
  deriving DecidableEq

def byteAt (buf : Bytes) (i : Nat) : Except Outside UInt8 :=
  if i < buf.length then .ok (buf.getD i 0) else .error ⟨i⟩

def bytesAt (buf : Bytes) (i n : Nat) : Except Outside Bytes :=
  if i + n ≤ buf.length then .ok ((buf.drop i).take n) else .error ⟨i⟩

theorem byteAt_of_lt {buf : Bytes} {i : Nat} (inside : i < buf.length) :
    byteAt buf i = .ok (buf.getD i 0) := if_pos inside

theorem byteAt_of_getElem? {buf : Bytes} {i : Nat} {b : UInt8} (here : buf[i]? = some b) :
    byteAt buf i = .ok b := by
  obtain ⟨inside, -⟩ := List.getElem?_eq_some_iff.mp here
  rw [byteAt_of_lt inside, List.getD_eq_getElem?_getD, here]
  rfl

theorem bytesAt_of_le {buf : Bytes} {i n : Nat} (inside : i + n ≤ buf.length) :
    bytesAt buf i n = .ok ((buf.drop i).take n) := if_pos inside

end Metal.Lib
