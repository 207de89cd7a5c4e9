import Mathlib.Algebra.Group.Int.Units
import Mathlib.Data.List.Basic
import Mathlib.Data.List.TakeWhile

namespace Metal.Lib

/-! C strings and byte buffers: a string is the bytes before its terminator. -/

abbrev Bytes := List UInt8

def ascii (text : String) : Bytes := text.toList.map fun c => UInt8.ofNat c.toNat

def newline : UInt8 := 10

def quote : UInt8 := 34

def comma : UInt8 := 44

def dot : UInt8 := 46

def slash : UInt8 := 47

def colon : UInt8 := 58

def equals : UInt8 := 61

def backslash : UInt8 := 92

def isDigit (c : UInt8) : Bool := 48 ≤ c && c ≤ 57

def lower (c : UInt8) : UInt8 := if 65 ≤ c ∧ c ≤ 90 then c + 32 else c

def hexDigit (n : UInt8) : UInt8 := if n < 10 then 48 + n else 87 + n

/-- `bytes` in a buffer of `n`, with zeros behind them. -/
def padded (bytes : Bytes) (n : Nat) : Bytes := bytes ++ List.replicate (n - bytes.length) 0

theorem ascii_ofList (chars : List Char) :
    ascii (String.ofList chars) = chars.map fun c => UInt8.ofNat c.toNat := by
  rw [ascii, String.toList_ofList]

structure CString where
  bytes : Bytes
  nulFree : (0 : UInt8) ∉ bytes
  deriving DecidableEq

namespace CString

def length (s : CString) : Nat := s.bytes.length

def empty : CString := ⟨[], by simp⟩

/-- `strncpy` of at most `n` bytes into a zeroed buffer of `n + 1`. -/
def strncpy (s : CString) (n : Nat) : CString :=
  ⟨s.bytes.take n, fun member => s.nulFree (List.mem_of_mem_take member)⟩

def drop (s : CString) (n : Nat) : CString :=
  ⟨s.bytes.drop n, fun member => s.nulFree (List.mem_of_mem_drop member)⟩

/-- `strncmp(s, t, strlen(t)) == 0` -/
def startsWith (s t : CString) : Bool := t.bytes.isPrefixOf s.bytes

/-- The string at the start of a buffer that is followed by a terminator. -/
def ofBytes (bytes : Bytes) : CString :=
  ⟨bytes.takeWhile (· ≠ 0), fun member => by
    have := List.mem_takeWhile_imp member
    simp at this⟩

@[ext] theorem ext {s t : CString} (same : s.bytes = t.bytes) : s = t := by
  cases s
  cases t
  congr

theorem ofBytes_append (s : CString) (rest : Bytes) :
    ofBytes (s.bytes ++ 0 :: rest) = s := by
  have inside : ∀ byte ∈ s.bytes, decide (byte ≠ 0) = true := by
    intro byte member
    rw [decide_eq_true_iff]
    rintro rfl
    exact s.nulFree member
  apply CString.ext
  change (s.bytes ++ 0 :: rest).takeWhile (· ≠ 0) = s.bytes
  rw [List.takeWhile_append_of_pos inside,
    List.takeWhile_cons_of_neg (by simp), List.append_nil]

theorem ofBytes_bytes (s : CString) : ofBytes s.bytes = s := by
  apply CString.ext
  refine List.takeWhile_eq_self_iff.mpr fun byte member => ?_
  rw [decide_eq_true_iff]
  rintro rfl
  exact s.nulFree member

theorem strncpy_length_le (s : CString) (n : Nat) : (s.strncpy n).length ≤ n :=
  List.length_take_le n s.bytes

theorem strncpy_of_length_le {s : CString} {n : Nat} (fits : s.length ≤ n) :
    s.strncpy n = s := by
  ext1
  exact List.take_of_length_le fits

end CString

/-- `memcpy` of `n` bytes to the start of the buffer `target`. -/
def memcpy (target source : Bytes) (n : Nat) : Bytes :=
  source.take n ++ target.drop n

theorem take_memcpy {target source : Bytes} {n : Nat}
    (readable : n ≤ source.length) :
    (memcpy target source n).take n = source.take n := by
  rw [memcpy, List.take_left' (List.length_take_of_le readable)]

end Metal.Lib
