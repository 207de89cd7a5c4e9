import Mathlib.Data.List.Induction
import Mathlib.Tactic.IntervalCases
import Metal.Net.Ipv6

namespace Metal.Net.Ipv6

open Metal.Lib Function

/-! `pm_metal_net_ipv6_format`: every byte it stores, and that what it writes is
read back. -/

structure Writer where
  n : Nat
  stores : List (Nat × UInt8)

/-- `out[n++] = c` -/
def Writer.put (w : Writer) (c : UInt8) : Writer := ⟨w.n + 1, w.stores ++ [(w.n, c)]⟩

def digit (d : Nat) : UInt8 := if d < 10 then UInt8.ofNat (48 + d) else UInt8.ofNat (97 + (d - 10))

def revDigits : (room v : Nat) → Bytes
  | 0, _ => []
  | room + 1, v => if v = 0 then [] else digit (v &&& 0xf) :: revDigits room (v >>> 4)

def groupText (g : UInt16) : Bytes :=
  if g.toNat = 0 then [48] else (revDigits 4 g.toNat).reverse

def group (addr : Address) (i : Nat) : UInt16 :=
  beU16 [addr.toList.getD (i * 2) 0, addr.toList.getD (i * 2 + 1) 0]

/-- The groups from `i` on, `todo` of them. -/
def formatFrom (addr : Address) (outMax : Nat) : (todo i : Nat) → Writer → Writer × Bool
  | 0, _, w => ({ w with stores := w.stores ++ [(w.n, 0)] }, true)
  | todo + 1, i, w =>
      if i ≠ 0 ∧ w.n + 1 ≥ outMax then (w, false)
      else
        let w := if i ≠ 0 then w.put colon else w
        let tmp := groupText (group addr i)
        if w.n + tmp.length ≥ outMax then (w, false)
        else formatFrom addr outMax todo (i + 1) (tmp.foldl Writer.put w)

/-- What `pm_metal_net_ipv6_format` stores, and whether it returns 0. -/
def format (addr : Address) (outMax : Nat) : Writer × Bool :=
  if outMax < 4 then (⟨0, []⟩, false) else formatFrom addr outMax 8 0 ⟨0, [(0, 0)]⟩

def memory (stores : List (Nat × UInt8)) : Nat → Option UInt8 :=
  stores.foldl (fun m store => update m store.1 (some store.2)) fun _ => none

def Holds (stores : List (Nat × UInt8)) (s : CString) : Prop :=
  (∀ i, (inside : i < s.bytes.length) → memory stores i = some s.bytes[i]) ∧
    memory stores s.bytes.length = some 0

def written (text : Bytes) : Writer :=
  ⟨text.length, (0, 0) :: text.zipIdx.map fun (c, i) => (i, c)⟩

theorem put_written (text : Bytes) (c : UInt8) : (written text).put c = written (text ++ [c]) := by
  simp only [Writer.put, written, List.length_append, List.length_singleton, List.zipIdx_append,
    List.map_append, List.zipIdx_singleton, List.map_singleton, Nat.zero_add, List.cons_append]

theorem foldl_put_written (text more : Bytes) :
    more.foldl Writer.put (written text) = written (text ++ more) := by
  induction more generalizing text with
  | nil => rw [List.foldl_nil, List.append_nil]
  | cons c more ih =>
      rw [List.foldl_cons, put_written, ih, List.append_assoc, List.singleton_append]

theorem memory_put (text : Bytes) (c : UInt8) :
    memory ((written text).put c).stores =
      update (memory (written text).stores) text.length (some c) := by
  rw [memory, Writer.put, List.foldl_append]
  rfl

theorem memory_written (text : Bytes) {i : Nat} (inside : i < text.length) :
    memory (written text).stores i = some text[i] := by
  induction text using List.reverseRecOn with
  | nil => cases inside
  | append_singleton text c ih =>
      rw [← put_written, memory_put]
      by_cases last : i = text.length
      · subst last
        rw [update_self, List.getElem_concat_length rfl]
      · have before : i < text.length := by
          rw [List.length_append, List.length_singleton] at inside
          omega
        rw [update_of_ne last, ih before, List.getElem_append_left before]

theorem holds_written (s : CString) : Holds ((written s.bytes).put 0).stores s := by
  refine ⟨fun i inside => ?_, ?_⟩
  · rw [memory_put, update_of_ne inside.ne, memory_written s.bytes inside]
  · rw [memory_put, update_self]

def Writer.Within (outMax : Nat) (w : Writer) : Prop := ∀ store ∈ w.stores, store.1 < outMax

variable {outMax : Nat}

theorem within_written {text : Bytes} (some_ : 0 < outMax) (fits : text.length ≤ outMax) :
    (written text).Within outMax := by
  rintro store (_ | ⟨_, member⟩)
  · exact some_
  · obtain ⟨pair, found, rfl⟩ := List.mem_map.mp member
    exact Nat.lt_of_lt_of_le (List.snd_lt_of_mem_zipIdx found) fits

theorem Writer.Within.put {w : Writer} (within : w.Within outMax) (room : w.n < outMax)
    (c : UInt8) : (w.put c).Within outMax := by
  intro store member
  rcases List.mem_append.mp member with before | last
  · exact within store before
  · rw [List.mem_singleton.mp last]
    exact room

/-- The text of the groups from `i` on. -/
def textFrom (addr : Address) : (todo i : Nat) → Bytes
  | 0, _ => []
  | todo + 1, i =>
      (if i ≠ 0 then [colon] else []) ++ groupText (group addr i) ++ textFrom addr todo (i + 1)

def addressText (addr : Address) : Bytes := textFrom addr 8 0

theorem groupText_length_pos (g : UInt16) : 0 < (groupText g).length := by
  rw [groupText]
  split
  · decide
  · rename_i some_
    rw [List.length_reverse, revDigits, if_neg some_]
    exact Nat.succ_pos _

def separator (i : Nat) : Bytes := if i ≠ 0 then [colon] else []

theorem written_separator (text : Bytes) (i : Nat) :
    (if i ≠ 0 then (written text).put colon else written text) = written (text ++ separator i) := by
  rw [separator]
  split
  · exact put_written text colon
  · rw [List.append_nil]

theorem formatFrom_succ (addr : Address) (outMax todo i : Nat) (text : Bytes) :
    formatFrom addr outMax (todo + 1) i (written text) =
      if i ≠ 0 ∧ text.length + 1 ≥ outMax then (written text, false)
      else if (text ++ separator i).length + (groupText (group addr i)).length ≥ outMax then
        (written (text ++ separator i), false)
      else
        formatFrom addr outMax todo (i + 1)
          (written (text ++ separator i ++ groupText (group addr i))) := by
  rw [formatFrom]
  simp only [written_separator, foldl_put_written]
  rfl

def terminated (text : Bytes) : Writer :=
  { written text with stores := (written text).stores ++ [(text.length, 0)] }

theorem formatFrom_eq (addr : Address) (todo i : Nat) {text : Bytes} (room : text.length < outMax) :
    if text.length + (textFrom addr todo i).length < outMax then
      formatFrom addr outMax todo i (written text) =
        (terminated (text ++ textFrom addr todo i), true)
    else
      (formatFrom addr outMax todo i (written text)).2 = false ∧
        (formatFrom addr outMax todo i (written text)).1.Within outMax := by
  induction todo generalizing i text with
  | zero =>
      rw [textFrom, List.length_nil, Nat.add_zero, if_pos room, List.append_nil]
      rfl
  | succ todo ih =>
      have length : (textFrom addr (todo + 1) i).length =
          (separator i).length + (groupText (group addr i)).length +
            (textFrom addr todo (i + 1)).length := by
        rw [textFrom, List.length_append, List.length_append]
        rfl
      have digits := groupText_length_pos (group addr i)
      have total : (text ++ separator i).length = text.length + (separator i).length :=
        List.length_append
      rw [formatFrom_succ]
      by_cases full : i ≠ 0 ∧ text.length + 1 ≥ outMax
      · have colon_ : (separator i).length = 1 := by
          rw [separator, if_pos full.1]
          rfl
        rw [if_pos full, if_neg (by omega)]
        exact ⟨rfl, within_written (Nat.zero_lt_of_lt room) room.le⟩
      · rw [if_neg full]
        have fits : (text ++ separator i).length < outMax := by
          rw [List.length_append, separator]
          split
          · rename_i later
            exact Nat.not_le.mp fun bad => full ⟨later, bad⟩
          · exact room
        by_cases full' : (text ++ separator i).length + (groupText (group addr i)).length ≥ outMax
        · rw [if_pos full', if_neg (by omega)]
          exact ⟨rfl, within_written (Nat.zero_lt_of_lt room) fits.le⟩
        · have more : (text ++ separator i ++ groupText (group addr i)).length < outMax := by
            rw [List.length_append]
            exact Nat.not_le.mp full'
          have rest := ih (i + 1) more
          have whole : text ++ separator i ++ groupText (group addr i) ++ textFrom addr todo (i + 1) =
              text ++ textFrom addr (todo + 1) i := by
            rw [List.append_assoc, List.append_assoc, textFrom, List.append_assoc]
            rfl
          have sum : (text ++ separator i ++ groupText (group addr i)).length +
              (textFrom addr todo (i + 1)).length =
                text.length + (textFrom addr (todo + 1) i).length := by
            rw [← List.length_append, whole, List.length_append]
          rw [whole, sum] at rest
          rw [if_neg full']
          exact rest

theorem length_textFrom_ge (addr : Address) (todo i : Nat) :
    todo ≤ (textFrom addr todo i).length := by
  induction todo generalizing i with
  | zero => exact Nat.zero_le _
  | succ todo ih =>
      have rest := ih (i + 1)
      have digits := groupText_length_pos (group addr i)
      rw [textFrom, List.length_append, List.length_append]
      omega

/-- It succeeds where the text and its terminator fit, and stores nothing past
the end where they do not. -/
theorem format_eq (addr : Address) (outMax : Nat) :
    if (addressText addr).length + 1 ≤ outMax then
      format addr outMax = (terminated (addressText addr), true)
    else (format addr outMax).2 = false ∧ (format addr outMax).1.Within outMax := by
  have long : 8 ≤ (addressText addr).length := length_textFrom_ge addr 8 0
  rw [format]
  by_cases small : outMax < 4
  · rw [if_neg (by omega), if_pos small]
    exact ⟨rfl, fun store member => (List.not_mem_nil member).elim⟩
  · have room : ([] : Bytes).length < outMax :=
      Nat.lt_of_lt_of_le (by decide) (Nat.not_lt.mp small)
    have whole := formatFrom_eq addr 8 0 room
    rw [List.length_nil, Nat.zero_add, List.nil_append] at whole
    rw [if_neg small]
    exact whole

theorem hexv_digit {d : Nat} (small : d < 16) : hexv (digit d) = some d := by
  interval_cases d <;> rfl

theorem hexNumber_snoc (text : Bytes) (c : UInt8) :
    hexNumber (text ++ [c]) = 16 * hexNumber text + (hexv c).getD 0 := by
  rw [hexNumber, List.foldl_append]
  rfl

theorem revDigits_hextet (room : Nat) {v : Nat} (small : v < 16 ^ room) :
    (revDigits room v).length ≤ room ∧ (∀ c ∈ revDigits room v, (hexv c).isSome) ∧
      hexNumber (revDigits room v).reverse = v := by
  induction room generalizing v with
  | zero =>
      have zero : v = 0 := Nat.lt_one_iff.mp small
      exact ⟨Nat.le_refl 0, fun c member => (List.not_mem_nil member).elim, zero.symm⟩
  | succ room ih =>
      rw [revDigits]
      by_cases zero : v = 0
      · rw [if_pos zero]
        exact ⟨Nat.zero_le _, fun c member => (List.not_mem_nil member).elim, zero.symm⟩
      · have low : v &&& 0xf = v % 16 := Nat.and_two_pow_sub_one_eq_mod v 4
        have high : v >>> 4 = v / 16 := Nat.shiftRight_eq_div_pow v 4
        have digit_ : hexv (digit (v &&& 0xf)) = some (v % 16) := by
          rw [low]
          exact hexv_digit (Nat.mod_lt v (by decide))
        rw [Nat.pow_succ] at small
        obtain ⟨short, hex, value⟩ := ih (v := v >>> 4) (by omega)
        rw [if_neg zero]
        refine ⟨Nat.succ_le_succ short, fun c member => ?_, ?_⟩
        · rcases List.mem_cons.mp member with rfl | member
          · rw [digit_]
            rfl
          · exact hex c member
        · rw [List.reverse_cons, hexNumber_snoc, value, digit_, high, Option.getD_some]
          omega

theorem groupText_hextet (g : UInt16) : Hextet (groupText g) g := by
  obtain ⟨short, hex, value⟩ := revDigits_hextet 4 g.toNat_lt
  have some_ := List.ne_nil_of_length_pos (groupText_length_pos g)
  by_cases zero : g.toNat = 0
  · have text : groupText g = [48] := if_pos zero
    rw [text] at some_ ⊢
    refine ⟨some_, by decide, by decide +kernel, UInt16.toNat_inj.mp ?_⟩
    rw [zero]
    rfl
  · have text : groupText g = (revDigits 4 g.toNat).reverse := if_neg zero
    rw [text] at some_ ⊢
    refine ⟨some_, by rw [List.length_reverse]; exact short,
      fun c member => hex c (List.mem_reverse.mp member), ?_⟩
    rw [value, UInt16.ofNat_toNat]

def groupsFrom (addr : Address) : (todo i : Nat) → List UInt16
  | 0, _ => []
  | todo + 1, i => group addr i :: groupsFrom addr todo (i + 1)

theorem textFrom_series (addr : Address) (todo i : Nat) :
    ∃ text, textFrom addr (todo + 1) i = separator i ++ text ∧
      Series text (groupsFrom addr (todo + 1) i) := by
  induction todo generalizing i with
  | zero =>
      refine ⟨groupText (group addr i), ?_, .one (groupText_hextet _)⟩
      rw [textFrom, textFrom, List.append_nil]
      rfl
  | succ todo ih =>
      obtain ⟨rest, split, series⟩ := ih (i + 1)
      refine ⟨groupText (group addr i) ++ colon :: rest, ?_, .cons (groupText_hextet _) series⟩
      rw [textFrom, split, List.append_assoc]
      rfl

theorem beBytes16_beU16 (a b : UInt8) : beBytes16 (beU16 [a, b]) = [a, b] := by
  have first := a.toNat_lt
  have second := b.toNat_lt
  have value : (beU16 [a, b]).toNat = a.toNat * 2 ^ 8 + b.toNat := toNat_beU16 [a, b]
  have high : (beU16 [a, b] >>> 8).toUInt8 = a := by
    apply UInt8.toNat_inj.mp
    simp only [UInt16.toNat_toUInt8, UInt16.toNat_shiftRight, value, Nat.shiftRight_eq_div_pow,
      UInt16.reduceToNat, Nat.reduceMod]
    omega
  have low : (beU16 [a, b]).toUInt8 = b := by
    apply UInt8.toNat_inj.mp
    rw [UInt16.toNat_toUInt8, value]
    omega
  rw [beBytes16, high, low]

theorem groupsFrom_getD (addr : Address) (todo i : Nat) {j : Nat} (inside : j < todo) :
    (groupsFrom addr todo i).getD j 0 = group addr (i + j) := by
  induction todo generalizing i j with
  | zero => cases inside
  | succ todo ih =>
      cases j with
      | zero => rfl
      | succ j =>
          rw [groupsFrom, List.getD_cons_succ, ih (i + 1) (Nat.lt_of_succ_lt_succ inside),
            Nat.add_right_comm, Nat.add_assoc]

theorem address_groupsFrom (addr : Address) : address (groupsFrom addr 8 0) = addr := by
  suffices each : ∀ i : Fin 16, (address (groupsFrom addr 8 0))[i] = addr[i] by
    apply Vector.ext
    intro i inside
    exact each ⟨i, inside⟩
  intro i
  have inside : i.val / 2 < 8 := by omega
  have byte : addr.toList.getD i.val 0 = addr[i] := by
    rw [List.getD_eq_getElem?_getD, List.getElem?_eq_getElem (by simp), Option.getD_some,
      Vector.getElem_toList]
    rfl
  rw [address_get, groupsFrom_getD addr 8 0 inside, Nat.zero_add, part, group, beBytes16_beU16,
    ← byte]
  rcases Nat.mod_two_eq_zero_or_one i.val with even | odd
  · have place : i.val / 2 * 2 = i.val := by omega
    rw [even, place]
    rfl
  · have place : i.val / 2 * 2 + 1 = i.val := by omega
    rw [odd, place]
    rfl

theorem addressText_denotes (addr : Address) : Denotes (addressText addr) addr := by
  obtain ⟨text, split, series⟩ := textFrom_series addr 7 0
  have denotes := Denotes.full series rfl
  rw [address_groupsFrom] at denotes
  rw [addressText, split]
  exact denotes

theorem Series.nulFree {text : Bytes} {vs : List UInt16} (series : Series text vs) :
    (0 : UInt8) ∉ text := by
  have solid {text : Bytes} {v : UInt16} (group : Hextet text v) : (0 : UInt8) ∉ text :=
    fun member => absurd (group.hex 0 member) (by decide)
  induction series with
  | one group => exact solid group
  | cons group _ ih =>
      intro member
      rcases List.mem_append.mp member with first | second
      · exact solid group first
      · rcases List.mem_cons.mp second with separator | rest
        · exact absurd separator (by decide)
        · exact ih rest

def addressString (addr : Address) : CString :=
  ⟨addressText addr, by
    obtain ⟨text, split, series⟩ := textFrom_series addr 7 0
    rw [addressText, split]
    exact series.nulFree⟩

theorem Holds.unique {stores : List (Nat × UInt8)} {s t : CString} (first : Holds stores s)
    (second : Holds stores t) : s = t := by
  have within {s t : CString} (first : Holds stores s) (second : Holds stores t) :
      t.bytes.length ≤ s.bytes.length := by
    refine Nat.not_lt.mp fun longer => t.nulFree ?_
    have same := (second.1 _ longer).symm.trans first.2
    exact Option.some.inj same ▸ List.getElem_mem longer
  apply CString.ext
  apply List.ext_getElem (Nat.le_antisymm (within second first) (within first second))
  intro i inside inside'
  exact Option.some.inj ((first.1 i inside).symm.trans (second.1 i inside'))

theorem holds_terminated (addr : Address) :
    Holds (terminated (addressText addr)).stores (addressString addr) :=
  holds_written (addressString addr)

theorem within_terminated {addr : Address} (fits : (addressText addr).length + 1 ≤ outMax) :
    (terminated (addressText addr)).Within outMax :=
  (within_written (Nat.zero_lt_of_lt fits) (Nat.le_of_succ_le fits)).put fits 0

/-- Text of an address goes to it and back. -/
theorem format_roundtrip :
    (∀ (addr : Address) (outMax : Nat),
      (format addr outMax).1.Within outMax ∧
        ((format addr outMax).2 = true →
          ∃ s, Holds (format addr outMax).1.stores s ∧ parse true s = some addr) ∧
        ((format addr outMax).2 = true ↔ (addressText addr).length + 1 ≤ outMax)) ∧
      ∀ (s t : CString) (addr : Address) (outMax : Nat), parse true s = some addr →
        (format addr outMax).2 = true → Holds (format addr outMax).1.stores t →
          parse true t = some addr := by
  have read (addr : Address) : parse true (addressString addr) = some addr :=
    Denotes.parse (addressText_denotes addr)
  have made {addr : Address} {outMax : Nat} (ok : (format addr outMax).2 = true) :
      (addressText addr).length + 1 ≤ outMax := by
    have cases_ := format_eq addr outMax
    split at cases_
    · assumption
    · rw [cases_.1] at ok
      cases ok
  have wrote {addr : Address} {outMax : Nat} (fits : (addressText addr).length + 1 ≤ outMax) :
      format addr outMax = (terminated (addressText addr), true) := by
    have cases_ := format_eq addr outMax
    rw [if_pos fits] at cases_
    exact cases_
  refine ⟨fun addr outMax => ⟨?_, fun ok => ?_, made, fun fits => ?_⟩,
    fun s t addr outMax _ ok held => ?_⟩
  · have cases_ := format_eq addr outMax
    split at cases_
    · rename_i fits
      rw [cases_]
      exact within_terminated fits
    · exact cases_.2
  · rw [wrote (made ok)]
    exact ⟨addressString addr, holds_terminated addr, read addr⟩
  · rw [wrote fits]
  · rw [wrote (made ok)] at held
    rw [held.unique (holds_terminated addr)]
    exact read addr

end Metal.Net.Ipv6
