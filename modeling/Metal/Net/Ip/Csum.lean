import Metal.Lib.Checksum

namespace Metal.Net.Ip

open Metal.Lib

/-! `net/ip/__wire__`: the checksums of a packet. -/

def pktMax : Nat := 8232

def csumAdd : Bytes → UInt32 → UInt32
  | a :: b :: rest, s => csumAdd rest (s + (a.toUInt32 <<< 8 ||| b.toUInt32))
  | [a], s => s + a.toUInt32 <<< 8
  | [], s => s

theorem toNat_carry (s : UInt32) :
    ((s &&& (0xffff : UInt32)) + s >>> 16).toNat = s.toNat % 65536 + s.toNat / 65536 := by
  have below := s.toNat_lt
  have low := Nat.and_two_pow_sub_one_eq_mod s.toNat 16
  have mask : (0xffff : UInt32).toNat = 2 ^ 16 - 1 := rfl
  have places : UInt32.toNat 16 % 32 = 16 := rfl
  simp only [UInt32.toNat_add, UInt32.toNat_and, UInt32.toNat_shiftRight, mask, low,
    places, Nat.shiftRight_eq_div_pow]
  omega

theorem carry_eq_zero (s : UInt32) : s >>> 16 = 0 ↔ s.toNat < 65536 := by
  rw [← UInt32.toNat_inj]
  simp [UInt32.toNat_shiftRight, Nat.shiftRight_eq_div_pow]

def csumFold (s : UInt32) : UInt16 :=
  if s >>> 16 ≠ 0 then csumFold ((s &&& (0xffff : UInt32)) + s >>> 16)
  else ~~~ s.toUInt16
termination_by s.toNat
decreasing_by
  rename_i carries
  have large := Nat.le_of_not_lt fun small => carries ((carry_eq_zero s).mpr small)
  rw [toNat_carry]
  omega

def ihl (pkt : Bytes) : Nat := (pkt.getD 0 0 &&& 0x0f).toNat * 4

def ipCsum (p : Bytes) : UInt16 := csumFold (csumAdd p 0)

def l4Csum (pkt : Bytes) (total : Nat) : UInt16 :=
  if total < ihl pkt + 8 then 0
  else
    let l4len := total - ihl pkt
    let s := csumAdd ((pkt.drop 12).take 8) 0
    let s := s + (pkt.getD 9 0).toUInt32
    let s := s + UInt32.ofNat l4len
    csumFold (csumAdd ((pkt.drop (ihl pkt)).take l4len) s)

/-- Where the transport keeps its checksum, for the transports that have one. -/
def csumAt (pkt : Bytes) : Option Nat :=
  if pkt.getD 9 0 = 6 then some (ihl pkt + 16)
  else if pkt.getD 9 0 = 17 then some (ihl pkt + 6)
  else none

def writeBe16 (pkt : Bytes) (at_ : Nat) (v : UInt16) : Bytes :=
  (pkt.set at_ (v >>> 8).toUInt8).set (at_ + 1) v.toUInt8

def l4Stamp (pkt : Bytes) (total : Nat) : Bytes :=
  match csumAt pkt with
  | none => pkt
  | some field =>
      if total < field + 2 then pkt
      else
        let zeroed := (pkt.set field 0).set (field + 1) 0
        let cs := l4Csum zeroed total
        let cs := if cs = 0 ∧ pkt.getD 9 0 = 17 then 0xffff else cs
        writeBe16 zeroed field cs

def l4CsumOk (pkt : Bytes) (total : Nat) : Bool :=
  match csumAt pkt with
  | none => true
  | some field =>
      if total < field + 2 then false
      else if pkt.getD 9 0 = 17 ∧ beU16 (pkt.drop field) = 0 then true
      else l4Csum pkt total = 0

theorem toNat_csumAdd (p : Bytes) (s : UInt32) :
    (csumAdd p s).toNat = (s.toNat + wordSum p) % 2 ^ 32 := by
  induction p using wordSum.induct generalizing s with
  | case1 =>
      simp only [csumAdd, wordSum]
      exact (Nat.mod_eq_of_lt s.toNat_lt).symm
  | case2 a =>
      have below := a.toNat_lt
      simp only [csumAdd, wordSum, UInt32.toNat_add, UInt32.toNat_shiftLeft,
        UInt8.toNat_toUInt32, Nat.shiftLeft_eq]
      change (s.toNat + a.toNat * 256 % 2 ^ 32) % 2 ^ 32 = _
      omega
  | case3 a b rest ih =>
      have high := a.toNat_lt
      have low : b.toNat < 2 ^ 8 := b.toNat_lt
      have word : (a.toUInt32 <<< 8 ||| b.toUInt32).toNat = a.toNat * 256 + b.toNat := by
        have joined := Nat.shiftLeft_add_eq_or_of_lt low a.toNat
        rw [Nat.shiftLeft_eq] at joined
        simp only [UInt32.toNat_or, UInt32.toNat_shiftLeft, UInt8.toNat_toUInt32,
          Nat.shiftLeft_eq]
        change a.toNat * 2 ^ 8 % 2 ^ 32 ||| b.toNat = _
        rw [Nat.mod_eq_of_lt (by omega), ← joined]
      rw [csumAdd, ih, UInt32.toNat_add, word, wordSum]
      omega

theorem toNat_csumFold (s : UInt32) :
    (csumFold s).toNat = 65535 - foldCarry s.toNat := by
  induction s using csumFold.induct with
  | case1 s carries ih =>
      have large := Nat.le_of_not_lt fun small => carries ((carry_eq_zero s).mpr small)
      rw [csumFold, if_pos carries, ih, toNat_carry, foldCarry.eq_def s.toNat,
        if_neg (Nat.not_lt.mpr large)]
  | case2 s none =>
      have small := (carry_eq_zero s).mp (not_not.mp none)
      rw [csumFold, if_neg none, foldCarry, if_pos small, UInt16.toNat_not,
        UInt32.toNat_toUInt16, Nat.mod_eq_of_lt small]
      rfl

theorem ihl_even (pkt : Bytes) : ihl pkt % 2 = 0 := by
  unfold ihl
  omega

variable {i : Nat}

theorem ihl_set {pkt : Bytes} (later : 0 < i) (b : UInt8) : ihl (pkt.set i b) = ihl pkt := by
  unfold ihl
  rw [List.getD_eq_getElem?_getD, List.getD_eq_getElem?_getD,
    List.getElem?_set_ne (Nat.ne_of_gt later)]

/-- What the transport checksum is about: the addresses, the protocol, the length and
the segment. -/
def pseudoSum (pkt : Bytes) (total : Nat) : Nat :=
  wordSum ((pkt.drop 12).take 8) + (pkt.getD 9 0).toNat + (total - ihl pkt) +
    wordSum ((pkt.drop (ihl pkt)).take (total - ihl pkt))

structure Transport (pkt : Bytes) (total field : Nat) : Prop where
  header : 20 ≤ ihl pkt
  found : csumAt pkt = some field
  room : field + 2 ≤ total
  inside : total ≤ pkt.length
  small : total ≤ pktMax

def Guarded (pkt : Bytes) (total i : Nat) : Prop :=
  (12 ≤ i ∧ i < 20) ∨ (ihl pkt ≤ i ∧ i < total)

section Transports

variable {pkt : Bytes} {total field : Nat}

theorem csumAt_cases (found : csumAt pkt = some field) :
    (pkt.getD 9 0 = 6 ∧ field = ihl pkt + 16) ∨
      (pkt.getD 9 0 = 17 ∧ field = ihl pkt + 6) := by
  unfold csumAt at found
  split at found
  · case isTrue tcp => exact Or.inl ⟨tcp, (Option.some.inj found).symm⟩
  · split at found
    · case isTrue udp => exact Or.inr ⟨udp, (Option.some.inj found).symm⟩
    · cases found

theorem csumAt_set (later : 12 ≤ i) (b : UInt8) : csumAt (pkt.set i b) = csumAt pkt := by
  have proto : (pkt.set i b).getD 9 0 = pkt.getD 9 0 := by
    rw [List.getD_eq_getElem?_getD, List.getD_eq_getElem?_getD,
      List.getElem?_set_ne (by omega)]
  unfold csumAt
  rw [proto, ihl_set (by omega)]

theorem Guarded.set {j : Nat} (guarded : Guarded pkt total i) (later : 0 < j) (b : UInt8) :
    Guarded (pkt.set j b) total i := by
  unfold Guarded
  rwa [ihl_set later]

section

variable (transport : Transport pkt total field)
include transport

theorem Transport.later (guarded : Guarded pkt total i) : 12 ≤ i := by
  have header := transport.header
  unfold Guarded at guarded
  omega

theorem Transport.set (later : 12 ≤ i) (b : UInt8) :
    Transport (pkt.set i b) total field where
  header := by rw [ihl_set (by omega)]; exact transport.header
  found := by rw [csumAt_set later]; exact transport.found
  room := transport.room
  inside := by rw [List.length_set]; exact transport.inside
  small := transport.small

theorem Transport.place : ihl pkt + 6 ≤ field ∧ field % 2 = 0 ∧ ihl pkt + 8 ≤ total := by
  have room := transport.room
  have even := ihl_even pkt
  rcases csumAt_cases transport.found with ⟨_, at_⟩ | ⟨_, at_⟩ <;> omega

theorem Transport.proto : 0 < (pkt.getD 9 0).toNat := by
  rcases csumAt_cases transport.found with ⟨proto, _⟩ | ⟨proto, _⟩ <;>
    rw [proto] <;> decide

theorem pseudoSum_set (guarded : Guarded pkt total i) (b : UInt8) :
    pseudoSum (pkt.set i b) total + weight i * (pkt.getD i 0).toNat =
      pseudoSum pkt total + weight i * b.toNat := by
  have header := transport.header
  have inside := transport.inside
  have room := transport.place.2.2
  have even := ihl_even pkt
  have later := transport.later guarded
  have proto : (pkt.set i b).getD 9 0 = pkt.getD 9 0 := by
    rw [List.getD_eq_getElem?_getD, List.getD_eq_getElem?_getD,
      List.getElem?_set_ne (by omega)]
  have at_drop (k n : Nat) (above : k ≤ i) (below : i < k + n) :
      ((pkt.drop k).take n).getD (i - k) 0 = pkt.getD i 0 := by
    rw [List.getD_eq_getElem?_getD, List.getElem?_take_of_lt (by omega),
      List.getElem?_drop, ← List.getD_eq_getElem?_getD, Nat.add_sub_cancel' above]
  have part (k n : Nat) (above : k ≤ i) (below : i < k + n)
      (within : k + n ≤ pkt.length) (start : k % 2 = 0) :
      wordSum (((pkt.set i b).drop k).take n) + weight i * (pkt.getD i 0).toNat =
        wordSum ((pkt.drop k).take n) + weight i * b.toNat := by
    have moved := wordSum_set ((pkt.drop k).take n) (i := i - k)
      (by rw [List.length_take, List.length_drop]; omega) b
    rw [weight_sub above start, at_drop k n above below] at moved
    rw [List.drop_set, if_neg (Nat.not_lt.mpr above), List.take_set]
    exact moved
  have rest (k n : Nat) (outside : i < k ∨ k + n ≤ i) :
      ((pkt.set i b).drop k).take n = (pkt.drop k).take n := by
    rw [List.drop_set]
    split
    · rfl
    · case isFalse above =>
        rw [List.take_set, List.set_eq_of_length_le]
        rw [List.length_take, List.length_drop]
        omega
  unfold pseudoSum
  rw [ihl_set (by omega), proto]
  rcases guarded with ⟨above, below⟩ | ⟨above, below⟩
  · have address := part 12 8 above below (by omega) rfl
    rw [rest (ihl pkt) (total - ihl pkt) (Or.inl (by omega))]
    omega
  · have segment := part (ihl pkt) (total - ihl pkt) above (by omega) (by omega) even
    rw [rest 12 8 (Or.inr (by omega))]
    omega

theorem toNat_l4Csum :
    (l4Csum pkt total).toNat = 65535 - foldCarry (pseudoSum pkt total) := by
  have small := transport.small
  have inside := transport.inside
  have room := transport.place.2.2
  have proto := (pkt.getD 9 0).toNat_lt
  have addresses := wordSum_le ((pkt.drop 12).take 8)
  have segment := wordSum_le ((pkt.drop (ihl pkt)).take (total - ihl pkt))
  have short : ((pkt.drop 12).take 8).length ≤ 8 := List.length_take_le _ _
  have long : ((pkt.drop (ihl pkt)).take (total - ihl pkt)).length ≤ total :=
    Nat.le_trans (List.length_take_le _ _) (Nat.sub_le _ _)
  have len : (UInt32.ofNat (total - ihl pkt)).toNat = total - ihl pkt := by
    rw [UInt32.toNat_ofNat']
    exact Nat.mod_eq_of_lt (by unfold pktMax at small; omega)
  -- The sum of at most `pktMax` bytes does not come near 32 bits.
  have sum : (csumAdd ((pkt.drop (ihl pkt)).take (total - ihl pkt))
      (csumAdd ((pkt.drop 12).take 8) 0 + (pkt.getD 9 0).toUInt32 +
        UInt32.ofNat (total - ihl pkt))).toNat = pseudoSum pkt total := by
    rw [toNat_csumAdd, UInt32.toNat_add, UInt32.toNat_add, toNat_csumAdd, len,
      UInt8.toNat_toUInt32, UInt32.toNat_zero]
    unfold pseudoSum
    unfold pktMax at small
    omega
  rw [l4Csum, if_neg (Nat.not_lt.mpr room), toNat_csumFold, sum]

theorem l4Csum_eq_zero : l4Csum pkt total = 0 ↔ 65535 ∣ pseudoSum pkt total := by
  have proto := transport.proto
  have positive : 0 < pseudoSum pkt total := by
    unfold pseudoSum
    omega
  have below := foldCarry_lt (pseudoSum pkt total)
  rw [← foldCarry_eq_ones positive, ← UInt16.toNat_inj, toNat_l4Csum transport]
  change 65535 - _ = 0 ↔ _
  omega

end

theorem getD_set (inside : i < pkt.length) (b : UInt8) : (pkt.set i b).getD i 0 = b := by
  rw [List.getD_eq_getElem?_getD, List.getElem?_set_self inside, Option.getD_some]

theorem getD_set_ne {j : Nat} (other : i ≠ j) (b : UInt8) :
    (pkt.set i b).getD j 0 = pkt.getD j 0 := by
  rw [List.getD_eq_getElem?_getD, List.getD_eq_getElem?_getD, List.getElem?_set_ne other]

theorem beU16_drop (i : Nat) :
    beU16 (pkt.drop i) = beU16 [pkt.getD i 0, pkt.getD (i + 1) 0] := by
  simp [beU16, List.getD_eq_getElem?_getD]

theorem beU16_writeBe16 (inside : i + 2 ≤ pkt.length) (v : UInt16) :
    beU16 ((writeBe16 pkt i v).drop i) = v := by
  have first : (writeBe16 pkt i v).getD i 0 = (v >>> 8).toUInt8 := by
    unfold writeBe16
    rw [getD_set_ne (by omega), getD_set (by omega)]
  have second : (writeBe16 pkt i v).getD (i + 1) 0 = v.toUInt8 := by
    unfold writeBe16
    rw [getD_set (by rw [List.length_set]; omega)]
  rw [beU16_drop, first, second]
  exact beU16_beBytes16 v []

section Transport

variable (transport : Transport pkt total field)
include transport

theorem pseudoSum_writeBe16 (v : UInt16) :
    pseudoSum (writeBe16 ((pkt.set field 0).set (field + 1) 0) field v) total =
      pseudoSum ((pkt.set field 0).set (field + 1) 0) total + v.toNat := by
  obtain ⟨above, even, _⟩ := transport.place
  have header := transport.header
  have room := transport.room
  have inside := transport.inside
  have below := v.toNat_lt
  let zeroed := (pkt.set field 0).set (field + 1) 0
  have cleared : Transport zeroed total field :=
    (transport.set (by omega) 0).set (by omega) 0
  have first : Guarded zeroed total field :=
    (Guarded.set (Guarded.set (Or.inr ⟨by omega, by omega⟩) (by omega) _) (by omega) _)
  have second : Guarded zeroed total (field + 1) :=
    (Guarded.set (Guarded.set (Or.inr ⟨by omega, by omega⟩) (by omega) _) (by omega) _)
  have high := pseudoSum_set cleared first (v >>> 8).toUInt8
  have low := pseudoSum_set (cleared.set (i := field) (by omega) (v >>> 8).toUInt8)
    (second.set (j := field) (by omega) (v >>> 8).toUInt8) v.toUInt8
  have highZero : zeroed.getD field 0 = 0 := by
    change ((pkt.set field 0).set (field + 1) 0).getD field 0 = 0
    rw [getD_set_ne (by omega), getD_set (by omega)]
  have lowZero : (zeroed.set field (v >>> 8).toUInt8).getD (field + 1) 0 = 0 := by
    rw [getD_set_ne (by omega)]
    exact getD_set (by rw [List.length_set]; omega) 0
  have whole : 256 * (v >>> 8).toUInt8.toNat + v.toUInt8.toNat = v.toNat := by
    simp only [UInt16.toNat_toUInt8, UInt16.toNat_shiftRight, Nat.shiftRight_eq_div_pow]
    change 256 * (v.toNat / 256 % 256) + v.toNat % 256 = v.toNat
    omega
  have highWeight : weight field = 256 := if_pos even
  have lowWeight : weight (field + 1) = 1 := if_neg (by omega)
  rw [highZero, highWeight] at high
  rw [lowZero, lowWeight] at low
  change pseudoSum ((zeroed.set field _).set (field + 1) _) total = pseudoSum zeroed total + _
  have none : (0 : UInt8).toNat = 0 := rfl
  omega

/-- A stamped packet: the field holds a value that is zero only for TCP and makes the
sum a multiple of 65535. -/
theorem l4Stamp_eq :
    ∃ cs, l4Stamp pkt total =
        writeBe16 ((pkt.set field 0).set (field + 1) 0) field cs ∧
      (pkt.getD 9 0 = 17 → cs ≠ 0) ∧ 65535 ∣ pseudoSum (l4Stamp pkt total) total := by
  obtain ⟨above, _, _⟩ := transport.place
  have header := transport.header
  have cleared : Transport ((pkt.set field 0).set (field + 1) 0) total field :=
    (transport.set (by omega) 0).set (by omega) 0
  let zeroed := (pkt.set field 0).set (field + 1) 0
  have value := toNat_l4Csum cleared
  have below := foldCarry_lt (pseudoSum zeroed total)
  have same := foldCarry_mod (pseudoSum zeroed total)
  let cs := if l4Csum zeroed total = 0 ∧ pkt.getD 9 0 = 17 then 0xffff
    else l4Csum zeroed total
  have stamped : l4Stamp pkt total = writeBe16 zeroed field cs := by
    unfold l4Stamp
    rw [transport.found]
    exact if_neg (Nat.not_lt.mpr transport.room)
  refine ⟨cs, stamped, ?_, ?_⟩
  · intro udp zero
    by_cases ones : l4Csum zeroed total = 0
    · have : cs = 0xffff := if_pos ⟨ones, udp⟩
      rw [this] at zero
      exact absurd zero (by decide)
    · have : cs = l4Csum zeroed total := if_neg fun both => ones both.1
      exact ones (this ▸ zero)
  · rw [stamped, pseudoSum_writeBe16 transport]
    change 65535 ∣ pseudoSum zeroed total + cs.toNat
    change (l4Csum zeroed total).toNat = 65535 - foldCarry (pseudoSum zeroed total) at value
    by_cases ones : l4Csum zeroed total = 0 ∧ pkt.getD 9 0 = 17
    · have all : cs.toNat = 65535 := by
        rw [show cs = 0xffff from if_pos ones]
        rfl
      rw [ones.1, UInt16.toNat_zero] at value
      omega
    · rw [show cs = l4Csum zeroed total from if_neg ones]
      omega

theorem l4Stamp_frame
    (outside : i ≠ field ∧ i ≠ field + 1) : (l4Stamp pkt total).getD i 0 = pkt.getD i 0 := by
  obtain ⟨cs, stamped, _⟩ := l4Stamp_eq transport
  rw [stamped, writeBe16, getD_set_ne outside.2.symm, getD_set_ne outside.1.symm,
    getD_set_ne outside.2.symm, getD_set_ne outside.1.symm]

theorem l4CsumOk_iff :
    l4CsumOk pkt total = true ↔
      (pkt.getD 9 0 = 17 ∧ beU16 (pkt.drop field) = 0) ∨ 65535 ∣ pseudoSum pkt total := by
  unfold l4CsumOk
  rw [transport.found, ← l4Csum_eq_zero transport]
  simp only [Nat.not_lt.mpr transport.room, if_false]
  split
  · case isTrue unchecked => exact iff_of_true rfl (Or.inl unchecked)
  · case isFalse checked =>
      rw [decide_eq_true_iff]
      exact (or_iff_right checked).symm

end Transport

/-- The receiver takes a stamped packet, and no longer takes it once one of the guarded
bytes has changed, for UDP one outside the checksum field. -/
theorem l4Stamp_guards (transport : Transport pkt total field) :
    l4CsumOk (l4Stamp pkt total) total = true ∧
      ∀ i b, Guarded pkt total i →
        (pkt.getD 9 0 = 17 → i ≠ field ∧ i ≠ field + 1) →
        b ≠ (l4Stamp pkt total).getD i 0 →
        l4CsumOk ((l4Stamp pkt total).set i b) total = false := by
  obtain ⟨cs, stamped, written, divides⟩ := l4Stamp_eq transport
  obtain ⟨above, _, _⟩ := transport.place
  have header := transport.header
  have room := transport.room
  have inside := transport.inside
  let zeroed := (pkt.set field 0).set (field + 1) 0
  have length : zeroed.length = pkt.length := by
    rw [List.length_set, List.length_set]
  have proto : (l4Stamp pkt total).getD 9 0 = pkt.getD 9 0 :=
    l4Stamp_frame transport ⟨by omega, by omega⟩
  have covers (i : Nat) : Guarded pkt total i → Guarded (l4Stamp pkt total) total i := by
    intro guarded
    rw [stamped]
    exact (((guarded.set (by omega) _).set (by omega) _).set (by omega) _).set (by omega) _
  have sealed : Transport (l4Stamp pkt total) total field := by
    rw [stamped]
    exact (((transport.set (by omega) _).set (by omega) _).set (by omega) _).set
      (by omega) _
  refine ⟨(l4CsumOk_iff sealed).mpr (Or.inr divides), ?_⟩
  intro i b guarded outside changed
  have later := transport.later guarded
  have within : i < (l4Stamp pkt total).length := by
    have := sealed.inside
    have := sealed.header
    have := sealed.place.2.2
    have := covers i guarded
    unfold Guarded at this
    omega
  apply Bool.eq_false_iff.mpr
  intro taken
  rcases (l4CsumOk_iff (sealed.set later b)).mp taken with ⟨udp, unchecked⟩ | still
  · rw [getD_set_ne (by omega), proto] at udp
    obtain ⟨notFirst, notSecond⟩ := outside udp
    rw [beU16_drop, getD_set_ne notFirst, getD_set_ne notSecond, ← beU16_drop, stamped,
      beU16_writeBe16 (by rw [length]; omega)] at unchecked
    exact written udp unchecked
  · have moved := pseudoSum_set sealed (covers i guarded) b
    exact changed (byte_seen moved divides still).symm

def oddPacket : Bytes :=
  [0x45, 0, 0, 29, 0, 0, 0, 0, 64, 17, 0, 0, 10, 0, 0, 1, 10, 0, 0, 2,
    0x30, 0x39, 0, 53, 0, 9, 0, 0, 0xff]

theorem l4Stamp_guards_odd :
    l4CsumOk (l4Stamp oddPacket 29) 29 = true ∧
      l4CsumOk ((l4Stamp oddPacket 29).set 28 0) 29 = false := by
  have transport : Transport oddPacket 29 26 := by
    constructor <;> decide
  have guards := l4Stamp_guards transport
  refine ⟨guards.1, guards.2 28 0 (Or.inr ?_) (fun _ => ?_) ?_⟩
  · decide
  · decide
  · rw [l4Stamp_frame transport (by decide)]
    decide

end Transports

end Metal.Net.Ip
