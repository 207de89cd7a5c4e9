import Metal.Lib.Align
import Metal.Fw.Memmap

namespace Metal.Fw.Memmap

open Metal.Lib

/-! What the picked range is: the largest aligned piece of a usable record
outside the avoided range. -/

def fedBytes (memory : Nat → UInt8) (fed : Fed) : Bytes :=
  (fedMmap memory fed).getD []

section Piece

variable (map : Bytes) (avoidLo avoidHi : UInt64)

/-- The range from `a` of `n` bytes lies in the record, which is usable. -/
def Record.Holds (record : Record) (a n : Nat) : Prop :=
  record.type = 1 ∧ record.base.toNat ≤ a ∧
    a + n ≤ record.base.toNat + record.len.toNat

/-- The range from `a` of `n` bytes may be used. -/
structure Usable (a n : Nat) : Prop where
  aligned : 4096 ∣ a
  fits : a + n ≤ 2 ^ 64
  inside : ∃ record ∈ records map, record.Holds a n
  disjoint : avoidHi ≤ avoidLo ∨ a + n ≤ avoidLo.toNat ∨ avoidHi.toNat ≤ a

structure Piece (a n : Nat) : Prop extends Usable map avoidLo avoidHi a n where
  big : 32 * 1024 ≤ n

/-- A piece of a record that ends before the last byte of the address space. -/
structure LowPiece (a n : Nat) : Prop extends Piece map avoidLo avoidHi a n where
  low : ∃ record ∈ records map, record.Holds a n ∧
    record.base.toNat + record.len.toNat < 2 ^ 64

end Piece

/-- The range that `pick` returns is usable; before it is cut to `want`, as a
pick without a wish returns it, it is a largest piece; without a piece nothing
is picked. -/
def PicksLargest (memory : Nat → UInt8) (fed : Fed)
    (avoidLo avoidHi want : UInt64) : Prop :=
  let map := fedBytes memory fed
  match pick memory fed avoidLo avoidHi want with
  | none => ∀ a n, ¬ Piece map avoidLo avoidHi a n
  | some (base, len) =>
      Usable map avoidLo avoidHi base.toNat len.toNat ∧
        ∃ n, pick memory fed avoidLo avoidHi 0 = some (base, n) ∧
          Piece map avoidLo avoidHi base.toNat n.toNat ∧
          (∀ a m, Piece map avoidLo avoidHi a m → m ≤ n.toNat) ∧
          len.toNat = if want = 0 then n.toNat else min n.toNat want.toNat

/-- No record that reaches the end of the address space has the largest piece,
and a part that starts in the last 4095 bytes ends no later than the largest
piece is long. -/
def ClearOfTop (map : Bytes) (avoidLo avoidHi : UInt64) : Prop :=
  (∀ a n, Piece map avoidLo avoidHi a n →
      ∃ a' n', LowPiece map avoidLo avoidHi a' n' ∧ n ≤ n') ∧
    ∀ part ∈ (records map).flatMap (parts avoidLo avoidHi),
      2 ^ 64 - 4096 < part.1.toNat → part.1 < part.2 →
        ∃ a n, Piece map avoidLo avoidHi a n ∧ part.2.toNat ≤ n

def offer (part : UInt64 × UInt64) : Option Best :=
  if part.2 ≤ part.1 then none
  else
    let a := alignUpU64 part.1 4096
    if a ≥ part.2 then none
    else if part.2 - a < 32 * 1024 then none
    else some ⟨a, part.2 - a⟩

theorem consider_eq (best : Best) (part : UInt64 × UInt64) :
    consider best part =
      match offer part with
      | none => best
      | some range => if range.src > best.src then range else best := by
  by_cases empty : part.2 ≤ part.1
  · simp [consider, offer, empty]
  · by_cases past : alignUpU64 part.1 4096 ≥ part.2
    · simp [consider, offer, empty, past]
    · by_cases small : part.2 - alignUpU64 part.1 4096 < 32768
      · simp [consider, offer, empty, past, small]
      · simp [consider, offer, empty, past, small]

theorem foldl_consider (l : List (UInt64 × UInt64)) (best : Best) :
    (l.foldl consider best = best ∨
        ∃ part ∈ l, offer part = some (l.foldl consider best)) ∧
      best.src ≤ (l.foldl consider best).src ∧
      ∀ part ∈ l, ∀ range ∈ offer part, range.src ≤ (l.foldl consider best).src := by
  induction l generalizing best with
  | nil => exact ⟨.inl rfl, UInt64.le_refl _, by simp⟩
  | cons part rest ih =>
      obtain ⟨from_, above, largest⟩ := ih (consider best part)
      rw [List.foldl_cons]
      have step : (consider best part = best ∨ offer part = some (consider best part)) ∧
          best.src ≤ (consider best part).src ∧
          ∀ range ∈ offer part, range.src ≤ (consider best part).src := by
        rw [consider_eq]
        cases offered : offer part with
        | none => exact ⟨.inl rfl, UInt64.le_refl _, by simp⟩
        | some range =>
            by_cases larger : range.src > best.src
            · simp [larger, UInt64.le_of_lt larger]
            · simp [larger, UInt64.not_lt.mp larger]
      refine ⟨?_, UInt64.le_trans step.2.1 above, ?_⟩
      · rcases from_ with same | ⟨later, member, offered⟩
        · rcases step.1 with kept | offered
          · exact .inl (same.trans kept)
          · exact .inr ⟨part, List.mem_cons_self, by rw [same]; exact offered⟩
        · exact .inr ⟨later, List.mem_cons_of_mem _ member, offered⟩
      · rintro later (_ | ⟨_, member⟩) range offered
        · exact UInt64.le_trans (step.2.2 range offered) above
        · exact largest later member range offered

variable {record : Record} {part : UInt64 × UInt64}

theorem parts_low {avoidLo avoidHi : UInt64} (low : record.base.toNat + record.len.toNat < 2 ^ 64)
    (member : part ∈ parts avoidLo avoidHi record) :
    record.type = 1 ∧ record.base.toNat ≤ part.1.toNat ∧
      part.2.toNat ≤ record.base.toNat + record.len.toNat ∧
      (avoidHi ≤ avoidLo ∨ part.2 ≤ avoidLo ∨ avoidHi ≤ part.1) := by
  have stop : (record.base + record.len).toNat =
      record.base.toNat + record.len.toNat := by
    rw [UInt64.toNat_add, Nat.mod_eq_of_lt low]
  unfold parts at member
  split at member
  · rename_i usable
    refine ⟨usable.1, ?_⟩
    simp only [UInt64.le_iff_toNat_le, UInt64.lt_iff_toNat_lt, ge_iff_le, gt_iff_lt,
      stop] at member ⊢
    split at member
    · obtain rfl := List.mem_singleton.mp member
      simp only [stop]
      omega
    · simp only [List.mem_cons, List.not_mem_nil, or_false] at member
      rcases member with rfl | rfl
      · dsimp only
        split
        · omega
        · rw [stop]
          omega
      · dsimp only
        rw [stop]
        split <;> omega
  · cases member

theorem parts_wrapped {avoidLo avoidHi : UInt64}
    (wraps : 2 ^ 64 ≤ record.base.toNat + record.len.toNat)
    (member : part ∈ parts avoidLo avoidHi record) : part.2 ≤ part.1 := by
  have stop : (record.base + record.len).toNat =
      record.base.toNat + record.len.toNat - 2 ^ 64 := by
    have := record.base.toNat_lt
    have := record.len.toNat_lt
    rw [UInt64.toNat_add]
    omega
  have short := record.len.toNat_lt
  unfold parts at member
  split at member
  · simp only [UInt64.le_iff_toNat_le, UInt64.lt_iff_toNat_lt, ge_iff_le, gt_iff_lt,
      stop] at member ⊢
    split at member
    · obtain rfl := List.mem_singleton.mp member
      simp only [stop]
      omega
    · simp only [List.mem_cons, List.not_mem_nil, or_false] at member
      rcases member with rfl | rfl
      · dsimp only
        split
        · omega
        · rw [stop]
          omega
      · dsimp only
        rw [stop]
        split <;> omega
  · cases member

variable {n : Nat}

theorem parts_cover {avoidLo avoidHi : UInt64}
    (low : record.base.toNat + record.len.toNat < 2 ^ 64) {a : Nat} (holds : record.Holds a n)
    (positive : 0 < n) (disjoint : avoidHi ≤ avoidLo ∨ a + n ≤ avoidLo.toNat ∨ avoidHi.toNat ≤ a) :
    ∃ part ∈ parts avoidLo avoidHi record,
      part.1.toNat ≤ a ∧ a + n ≤ part.2.toNat := by
  obtain ⟨usable, first, last⟩ := holds
  have stop : (record.base + record.len).toNat =
      record.base.toNat + record.len.toNat := by
    rw [UInt64.toNat_add, Nat.mod_eq_of_lt low]
  have filled : record.len ≠ 0 := by
    intro empty
    rw [empty, UInt64.toNat_zero] at last
    omega
  unfold parts
  rw [if_pos ⟨usable, filled⟩]
  simp only [UInt64.le_iff_toNat_le, UInt64.lt_iff_toNat_lt, ge_iff_le, gt_iff_lt,
    stop] at disjoint ⊢
  split
  · exact ⟨_, List.mem_singleton_self _, first, stop ▸ last⟩
  · rcases disjoint with empty | below | above
    · omega
    · refine ⟨_, List.mem_cons_self, first, ?_⟩
      dsimp only
      split
      · exact below
      · exact stop ▸ last
    · refine ⟨_, List.mem_cons_of_mem _ List.mem_cons_self, ?_, stop ▸ last⟩
      dsimp only
      split
      · exact above
      · exact first

theorem offer_eq_some {range : Best} :
    offer part = some range ↔
      part.1.toNat < part.2.toNat ∧ range.base = alignUpU64 part.1 4096 ∧
        range.base.toNat + range.src.toNat = part.2.toNat ∧
        32 * 1024 ≤ range.src.toNat := by
  obtain ⟨base, src⟩ := range
  have quota : (32 * 1024 : UInt64).toNat = 32 * 1024 := rfl
  generalize up : alignUpU64 part.1 4096 = a
  have shape : offer part = some ⟨base, src⟩ ↔
      ¬ part.2 ≤ part.1 ∧ ¬ a ≥ part.2 ∧ ¬ part.2 - a < 32 * 1024 ∧
        a = base ∧ part.2 - a = src := by
    simp only [offer, up, Option.ite_none_left_eq_some, Option.some.injEq, Best.mk.injEq]
  rw [shape, UInt64.not_le, UInt64.lt_iff_toNat_lt]
  dsimp only
  refine and_congr_right fun _ => ⟨?_, ?_⟩
  · rintro ⟨past, small, rfl, rfl⟩
    have below := UInt64.le_of_lt (UInt64.not_le.mp past)
    have size := UInt64.toNat_sub_of_le _ _ below
    rw [UInt64.le_iff_toNat_le] at below
    rw [UInt64.not_lt, UInt64.le_iff_toNat_le] at small
    exact ⟨rfl, by omega, by omega⟩
  · rintro ⟨rfl, sum, big⟩
    have below : base ≤ part.2 := by
      rw [UInt64.le_iff_toNat_le]
      omega
    have size : part.2 - base = src := by
      apply UInt64.toNat_inj.mp
      rw [UInt64.toNat_sub_of_le _ _ below]
      omega
    refine ⟨?_, ?_, rfl, size⟩
    · rw [ge_iff_le, UInt64.not_le, UInt64.lt_iff_toNat_lt]
      omega
    · rw [size, UInt64.not_lt, UInt64.le_iff_toNat_le]
      omega

/-- A part that starts below the last page offers what is left of it from the
next multiple of 4096 on. -/
theorem offer_aligned {range : Best} (start : part.1.toNat ≤ 2 ^ 64 - 4096)
    (offered : offer part = some range) :
    4096 ∣ range.base.toNat ∧ part.1.toNat ≤ range.base.toNat := by
  have up := toNat_page_up part.1
  rw [if_pos start, ← alignUpU64, ← (offer_eq_some.mp offered).2.1] at up
  rw [up]
  exact ⟨Nat.dvd_mul_left .., by omega⟩

theorem offer_covers {a : Nat} (aligned : 4096 ∣ a) (big : 32 * 1024 ≤ n)
    (first : part.1.toNat ≤ a) (last : a + n ≤ part.2.toNat) :
    ∃ range, offer part = some range ∧ n ≤ range.src.toNat := by
  have fits := part.2.toNat_lt
  have start : part.1.toNat ≤ 2 ^ 64 - 4096 := by omega
  have up := toNat_page_up part.1
  rw [if_pos start, ← alignUpU64] at up
  obtain ⟨page, rfl⟩ := aligned
  have below : (alignUpU64 part.1 4096).toNat ≤ 4096 * page := by omega
  generalize rounded : alignUpU64 part.1 4096 = base at up below
  have size : (part.2 - base).toNat = part.2.toNat - base.toNat :=
    UInt64.toNat_sub_of_le _ _ (UInt64.le_iff_toNat_le.mpr (by omega))
  refine ⟨⟨base, part.2 - base⟩,
    offer_eq_some.mpr ⟨by omega, rounded.symm, ?_, ?_⟩, ?_⟩
  all_goals
    dsimp only
    omega

theorem offer_wrapped (start : 2 ^ 64 - 4096 < part.1.toNat) (filled : part.1 < part.2) :
    offer part = some ⟨0, part.2⟩ := by
  have above := UInt64.lt_iff_toNat_lt.mp filled
  refine offer_eq_some.mpr ⟨above, ?_, Nat.zero_add _, ?_⟩
  · apply UInt64.toNat_inj.mp
    rw [alignUpU64, toNat_page_up, if_neg (by omega)]
    rfl
  · dsimp only
    omega

theorem Usable.shrink {map : Bytes} {avoidLo avoidHi : UInt64} {a m : Nat}
    (usable : Usable map avoidLo avoidHi a n) (less : m ≤ n) :
    Usable map avoidLo avoidHi a m where
  aligned := usable.aligned
  fits := (Nat.add_le_add_left less a).trans usable.fits
  inside := by
    obtain ⟨record, member, type, first, last⟩ := usable.inside
    exact ⟨record, member, type, first, (Nat.add_le_add_left less a).trans last⟩
  disjoint := usable.disjoint.imp_right (Or.imp_left (by omega))

theorem Piece.low_of_zero {map : Bytes} {avoidLo avoidHi : UInt64}
    (piece : Piece map avoidLo avoidHi 0 n) : LowPiece map avoidLo avoidHi 0 n where
  toPiece := piece
  low := by
    obtain ⟨record, member, holds⟩ := piece.inside
    refine ⟨record, member, holds, ?_⟩
    have first := holds.2.1
    have := record.len.toNat_lt
    omega

section Offers

variable {map : Bytes} {avoidLo avoidHi : UInt64}

theorem lowPiece_of_offer {range : Best}
    (member : part ∈ (records map).flatMap (parts avoidLo avoidHi))
    (start : part.1.toNat ≤ 2 ^ 64 - 4096) (offered : offer part = some range) :
    LowPiece map avoidLo avoidHi range.base.toNat range.src.toNat := by
  obtain ⟨record, visited, member⟩ := List.mem_flatMap.mp member
  obtain ⟨filled, -, sum, big⟩ := offer_eq_some.mp offered
  obtain ⟨aligned, first⟩ := offer_aligned start offered
  have low : record.base.toNat + record.len.toNat < 2 ^ 64 := by
    by_contra wraps
    have empty := parts_wrapped (Nat.le_of_not_lt wraps) member
    rw [UInt64.le_iff_toNat_le] at empty
    omega
  obtain ⟨type, after, stop, disjoint⟩ := parts_low low member
  have holds : record.Holds range.base.toNat range.src.toNat :=
    ⟨type, after.trans first, sum ▸ stop⟩
  refine ⟨⟨⟨aligned, ?_, ⟨record, visited, holds⟩, ?_⟩, big⟩,
    ⟨record, visited, holds, low⟩⟩
  · have := holds.2.2
    omega
  · rw [sum]
    simp only [UInt64.le_iff_toNat_le] at disjoint
    rw [UInt64.le_iff_toNat_le]
    omega

theorem LowPiece.offered {a : Nat} (piece : LowPiece map avoidLo avoidHi a n) :
    ∃ part ∈ (records map).flatMap (parts avoidLo avoidHi),
      ∃ range, offer part = some range ∧ n ≤ range.src.toNat := by
  obtain ⟨record, visited, holds, low⟩ := piece.low
  have big := piece.big
  obtain ⟨part, member, first, last⟩ :=
    parts_cover low holds (by omega) piece.disjoint
  exact ⟨part, List.mem_flatMap.mpr ⟨record, visited, member⟩,
    offer_covers piece.aligned big first last⟩

end Offers

def bestOf (map : Bytes) (avoidLo avoidHi : UInt64) : Best :=
  ((records map).flatMap (parts avoidLo avoidHi)).foldl consider ⟨0, 0⟩

theorem records_of_short {map : Bytes} (short : map.length < 24) :
    records map = [] := by
  unfold records
  cases map.length with
  | zero => rfl
  | succ fuel => exact if_neg (Nat.not_le.mpr short)

/-- An avoided range that ends before it starts is empty, as one that ends
where it starts. -/
theorem parts_normal (avoidLo avoidHi : UInt64) :
    parts avoidLo (if avoidHi < avoidLo then avoidLo else avoidHi) =
      parts avoidLo avoidHi := by
  split
  · rename_i before
    funext record
    simp [parts, UInt64.le_of_lt before]
  · rfl

theorem pick_eq (memory : Nat → UInt8) (fed : Fed)
    (avoidLo avoidHi want : UInt64) :
    pick memory fed avoidLo avoidHi want =
      let best := bestOf (fedBytes memory fed) avoidLo avoidHi
      if best.src = 0 then none
      else some (best.base, if want ≠ 0 ∧ best.src > want then want else best.src) := by
  unfold pick fedBytes bestOf
  cases fedMmap memory fed with
  | none => rfl
  | some map =>
      simp only [Option.getD_some, parts_normal]
      split
      · rename_i short
        rw [records_of_short short]
        rfl
      · rfl

theorem clip_toNat (n want : UInt64) :
    (if want ≠ 0 ∧ n > want then want else n).toNat =
      if want = 0 then n.toNat else min n.toNat want.toNat := by
  by_cases any : want = 0
  · rw [if_neg fun both => both.1 any, if_pos any]
  · rw [if_neg any]
    by_cases more : n > want
    · rw [if_pos ⟨any, more⟩, Nat.min_eq_right]
      exact Nat.le_of_lt (UInt64.lt_iff_toNat_lt.mp more)
    · rw [if_neg fun both => more both.2, Nat.min_eq_left]
      exact UInt64.le_iff_toNat_le.mp (UInt64.not_lt.mp more)

def BestPiece (map : Bytes) (avoidLo avoidHi : UInt64) : Prop :=
  let best := bestOf map avoidLo avoidHi
  (best.src ≠ 0 → Piece map avoidLo avoidHi best.base.toNat best.src.toNat) ∧
    ∀ a n, Piece map avoidLo avoidHi a n → n ≤ best.src.toNat

theorem picksLargest_iff_bestPiece (memory : Nat → UInt8) (fed : Fed)
    (avoidLo avoidHi want : UInt64) :
    PicksLargest memory fed avoidLo avoidHi want ↔
      BestPiece (fedBytes memory fed) avoidLo avoidHi := by
  unfold PicksLargest BestPiece
  simp only [pick_eq]
  generalize bestOf (fedBytes memory fed) avoidLo avoidHi = best
  by_cases empty : best.src = 0
  · simp only [empty, if_true, UInt64.toNat_zero, Nat.le_zero_eq, ne_eq, not_true_eq_false,
      false_imp_iff, true_and]
    refine ⟨fun absent a n piece => absurd piece (absent a n), fun none_ a n piece => ?_⟩
    have := piece.big
    have := none_ a n piece
    omega
  · simp only [if_neg empty, clip_toNat, Option.some.injEq, Prod.mk.injEq, true_and]
    constructor
    · rintro ⟨-, n, unclipped, piece, largest, -⟩
      simp only [ne_eq, not_true_eq_false, false_and, if_false] at unclipped
      subst unclipped
      exact ⟨fun _ => piece, largest⟩
    · rintro ⟨piece, largest⟩
      refine ⟨(piece empty).toUsable.shrink ?_, best.src, by simp, piece empty, largest, rfl⟩
      split
      · exact le_rfl
      · exact Nat.min_le_left ..

section Best

variable {map : Bytes} {avoidLo avoidHi : UInt64} {best : Best}

/-- What `bestOf` is, in terms of what the parts offer. -/
structure LargestOffer (map : Bytes) (avoidLo avoidHi : UInt64) (best : Best) :
    Prop where
  offered : best.src ≠ 0 → ∃ part ∈ (records map).flatMap (parts avoidLo avoidHi),
    offer part = some best
  largest : ∀ part ∈ (records map).flatMap (parts avoidLo avoidHi),
    ∀ range, offer part = some range → range.src.toNat ≤ best.src.toNat

theorem bestOf_largest (map : Bytes) (avoidLo avoidHi : UInt64) :
    LargestOffer map avoidLo avoidHi (bestOf map avoidLo avoidHi) := by
  obtain ⟨from_, -, largest⟩ :=
    foldl_consider ((records map).flatMap (parts avoidLo avoidHi)) ⟨0, 0⟩
  refine ⟨fun filled => from_.resolve_left fun start => filled ?_, ?_⟩
  · rw [bestOf, start]
  · intro part member range offered
    exact UInt64.le_iff_toNat_le.mp (largest part member range offered)

theorem LargestOffer.clear (chosen : LargestOffer map avoidLo avoidHi best)
    (piece : best.src ≠ 0 → Piece map avoidLo avoidHi best.base.toNat best.src.toNat)
    (most : ∀ a n, Piece map avoidLo avoidHi a n → n ≤ best.src.toNat) :
    ClearOfTop map avoidLo avoidHi := by
  have filled {n : Nat} (big : 0 < n) (less : n ≤ best.src.toNat) : best.src ≠ 0 := by
    intro empty
    rw [empty, UInt64.toNat_zero] at less
    omega
  constructor
  · intro a n aPiece
    have less := most a n aPiece
    have some_ := filled (lt_of_lt_of_le (by decide) aPiece.big) less
    obtain ⟨part, member, offered⟩ := chosen.offered some_
    refine ⟨best.base.toNat, best.src.toNat, ?_, less⟩
    by_cases start : part.1.toNat ≤ 2 ^ 64 - 4096
    · exact lowPiece_of_offer member start offered
    · have wrapped := offer_wrapped (Nat.lt_of_not_le start)
        (UInt64.lt_iff_toNat_lt.mpr (offer_eq_some.mp offered).1)
      have zero : best.base.toNat = 0 := by
        rw [← Option.some.inj (wrapped.symm.trans offered)]
        rfl
      have whole := piece some_
      rw [zero] at whole ⊢
      exact whole.low_of_zero
  · intro part member start nonempty
    have less : part.2.toNat ≤ best.src.toNat :=
      chosen.largest part member _ (offer_wrapped start nonempty)
    have above := UInt64.lt_iff_toNat_lt.mp nonempty
    exact ⟨_, _, piece (filled (by omega) less), less⟩

theorem LargestOffer.piece (chosen : LargestOffer map avoidLo avoidHi best)
    (clear : ClearOfTop map avoidLo avoidHi) :
    (best.src ≠ 0 → Piece map avoidLo avoidHi best.base.toNat best.src.toNat) ∧
      ∀ a n, Piece map avoidLo avoidHi a n → n ≤ best.src.toNat := by
  have low (a n : Nat) (aPiece : LowPiece map avoidLo avoidHi a n) :
      n ≤ best.src.toNat := by
    obtain ⟨part, member, range, offered, less⟩ := aPiece.offered
    exact less.trans (chosen.largest part member range offered)
  have most (a n : Nat) (aPiece : Piece map avoidLo avoidHi a n) :
      n ≤ best.src.toNat := by
    obtain ⟨a', n', lowPiece, less⟩ := clear.1 a n aPiece
    exact less.trans (low a' n' lowPiece)
  refine ⟨fun filled => ?_, most⟩
  obtain ⟨part, member, offered⟩ := chosen.offered filled
  by_cases start : part.1.toNat ≤ 2 ^ 64 - 4096
  · exact (lowPiece_of_offer member start offered).toPiece
  · have high := Nat.lt_of_not_le start
    have nonempty := UInt64.lt_iff_toNat_lt.mpr (offer_eq_some.mp offered).1
    have wrapped := Option.some.inj ((offer_wrapped high nonempty).symm.trans offered)
    obtain ⟨a, n, aPiece, covers⟩ := clear.2 part member high nonempty
    have same : n = part.2.toNat := by
      have := most a n aPiece
      rw [← wrapped] at this
      exact Nat.le_antisymm this covers
    have above := UInt64.lt_iff_toNat_lt.mp nonempty
    have zero : a = 0 := by
      have fits := aPiece.fits
      obtain ⟨page, rfl⟩ := aPiece.aligned
      omega
    rw [← wrapped]
    subst zero same
    exact aPiece

end Best

/-- `pick` does what it is for on exactly the maps that keep clear of the top
of the address space. -/
theorem picksLargest_iff (memory : Nat → UInt8) (fed : Fed)
    (avoidLo avoidHi want : UInt64) :
    PicksLargest memory fed avoidLo avoidHi want ↔
      ClearOfTop (fedBytes memory fed) avoidLo avoidHi := by
  rw [picksLargest_iff_bestPiece]
  have chosen := bestOf_largest (fedBytes memory fed) avoidLo avoidHi
  exact ⟨fun best => chosen.clear best.1 best.2, chosen.piece⟩

/-- One usable record of 50 bytes, 100 bytes below the end of the address
space. -/
def topRecord : Bytes :=
  [20, 0, 0, 0, 0x9c, 0xff, 0xff, 0xff, 0xff, 0xff, 0xff, 0xff,
    50, 0, 0, 0, 0, 0, 0, 0, 1, 0, 0, 0]

/-- The range picked from it starts at address 0, where no memory is. -/
theorem picksLargest_fails : ¬ PicksLargest (fun _ => 0) (.mmap topRecord) 0 0 0 := by
  intro picks
  have taken : pick (fun _ => 0) (.mmap topRecord) 0 0 0 =
      some (0, 0xffffffffffffffce) := by decide
  have visited : records topRecord = [⟨20, 0xffffffffffffff9c, 50, 1⟩] := by decide
  rw [PicksLargest, taken] at picks
  obtain ⟨record, member, -, first, -⟩ := picks.1.inside
  change record ∈ records topRecord at member
  rw [visited, List.mem_singleton] at member
  subst member
  revert first
  decide

end Metal.Fw.Memmap
