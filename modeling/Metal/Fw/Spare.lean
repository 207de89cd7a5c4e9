import Mathlib.Data.List.Pairwise
import Metal.Fw.Pick
import Metal.Fw.Efi

namespace Metal.Fw.Memmap

open Metal.Lib

/-! The memory that is left of the fed map after boot, given to the arena. -/

def spareMin : UInt64 := 256 * 1024

def spareFloor : UInt64 := 16 * 1024 * 1024

/-- The range that is handed to `pm_util_mem_arena_add_pool`, by its first byte
and its length. -/
abbrev Pool := UInt64 × UInt64

def spareTake (r0 r1 : UInt64) : Option Pool :=
  if r1 ≤ r0 then none
  else
    let r0 := alignUpU64 r0 4096
    let r0 := if r0 < spareFloor then spareFloor else r0
    if r1 ≤ r0 then none
    else
      let n := r1 - r0
      -- pointers and sizes have 64 bits, so both fit
      if n < spareMin then none else some (r0, n)

def spareApply (r0 r1 : UInt64) : List (UInt64 × UInt64) → List Pool
  | [] => if r1 ≤ r0 then [] else (spareTake r0 r1).toList
  | (clo, chi) :: cuts =>
      if r1 ≤ r0 then []
      else if chi ≤ clo ∨ r1 ≤ clo ∨ r0 ≥ chi then spareApply r0 r1 cuts
      else
        spareApply r0 (if clo < r1 then clo else r1) cuts ++
          spareApply (if chi > r0 then chi else r0) r1 cuts

/-- `stack` is the range around the stack pointer that `stack_cut` finds. -/
def sparePunch (stack : UInt64 × UInt64) (r0 r1 usedLo usedHi : UInt64) : List Pool :=
  spareApply r0 r1 [(usedLo, usedHi), stack]

def spareRecord (stack : UInt64 × UInt64) (avoidLo avoidHi usedLo usedHi : UInt64)
    (record : Record) : List Pool :=
  let base := record.base
  let r1 := base + record.len
  if record.type = 1 ∧ record.len ≠ 0 then
    if avoidHi ≤ avoidLo ∨ r1 ≤ avoidLo ∨ base ≥ avoidHi then
      sparePunch stack base r1 usedLo usedHi
    else
      sparePunch stack base (if avoidLo < r1 then avoidLo else r1) usedLo usedHi ++
        sparePunch stack (if avoidHi > base then avoidHi else base) r1 usedLo usedHi
  else
    []

/-- The pools in the order in which the arena gets them; `arena` says whether
there is one. -/
def addSpare (memory : Nat → UInt8) (fed : Fed) (stack : UInt64 × UInt64) (arena : Bool)
    (avoidLo avoidHi usedLo usedHi : UInt64) : Int × List Pool :=
  if !arena then (-1, [])
  else
    match fedMmap memory fed with
    | none => (0, [])
    | some map =>
        if map.length < 24 then (0, [])
        else
          let avoidHi := if avoidHi < avoidLo then avoidLo else avoidHi
          let usedHi := if usedHi < usedLo then usedLo else usedHi
          (0, (records map).flatMap (spareRecord stack avoidLo avoidHi usedLo usedHi))

def rangeOf (ends : UInt64 × UInt64) : Range Nat := ⟨ends.1.toNat, ends.2.toNat⟩

def Pool.range (pool : Pool) : Range Nat := ⟨pool.1.toNat, pool.1.toNat + pool.2.toNat⟩

/-- `alignUpU64` to pages: it wraps to 0 above the last multiple of 4096. -/
def pageUp (x : Nat) : Nat := if x ≤ 2 ^ 64 - 4096 then (x + 4095) / 4096 * 4096 else 0

/-- What `spareTake` makes of a piece. -/
def taken (piece : Range Nat) : Option (Range Nat) :=
  if piece.hi ≤ piece.lo then none
  else if max (pageUp piece.lo) spareFloor.toNat + spareMin.toNat ≤ piece.hi then
    some ⟨max (pageUp piece.lo) spareFloor.toNat, piece.hi⟩
  else none

variable {pool : Range Nat}

theorem taken_eq_some {piece : Range Nat} :
    taken piece = some pool ↔
      piece.Filled ∧ pool.lo = max (pageUp piece.lo) spareFloor.toNat ∧ pool.hi = piece.hi ∧
        pool.lo + spareMin.toNat ≤ pool.hi := by
  obtain ⟨lo, hi⟩ := pool
  simp only [taken, Option.ite_none_left_eq_some, Option.ite_none_right_eq_some,
    Option.some.injEq, Range.mk.injEq, Range.Filled, not_le]
  constructor
  · rintro ⟨filled, big, rfl, rfl⟩
    exact ⟨filled, rfl, rfl, big⟩
  · rintro ⟨filled, rfl, rfl, big⟩
    exact ⟨filled, big, rfl, rfl⟩

theorem spareTake_range (r0 r1 : UInt64) :
    (spareTake r0 r1).map Pool.range = taken (rangeOf (r0, r1)) := by
  have up : (alignUpU64 r0 4096).toNat = pageUp r0.toNat := toNat_page_up r0
  have raised : (if alignUpU64 r0 4096 < spareFloor then spareFloor else alignUpU64 r0 4096).toNat =
      max (pageUp r0.toNat) spareFloor.toNat := by
    rw [← up]
    split
    · rename_i below
      exact (Nat.max_eq_right (Nat.le_of_lt (UInt64.lt_iff_toNat_lt.mp below))).symm
    · rename_i above
      exact (Nat.max_eq_left (UInt64.le_iff_toNat_le.mp (UInt64.not_lt.mp above))).symm
  rw [spareTake, taken, rangeOf]
  dsimp only
  rw [← raised]
  generalize (if alignUpU64 r0 4096 < spareFloor then spareFloor else alignUpU64 r0 4096) = a
  have quota : 0 < spareMin.toNat := by decide
  split
  · rename_i empty
    rw [if_pos (UInt64.le_iff_toNat_le.mp empty)]
    rfl
  · rename_i filled
    rw [if_neg (filled ∘ UInt64.le_iff_toNat_le.mpr)]
    by_cases past : r1 ≤ a
    · have past' := UInt64.le_iff_toNat_le.mp past
      rw [if_pos past, if_neg (by omega)]
      rfl
    · have below := UInt64.le_of_lt (UInt64.not_le.mp past)
      have size := UInt64.toNat_sub_of_le _ _ below
      rw [UInt64.le_iff_toNat_le] at below
      rw [if_neg past]
      by_cases small : r1 - a < spareMin
      · have small' := UInt64.lt_iff_toNat_lt.mp small
        rw [if_pos small, if_neg (by omega)]
        rfl
      · have large := UInt64.le_iff_toNat_le.mp (UInt64.not_lt.mp small)
        have stop : a.toNat + (r1 - a).toNat = r1.toNat := by omega
        rw [if_neg small, if_pos (by omega), Option.map_some, Pool.range, stop]

theorem taken_pieces_empty {r : Range Nat} (empty : r.hi ≤ r.lo) (cuts : List (Range Nat)) :
    (r.pieces cuts).filterMap taken = [] := by
  refine List.filterMap_eq_nil_iff.mpr fun piece member => ?_
  obtain ⟨lo, hi⟩ := Range.within_of_mem_pieces member
  exact if_pos (by omega)

theorem toNat_min (x y : UInt64) : (if x < y then x else y).toNat = min y.toNat x.toNat := by
  split
  · rename_i below
    exact (Nat.min_eq_right (Nat.le_of_lt (UInt64.lt_iff_toNat_lt.mp below))).symm
  · rename_i above
    exact (Nat.min_eq_left (UInt64.le_iff_toNat_le.mp (UInt64.not_lt.mp above))).symm

theorem toNat_max (x y : UInt64) : (if x > y then x else y).toNat = max y.toNat x.toNat := by
  split
  · rename_i above
    exact (Nat.max_eq_right (Nat.le_of_lt (UInt64.lt_iff_toNat_lt.mp above))).symm
  · rename_i below
    exact (Nat.max_eq_left (UInt64.le_iff_toNat_le.mp (UInt64.not_lt.mp below))).symm

theorem clear_iff (cut r : UInt64 × UInt64) :
    (cut.2 ≤ cut.1 ∨ r.2 ≤ cut.1 ∨ r.1 ≥ cut.2) ↔ Range.Clear (rangeOf cut) (rangeOf r) := by
  simp only [ge_iff_le, UInt64.le_iff_toNat_le]
  rfl

theorem spareApply_range (cuts : List (UInt64 × UInt64)) (r0 r1 : UInt64) :
    (spareApply r0 r1 cuts).map Pool.range =
      ((rangeOf (r0, r1)).pieces (cuts.map rangeOf)).filterMap taken := by
  induction cuts generalizing r0 r1 with
  | nil =>
      by_cases empty : r1 ≤ r0
      · rw [spareApply, if_pos empty, taken_pieces_empty (UInt64.le_iff_toNat_le.mp empty)]
        rfl
      · rw [spareApply, if_neg empty, List.map_nil, Range.pieces, List.filterMap_cons,
          List.filterMap_nil, ← spareTake_range]
        cases spareTake r0 r1 with
        | none => rfl
        | some pool => rfl
  | cons cut cuts ih =>
      obtain ⟨clo, chi⟩ := cut
      by_cases empty : r1 ≤ r0
      · rw [spareApply, if_pos empty, taken_pieces_empty (UInt64.le_iff_toNat_le.mp empty)]
        rfl
      · rw [spareApply, if_neg empty, List.map_cons, Range.pieces, Range.without]
        by_cases clear : chi ≤ clo ∨ r1 ≤ clo ∨ r0 ≥ chi
        · rw [if_pos clear, if_pos ((clear_iff (clo, chi) (r0, r1)).mp clear), List.flatMap_singleton,
            ih]
        · rw [if_neg clear, if_neg (clear ∘ (clear_iff (clo, chi) (r0, r1)).mpr), List.map_append,
            ih, ih, List.flatMap_cons, List.flatMap_singleton,
            List.filterMap_append, rangeOf, rangeOf, toNat_min, toNat_max]
          rfl

def Record.Usable (record : Record) : Prop := record.type = 1 ∧ record.len ≠ 0

instance (record : Record) : Decidable record.Usable := inferInstanceAs (Decidable (_ ∧ _))

/-- What is cut: a usable record that ends below the end of the address space, where the end
that `spareRecord` computes is 0. -/
def Record.Seen (record : Record) : Prop := record.Usable ∧ record.range.hi < 2 ^ 64

instance (record : Record) : Decidable record.Seen := inferInstanceAs (Decidable (_ ∧ _))

theorem spareApply_empty {r0 r1 : UInt64} (empty : r1 ≤ r0) (cuts : List (UInt64 × UInt64)) :
    spareApply r0 r1 cuts = [] := by
  cases cuts with
  | nil => exact if_pos empty
  | cons cut cuts => exact if_pos empty

theorem spareRecord_top {record : Record} (top : record.range.hi = 2 ^ 64)
    (stack : UInt64 × UInt64) (avoidLo avoidHi usedLo usedHi : UInt64) :
    spareRecord stack avoidLo avoidHi usedLo usedHi record = [] := by
  have stop : record.base + record.len = 0 := by
    rw [← UInt64.toNat_inj, UInt64.toNat_add]
    exact (congrArg (· % 2 ^ 64) top).trans (Nat.mod_self _)
  rw [spareRecord, stop]
  split
  · rw [if_pos (.inr (.inl UInt64.zero_le)), sparePunch, spareApply_empty UInt64.zero_le]
  · rfl

theorem spareRecord_range {record : Record} (unwrapped : record.Usable → record.Unwrapped)
    (stack : UInt64 × UInt64) (avoidLo avoidHi usedLo usedHi : UInt64) :
    (spareRecord stack avoidLo avoidHi usedLo usedHi record).map Pool.range =
      if record.Seen then
        (record.range.pieces [rangeOf (avoidLo, avoidHi), rangeOf (usedLo, usedHi),
          rangeOf stack]).filterMap taken
      else [] := by
  by_cases usable : record.type = 1 ∧ record.len ≠ 0
  swap
  · rw [spareRecord, if_neg usable, if_neg fun seen => usable seen.1]
    rfl
  have within_ : record.range.hi ≤ 2 ^ 64 := unwrapped usable
  by_cases below : record.range.hi < 2 ^ 64
  · rw [spareRecord]
    have whole : rangeOf (record.base, record.base + record.len) = record.range := by
      rw [rangeOf, Record.toNat_stop below]
      rfl
    rw [if_pos usable, if_pos (show record.Seen from ⟨usable, below⟩), Range.pieces,
      Range.without, ← whole]
    by_cases clear : avoidHi ≤ avoidLo ∨ record.base + record.len ≤ avoidLo ∨ record.base ≥ avoidHi
    · rw [if_pos clear, if_pos ((clear_iff (avoidLo, avoidHi) _).mp clear),
        List.flatMap_singleton, sparePunch, spareApply_range]
      rfl
    · have hit := clear ∘
        (clear_iff (avoidLo, avoidHi) (record.base, record.base + record.len)).mpr
      rw [if_neg clear, if_neg hit, List.map_append, sparePunch, sparePunch, spareApply_range,
        spareApply_range, List.flatMap_cons, List.flatMap_singleton, List.filterMap_append,
        rangeOf, rangeOf, toNat_min, toNat_max]
      rfl
  · rw [spareRecord_top (by omega), if_neg fun seen => below seen.2]
    rfl

section Donated

variable (l : List Record) (cuts : List (Range Nat))

def donated : List (Range Nat) :=
  (l.filter (·.Seen)).flatMap fun record => (record.range.pieces cuts).filterMap taken

structure Spare (s : Range Nat) : Prop where
  aligned : 4096 ∣ s.lo
  above : 16 * 1024 * 1024 ≤ s.lo
  big : s.lo + 256 * 1024 ≤ s.hi
  inside : ∃ record ∈ l, record.Usable ∧ s.Within record.range
  clear : ∀ cut ∈ cuts, Range.Clear cut s

/-- The pools share no address, each of them may be had, and every largest range
that may be had is one of them. -/
structure Donates (pools : List (Range Nat)) : Prop where
  disjoint : pools.Pairwise Range.Apart
  spare : ∀ pool ∈ pools, Spare l cuts pool
  every : ∀ s, Spare l cuts s → (∀ t, Spare l cuts t → s.Within t → t = s) → s ∈ pools

/-- The usable records do not go past the end of the address space and share no address. -/
structure Proper : Prop where
  unwrapped : ∀ record ∈ l, record.Usable → record.Unwrapped
  disjoint : ((l.filter (·.Usable)).map Record.range).Pairwise Range.Apart

/-- The range has 256 KiB from a page boundary at or above 16 MiB on. -/
def Roomy (r : Range Nat) : Prop :=
  ∃ page, 16 * 1024 * 1024 ≤ 4096 * page ∧ r.lo ≤ 4096 * page ∧ 4096 * page + 256 * 1024 ≤ r.hi

/-- No piece of a usable record starts behind the last multiple of 4096, and none is roomy in a
record that ends at the end of the address space. -/
def BelowTop : Prop :=
  ∀ record ∈ l, record.Usable → ∀ piece ∈ record.range.pieces cuts,
    if record.range.hi < 2 ^ 64 then piece.Filled → piece.lo ≤ 2 ^ 64 - 4096 else ¬ Roomy piece

end Donated

section Proper

variable {l : List Record} {cuts : List (Range Nat)} (proper : Proper l)

include proper

theorem Proper.unique {r s : Record} (first : r ∈ l) (usable : r.Usable) (second : s ∈ l)
    (usable' : s.Usable) {x : Nat} (here : x ∈ r.range.points) (here' : x ∈ s.range.points) :
    r.range = s.range := by
  have mem {record : Record} (member : record ∈ l) (usable : record.Usable) :
      record.range ∈ (l.filter (·.Usable)).map Record.range :=
    List.mem_map_of_mem (List.mem_filter.mpr ⟨member, decide_eq_true usable⟩)
  by_contra other
  obtain ⟨after, before⟩ := here
  obtain ⟨after', before'⟩ := here'
  rcases proper.disjoint.forall (mem first usable) (mem second usable') other with apart | apart
  · omega
  · omega

end Proper

theorem pageUp_of_le {x : Nat} (low : x ≤ 2 ^ 64 - 4096) :
    4096 ∣ pageUp x ∧ x ≤ pageUp x := by
  rw [pageUp, if_pos low]
  exact ⟨Nat.dvd_mul_left .., by omega⟩

theorem pageUp_le {x a : Nat} (aligned : 4096 ∣ a) (above : x ≤ a) : pageUp x ≤ a := by
  obtain ⟨page, rfl⟩ := aligned
  rw [pageUp]
  split
  · omega
  · exact Nat.zero_le _

section Taken

variable {l : List Record} {cuts : List (Range Nat)} {record : Record} {piece : Range Nat}

theorem spare_of_taken (member : record ∈ l) (usable : record.Usable)
    (among : piece ∈ record.range.pieces cuts) (start : piece.lo ≤ 2 ^ 64 - 4096)
    (took : taken piece = some pool) : Spare l cuts pool ∧ pool.Within piece := by
  obtain ⟨filled, lo, hi, big⟩ := taken_eq_some.mp took
  obtain ⟨aligned, above⟩ := pageUp_of_le start
  have within_ : pool.Within piece := ⟨by rw [lo]; exact above.trans (le_max_left _ _), hi.le⟩
  refine ⟨⟨?_, lo ▸ le_max_right _ _, big, ⟨record, member, usable, within_.trans
    (Range.within_of_mem_pieces among)⟩, fun cut listed =>
      (Range.clear_of_mem_pieces among cut listed).mono within_⟩, within_⟩
  rw [lo]
  rcases Nat.le_total (pageUp piece.lo) spareFloor.toNat with below | above
  · rw [Nat.max_eq_right below]
    decide
  · rw [Nat.max_eq_left above]
    exact aligned

theorem Spare.within_taken {s : Range Nat} (spare : Spare l cuts s) (inside : s.Within piece) :
    ∃ pool, taken piece = some pool ∧ s.Within pool := by
  obtain ⟨first, last⟩ := inside
  have big := spare.big
  have raised : max (pageUp piece.lo) spareFloor.toNat ≤ s.lo :=
    max_le (pageUp_le spare.aligned first) spare.above
  have quota : spareMin.toNat = 256 * 1024 := rfl
  refine ⟨⟨_, piece.hi⟩, taken_eq_some.mpr ⟨?_, rfl, rfl, ?_⟩, raised, last⟩
  · rw [Range.Filled]
    omega
  · dsimp only
    omega

theorem Spare.roomy {s : Range Nat} (spare : Spare l cuts s) (inside : s.Within piece) :
    Roomy piece := by
  obtain ⟨first, last⟩ := inside
  obtain ⟨page, start⟩ := spare.aligned
  have above := spare.above
  have big := spare.big
  exact ⟨page, by omega, by omega, by omega⟩

theorem taken_wrapped (start : 2 ^ 64 - 4096 < piece.lo) (filled : piece.Filled) :
    taken piece = some ⟨spareFloor.toNat, piece.hi⟩ := by
  have floor : spareFloor.toNat = 16 * 1024 * 1024 := rfl
  have quota : spareMin.toNat = 256 * 1024 := rfl
  have above : piece.lo < piece.hi := filled
  refine taken_eq_some.mpr ⟨filled, ?_, rfl, ?_⟩
  · rw [pageUp, if_neg (by omega), Nat.zero_max]
  · dsimp only
    omega

end Taken

section Donations

variable {l : List Record} {cuts : List (Range Nat)}

theorem mem_donated :
    pool ∈ donated l cuts ↔ ∃ record ∈ l, record.Seen ∧
      ∃ piece ∈ record.range.pieces cuts, taken piece = some pool := by
  simp only [donated, List.mem_flatMap, List.mem_filter, decide_eq_true_eq, List.mem_filterMap,
    and_assoc]

theorem Proper.same_piece (proper : Proper l) {r r' : Record} {p p' : Range Nat}
    (member : r ∈ l) (usable : r.Usable) (among : p ∈ r.range.pieces cuts)
    (member' : r' ∈ l) (usable' : r'.Usable) (among' : p' ∈ r'.range.pieces cuts)
    {x : Nat} (here : x ∈ p.points) (here' : x ∈ p'.points) : p = p' := by
  have into {p q : Range Nat} (inside : p.Within q) (here : x ∈ p.points) : x ∈ q.points :=
    ⟨inside.1.trans here.1, here.2.trans_le inside.2⟩
  have same := proper.unique member usable member' usable'
    (into (Range.within_of_mem_pieces among) here)
    (into (Range.within_of_mem_pieces among') here')
  rw [← same] at among'
  by_contra other
  have apart := (Range.pieces_apart cuts r.range).imp (S := Range.Apart) Or.inl
  obtain ⟨after, before⟩ := here
  obtain ⟨after', before'⟩ := here'
  rcases apart.forall among among' other with apart | apart
  · omega
  · omega

theorem Proper.largest (proper : Proper l) {record : Record} {piece : Range Nat}
    (member : record ∈ l) (usable : record.Usable) (among : piece ∈ record.range.pieces cuts)
    (took : taken piece = some pool) (spare : Spare l cuts pool) (inside : pool.Within piece) :
    ∀ t, Spare l cuts t → pool.Within t → t = pool := by
  intro t spare' wider
  obtain ⟨other, among', usable', inside'⟩ := spare'.inside
  obtain ⟨piece', listed', inside'⟩ := Range.pieces_cover inside' spare'.clear
  have filled : pool.lo < pool.hi := by
    have big := spare.big
    omega
  have here : pool.lo ∈ piece.points := ⟨inside.1, filled.trans_le inside.2⟩
  have here' : pool.lo ∈ piece'.points :=
    ⟨inside'.1.trans wider.1, filled.trans_le (wider.2.trans inside'.2)⟩
  obtain rfl := proper.same_piece member usable among among' usable' listed' here here'
  obtain ⟨pool', took', within_⟩ := spare'.within_taken inside'
  cases took.symm.trans took'
  exact Range.ext (wider.1.antisymm within_.1) (within_.2.antisymm wider.2)

theorem BelowTop.start (low : BelowTop l cuts) {record : Record} (member : record ∈ l)
    (seen : record.Seen) {piece : Range Nat} (among : piece ∈ record.range.pieces cuts)
    (took : taken piece = some pool) : piece.lo ≤ 2 ^ 64 - 4096 := by
  have bound := low record member seen.1 piece among
  rw [if_pos seen.2] at bound
  exact bound (taken_eq_some.mp took).1

theorem BelowTop.donates (proper : Proper l) (low : BelowTop l cuts) :
    Donates l cuts (donated l cuts) where
  disjoint := by
    have within_ {record : Record} (member : record ∈ l.filter (·.Seen)) {piece : Range Nat}
        (listed : piece ∈ record.range.pieces cuts) {pool : Range Nat}
        (took : taken piece = some pool) : pool.Within piece := by
      obtain ⟨among, seen⟩ := List.mem_filter.mp member
      have seen := of_decide_eq_true seen
      exact (spare_of_taken among seen.1 listed (low.start among seen listed took) took).2
    refine List.pairwise_flatMap.mpr ⟨fun record member => ?_, ?_⟩
    · refine List.pairwise_filterMap.mpr ((Range.pieces_apart cuts record.range).imp_of_mem ?_)
      intro p q first second before pool took pool' took'
      exact Range.Apart.mono (.inl before) (within_ member first took)
        (within_ member second took')
    · have fewer : (l.filter (·.Seen)).Sublist (l.filter (·.Usable)) :=
        List.monotone_filter_right l fun record seen =>
          decide_eq_true (of_decide_eq_true seen : record.Seen).1
      refine ((List.pairwise_map.mp proper.disjoint).sublist fewer).imp_of_mem ?_
      intro r s first second apart pool donates pool' donates'
      obtain ⟨piece, listed, took⟩ := List.mem_filterMap.mp donates
      obtain ⟨piece', listed', took'⟩ := List.mem_filterMap.mp donates'
      exact apart.mono ((within_ first listed took).trans (Range.within_of_mem_pieces listed))
        ((within_ second listed' took').trans (Range.within_of_mem_pieces listed'))
  spare := by
    intro pool member
    obtain ⟨record, among, seen, piece, listed, took⟩ := mem_donated.mp member
    exact (spare_of_taken among seen.1 listed (low.start among seen listed took) took).1
  every := by
    intro s spare largest
    obtain ⟨record, among, usable, inside⟩ := spare.inside
    obtain ⟨piece, listed, inside⟩ := Range.pieces_cover inside spare.clear
    by_cases below : record.range.hi < 2 ^ 64
    · obtain ⟨pool, took, inside⟩ := spare.within_taken inside
      have start := low.start among ⟨usable, below⟩ listed took
      rw [← largest pool (spare_of_taken among usable listed start took).1 inside]
      exact mem_donated.mpr ⟨record, among, ⟨usable, below⟩, piece, listed, took⟩
    · have narrow := low record among usable piece listed
      rw [if_neg below] at narrow
      exact absurd (spare.roomy inside) narrow

theorem Donates.belowTop (proper : Proper l) (donates : Donates l cuts (donated l cuts)) :
    BelowTop l cuts := by
  intro record among usable piece listed
  split
  · rename_i below
    intro filled
    by_contra above
    have took := taken_wrapped (Nat.lt_of_not_le above) filled
    have spare := donates.spare _
      (mem_donated.mpr ⟨record, among, ⟨usable, below⟩, piece, listed, took⟩)
    obtain ⟨other, among', usable', inside⟩ := spare.inside
    obtain ⟨piece', listed', inside⟩ := Range.pieces_cover inside spare.clear
    have filled : piece.lo < piece.hi := filled
    have last : piece.hi - 1 ∈ piece.points := ⟨by omega, by omega⟩
    have floor : spareFloor.toNat = 16 * 1024 * 1024 := rfl
    have last' : piece.hi - 1 ∈ piece'.points := by
      obtain ⟨first, stop⟩ := inside
      dsimp only at first stop
      exact ⟨by omega, by omega⟩
    obtain rfl := proper.same_piece among usable listed among' usable' listed' last last'
    have first : piece.lo ≤ spareFloor.toNat := inside.1
    omega
  · rename_i top
    rintro ⟨page, above, first, big⟩
    have within_ : record.range.hi ≤ 2 ^ 64 := proper.unwrapped record among usable
    have inside := Range.within_of_mem_pieces listed
    have part : Range.Within ⟨4096 * page, piece.hi⟩ piece := ⟨first, Nat.le_refl _⟩
    have spare : Spare l cuts ⟨4096 * page, piece.hi⟩ :=
      ⟨Nat.dvd_mul_right .., above, big, ⟨record, among, usable, part.trans inside⟩,
        fun cut member => (Range.clear_of_mem_pieces listed cut member).mono part⟩
    obtain ⟨pool, took, -⟩ := spare.within_taken part
    have stop : piece.hi ≤ record.range.hi := inside.2
    obtain ⟨spare, inside'⟩ := spare_of_taken among usable listed (by omega) took
    -- It is the largest of its record, so it is donated, and was cut from a record that is seen.
    obtain ⟨other, among', seen, piece', listed', took'⟩ := mem_donated.mp
      (donates.every pool spare (proper.largest among usable listed took spare inside'))
    obtain ⟨filled, -, hi, -⟩ := taken_eq_some.mp took
    obtain ⟨filled', -, hi', -⟩ := taken_eq_some.mp took'
    have filled : piece.lo < piece.hi := filled
    have filled' : piece'.lo < piece'.hi := filled'
    obtain ⟨after, before⟩ := inside
    obtain ⟨after', before'⟩ := Range.within_of_mem_pieces listed'
    have same := proper.unique (x := pool.hi - 1) among usable among' seen.1
      ⟨by omega, by omega⟩ ⟨by omega, by omega⟩
    exact top (same ▸ seen.2)

end Donations

section Call

variable (memory : Nat → UInt8) (fed : Fed) (stack : UInt64 × UInt64)
variable (avoidLo avoidHi usedLo usedHi : UInt64)

def spareCuts : List (Range Nat) :=
  [rangeOf (avoidLo, avoidHi), rangeOf (usedLo, usedHi), rangeOf stack]

/-- A range that ends before it starts cuts nothing, nor does one that ends where
it starts. -/
theorem without_normal (r : Range Nat) (lo hi : UInt64) :
    r.without (rangeOf (lo, if hi < lo then lo else hi)) = r.without (rangeOf (lo, hi)) := by
  split
  · rename_i empty
    have below := Nat.le_of_lt (UInt64.lt_iff_toNat_lt.mp empty)
    rw [Range.without, Range.without, if_pos (.inl Nat.le.refl), if_pos (.inl below)]
  · rfl

theorem donated_eq (l : List Record) (cuts : List (Range Nat)) :
    donated l cuts = l.flatMap fun record =>
      if record.Seen then (record.range.pieces cuts).filterMap taken else [] := by
  induction l with
  | nil => rfl
  | cons record rest ih =>
      rw [List.flatMap_cons, ← ih, donated, donated, List.filter_cons]
      by_cases seen : record.Seen
      · rw [if_pos seen, if_pos (decide_eq_true seen), List.flatMap_cons]
      · rw [if_neg seen, if_neg (by simpa using seen), List.nil_append]

theorem addSpare_range (unwrapped : ∀ record ∈ records (fedBytes memory fed),
      record.Usable → record.Unwrapped) :
    (addSpare memory fed stack true avoidLo avoidHi usedLo usedHi).2.map Pool.range =
      donated (records (fedBytes memory fed)) (spareCuts stack avoidLo avoidHi usedLo usedHi) := by
  rw [addSpare, if_neg (by decide)]
  unfold fedBytes at unwrapped ⊢
  revert unwrapped
  cases fedMmap memory fed with
  | none => exact fun _ => rfl
  | some map =>
      intro unwrapped
      dsimp only [Option.getD_some] at unwrapped ⊢
      by_cases short : map.length < 24
      · rw [if_pos short, records_of_short short]
        rfl
      · rw [if_neg short, donated_eq, List.map_flatMap]
        refine List.flatMap_congr fun record member => ?_
        rw [spareRecord_range (unwrapped record member)]
        simp only [Range.pieces, without_normal, spareCuts]

/-- The arena gets what it may have on exactly the maps where no piece starts in
the last page. -/
theorem addSpare_iff (proper : Proper (records (fedBytes memory fed))) :
    Donates (records (fedBytes memory fed)) (spareCuts stack avoidLo avoidHi usedLo usedHi)
        ((addSpare memory fed stack true avoidLo avoidHi usedLo usedHi).2.map Pool.range) ↔
      BelowTop (records (fedBytes memory fed))
        (spareCuts stack avoidLo avoidHi usedLo usedHi) := by
  rw [addSpare_range memory fed stack avoidLo avoidHi usedLo usedHi proper.unwrapped]
  exact ⟨Donates.belowTop proper, BelowTop.donates proper⟩

end Call

theorem Proper.singleton {record : Record} (unwrapped : record.Unwrapped) : Proper [record] where
  unwrapped := by
    intro other member _
    obtain rfl := List.mem_singleton.mp member
    exact unwrapped
  disjoint :=
    (List.pairwise_singleton _ record.range).sublist (List.filter_sublist.map Record.range)

def oneSpare : Bytes := pack ⟨20, 0x1000000, 0x100000, 1⟩

theorem addSpare_oneSpare :
    Donates (records oneSpare) (spareCuts (0, 0) 0x1000000 0x1010000 0 0)
      ((addSpare (fun _ => 0) (.mmap oneSpare) (0, 0) true 0x1000000 0x1010000 0 0).2.map
        Pool.range) := by
  have visited : records oneSpare = [⟨20, 0x1000000, 0x100000, 1⟩] := by decide
  refine (addSpare_iff (fun _ => 0) (.mmap oneSpare) (0, 0) 0x1000000 0x1010000 0 0 ?_).mpr ?_
  · change Proper (records oneSpare)
    rw [visited]
    exact Proper.singleton (Nat.le_of_ble_eq_true rfl)
  · intro record member usable piece listed
    obtain ⟨first, last⟩ := Range.within_of_mem_pieces listed
    change record ∈ records oneSpare at member
    rw [visited] at member
    obtain rfl := List.mem_singleton.mp member
    have last : piece.hi ≤ 0x1000000 + 0x100000 := last
    rw [if_pos (by decide)]
    intro filled
    have filled : piece.lo < piece.hi := filled
    omega

/-- 32 MiB of memory before the end of the address space. -/
def endRecord : Bytes := pack ⟨20, 0xfffffffffe000000, 0x2000000, 1⟩

/-- The range from 16 MiB to near the end of the address space is donated, with the avoided range
in it; and nothing of a record that ends where the address space does. -/
theorem addSpare_fails :
    (Proper (records topRecord) ∧
      addSpare (fun _ => 0) (.mmap topRecord) (0, 0) true 0x1000000 0x1200000 0 0 =
        (0, [(0x1000000, 0xfffffffffeffffce)]) ∧
      ¬ Donates (records topRecord) (spareCuts (0, 0) 0x1000000 0x1200000 0 0)
        ((addSpare (fun _ => 0) (.mmap topRecord) (0, 0) true 0x1000000 0x1200000 0 0).2.map
          Pool.range)) ∧
    Proper (records endRecord) ∧
      addSpare (fun _ => 0) (.mmap endRecord) (0, 0) true 0 0 0 0 = (0, []) ∧
      ¬ Donates (records endRecord) (spareCuts (0, 0) 0 0 0 0)
        ((addSpare (fun _ => 0) (.mmap endRecord) (0, 0) true 0 0 0 0).2.map Pool.range) := by
  have visited : records topRecord = [⟨20, 0xffffffffffffff9c, 50, 1⟩] := by decide
  have given : addSpare (fun _ => 0) (.mmap topRecord) (0, 0) true 0x1000000 0x1200000 0 0 =
      (0, [(0x1000000, 0xfffffffffeffffce)]) := by decide
  have visited' : records endRecord = [⟨20, 0xfffffffffe000000, 0x2000000, 1⟩] := by decide
  have given' : addSpare (fun _ => 0) (.mmap endRecord) (0, 0) true 0 0 0 0 = (0, []) := by decide
  have proper' : Proper (records endRecord) := by
    rw [visited']
    exact Proper.singleton (Nat.le_of_ble_eq_true rfl)
  refine ⟨⟨?_, given, fun donates => ?_⟩, proper', given', fun donates => ?_⟩
  · rw [visited]
    exact Proper.singleton (Nat.le_of_ble_eq_true rfl)
  · have clear := (donates.spare ⟨0x1000000, 0xffffffffffffffce⟩ (by rw [given]; decide)).clear
      ⟨0x1000000, 0x1200000⟩ List.mem_cons_self
    revert clear
    decide
  · have spare : Spare (records endRecord) (spareCuts (0, 0) 0 0 0 0)
        ⟨0xfffffffffe000000, 2 ^ 64⟩ := by
      rw [visited']
      exact ⟨by decide, by decide, by decide,
        ⟨_, List.mem_cons_self, by decide, by decide, by decide⟩, by decide⟩
    have largest (t : Range Nat) (spare : Spare (records endRecord) (spareCuts (0, 0) 0 0 0 0) t)
        (wider : Range.Within ⟨0xfffffffffe000000, 2 ^ 64⟩ t) :
        t = ⟨0xfffffffffe000000, 2 ^ 64⟩ := by
      obtain ⟨record, among, -, inside⟩ := spare.inside
      rw [visited'] at among
      obtain rfl := List.mem_singleton.mp among
      exact Range.ext (wider.1.antisymm inside.1) (inside.2.antisymm wider.2)
    have among := donates.every _ spare largest
    rw [given'] at among
    cases among

end Metal.Fw.Memmap
