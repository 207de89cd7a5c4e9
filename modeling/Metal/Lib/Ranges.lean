import Mathlib.Algebra.Group.Int.Units
import Mathlib.Order.Interval.Set.LinearOrder
import Mathlib.Data.List.Basic

namespace Metal.Lib

/-! Half-open ranges: a sorted list of them merged, and some cut out of others. -/

@[ext] structure Range (α : Type) where
  lo : α
  hi : α
  deriving DecidableEq

namespace Range

variable {α : Type} [LinearOrder α]

def points (r : Range α) : Set α := Set.Ico r.lo r.hi

def cover (l : List (Range α)) : Set α := {x | ∃ r ∈ l, x ∈ r.points}

def Filled (r : Range α) : Prop := r.lo < r.hi

/-- The first range ends before the second starts, and does not touch it. -/
def Before (r s : Range α) : Prop := r.hi < s.lo

def Apart (r s : Range α) : Prop := r.hi ≤ s.lo ∨ s.hi ≤ r.lo

instance : Std.Symm (Apart (α := α)) := ⟨fun _ _ => Or.symm⟩

def Within (r s : Range α) : Prop := s.lo ≤ r.lo ∧ r.hi ≤ s.hi

def Clear (cut r : Range α) : Prop := cut.hi ≤ cut.lo ∨ r.hi ≤ cut.lo ∨ cut.hi ≤ r.lo

instance (cut r : Range α) : Decidable (Clear cut r) :=
  inferInstanceAs (Decidable (_ ∨ _ ∨ _))

variable {r : Range α}

theorem Within.trans {s t : Range α} (inner : r.Within s) (outer : s.Within t) : r.Within t :=
  ⟨outer.1.trans inner.1, inner.2.trans outer.2⟩

theorem Apart.mono {r' s s' : Range α} (apart : Apart r s) (inside : r'.Within r)
    (inside' : s'.Within s) : Apart r' s' :=
  apart.imp (fun before => inside.2.trans (before.trans inside'.1))
    fun before => inside'.2.trans (before.trans inside.1)

variable {cut : Range α}

theorem Clear.mono {s : Range α} (clear : Clear cut s) (inside : r.Within s) : Clear cut r :=
  clear.imp_right (Or.imp inside.2.trans fun after => after.trans inside.1)

theorem cover_cons (r : Range α) (l : List (Range α)) : cover (r :: l) = r.points ∪ cover l := by
  ext x
  simp [cover]

theorem cover_congr {l m : List (Range α)} (same : ∀ r, r ∈ l ↔ r ∈ m) : cover l = cover m := by
  ext x
  simp only [cover, same]

/-- The ranges in turn, each joined to the last one where it overlaps or
touches it. -/
def merge (last : Range α) : List (Range α) → List (Range α)
  | [] => [last]
  | next :: rest =>
      if next.lo ≤ last.hi then merge ⟨last.lo, max last.hi next.hi⟩ rest
      else last :: merge next rest

structure Ascending (l : List (Range α)) : Prop where
  sorted : l.Pairwise fun r s => r.lo ≤ s.lo
  filled : ∀ r ∈ l, r.Filled

theorem Ascending.tail {l : List (Range α)} (ascending : Ascending (r :: l)) : Ascending l :=
  ⟨ascending.sorted.of_cons, fun s member => ascending.filled s (List.mem_cons_of_mem _ member)⟩

variable {last : Range α} {rest : List (Range α)}

theorem Ascending.join {next : Range α} (ascending : Ascending (last :: next :: rest)) :
    Ascending (⟨last.lo, max last.hi next.hi⟩ :: rest) := by
  obtain ⟨first, sorted⟩ := List.pairwise_cons.mp ascending.sorted
  refine ⟨List.pairwise_cons.mpr ⟨fun r member => first r (List.mem_cons_of_mem _ member),
    sorted.of_cons⟩, fun r member => ?_⟩
  rcases List.mem_cons.mp member with rfl | later
  · exact (ascending.filled last List.mem_cons_self).trans_le (le_max_left _ _)
  · exact ascending.filled r (List.mem_cons_of_mem _ (List.mem_cons_of_mem _ later))

theorem mem_merge (ascending : Ascending (last :: rest)) (member : r ∈ merge last rest) :
    last.lo ≤ r.lo ∧ r.Filled := by
  induction rest generalizing last with
  | nil =>
      obtain rfl := List.mem_singleton.mp member
      exact ⟨le_rfl, ascending.filled r List.mem_cons_self⟩
  | cons next rest ih =>
      rw [merge] at member
      split at member
      · obtain ⟨after, filled⟩ := ih ascending.join member
        exact ⟨after, filled⟩
      · rcases List.mem_cons.mp member with rfl | later
        · exact ⟨le_rfl, ascending.filled r List.mem_cons_self⟩
        · obtain ⟨after, filled⟩ := ih ascending.tail later
          have first := (List.pairwise_cons.mp ascending.sorted).1 next List.mem_cons_self
          exact ⟨first.trans after, filled⟩

theorem merge_apart (ascending : Ascending (last :: rest)) : (merge last rest).Pairwise Before := by
  induction rest generalizing last with
  | nil => exact List.pairwise_singleton _ _
  | cons next rest ih =>
      rw [merge]
      split
      · exact ih ascending.join
      · rename_i past
        refine List.pairwise_cons.mpr ⟨fun r member => ?_, ih ascending.tail⟩
        exact (not_le.mp past).trans_le (mem_merge ascending.tail member).1

theorem cover_merge (ascending : Ascending (last :: rest)) :
    cover (merge last rest) = cover (last :: rest) := by
  induction rest generalizing last with
  | nil => rfl
  | cons next rest ih =>
      have first := (List.pairwise_cons.mp ascending.sorted).1 next List.mem_cons_self
      rw [merge]
      split
      · rename_i touches
        have joined : points ⟨last.lo, max last.hi next.hi⟩ = last.points ∪ next.points := by
          have nonempty := (ascending.filled last List.mem_cons_self).le
          have nonempty' :=
            (ascending.filled next (List.mem_cons_of_mem _ List.mem_cons_self)).le
          rw [points, points, points, Set.Ico_union_Ico, min_eq_left first]
          · rw [min_eq_left nonempty]
            exact first.trans (nonempty'.trans (le_max_right _ _))
          · rw [min_eq_left nonempty']
            exact touches.trans (le_max_right _ _)
        rw [ih ascending.join, cover_cons, cover_cons, cover_cons, joined,
          Set.union_assoc]
      · rw [cover_cons, ih ascending.tail, ← cover_cons]

def without (r cut : Range α) : List (Range α) :=
  if Clear cut r then [r] else [⟨r.lo, min r.hi cut.lo⟩, ⟨max r.lo cut.hi, r.hi⟩]

/-- What several cuts leave, in ascending order; some pieces may be empty. -/
def pieces (r : Range α) : List (Range α) → List (Range α)
  | [] => [r]
  | cut :: cuts => (r.without cut).flatMap fun part => part.pieces cuts

theorem within_of_mem_without {part : Range α} (member : part ∈ r.without cut) : part.Within r := by
  rw [without] at member
  split at member
  · obtain rfl := List.mem_singleton.mp member
    exact ⟨le_rfl, le_rfl⟩
  · simp only [List.mem_cons, List.not_mem_nil, or_false] at member
    rcases member with rfl | rfl
    · exact ⟨le_rfl, min_le_left _ _⟩
    · exact ⟨le_max_left _ _, le_rfl⟩

theorem clear_of_mem_without {part : Range α} (member : part ∈ r.without cut) : Clear cut part := by
  rw [without] at member
  split at member
  · rename_i clear
    obtain rfl := List.mem_singleton.mp member
    exact clear
  · simp only [List.mem_cons, List.not_mem_nil, or_false] at member
    rcases member with rfl | rfl
    · exact .inr (.inl (min_le_right _ _))
    · exact .inr (.inr (le_max_right _ _))

theorem without_cover {t : Range α} (inside : t.Within r) (clear : Clear cut t) :
    ∃ part ∈ r.without cut, t.Within part := by
  rw [without]
  split
  · exact ⟨r, List.mem_singleton_self r, inside⟩
  · rename_i hit
    rcases clear with empty | before | after
    · exact absurd (.inl empty) hit
    · exact ⟨_, List.mem_cons_self, inside.1, le_min inside.2 before⟩
    · exact ⟨_, List.mem_cons_of_mem _ List.mem_cons_self, max_le inside.1 after, inside.2⟩

variable {cuts : List (Range α)}

theorem within_of_mem_pieces {piece : Range α} (member : piece ∈ r.pieces cuts) :
    piece.Within r := by
  induction cuts generalizing r with
  | nil =>
      obtain rfl := List.mem_singleton.mp member
      exact ⟨le_rfl, le_rfl⟩
  | cons cut cuts ih =>
      obtain ⟨part, first, later⟩ := List.mem_flatMap.mp member
      exact (ih later).trans (within_of_mem_without first)

theorem clear_of_mem_pieces {piece : Range α} (member : piece ∈ r.pieces cuts) :
    ∀ cut ∈ cuts, Clear cut piece := by
  induction cuts generalizing r with
  | nil => simp
  | cons cut cuts ih =>
      obtain ⟨part, first, later⟩ := List.mem_flatMap.mp member
      intro other among
      rcases List.mem_cons.mp among with rfl | among
      · exact (clear_of_mem_without first).mono (within_of_mem_pieces later)
      · exact ih later other among

theorem pieces_cover {t : Range α} (inside : t.Within r) (clear : ∀ cut ∈ cuts, Clear cut t) :
    ∃ piece ∈ r.pieces cuts, t.Within piece := by
  induction cuts generalizing r with
  | nil => exact ⟨r, List.mem_singleton_self r, inside⟩
  | cons cut cuts ih =>
      obtain ⟨part, first, inside⟩ := without_cover inside (clear cut List.mem_cons_self)
      obtain ⟨piece, later, inside⟩ :=
        ih inside fun other among => clear other (List.mem_cons_of_mem _ among)
      exact ⟨piece, List.mem_flatMap.mpr ⟨part, first, later⟩, inside⟩

theorem pieces_apart (cuts : List (Range α)) (r : Range α) :
    (r.pieces cuts).Pairwise fun p q => p.hi ≤ q.lo := by
  induction cuts generalizing r with
  | nil => exact List.pairwise_singleton _ _
  | cons cut cuts ih =>
      refine List.pairwise_flatMap.mpr ⟨fun part _ => ih part, ?_⟩
      rw [without]
      split
      · exact List.pairwise_singleton _ _
      · rename_i hit
        have proper : cut.lo ≤ cut.hi := (not_le.mp fun empty => hit (.inl empty)).le
        refine List.pairwise_pair.mpr fun p low q high => ?_
        calc p.hi ≤ cut.lo := (within_of_mem_pieces low).2.trans (min_le_right _ _)
          _ ≤ cut.hi := proper
          _ ≤ q.lo := (le_max_right _ _).trans (within_of_mem_pieces high).1

end Range

end Metal.Lib
