import Mathlib.Algebra.Group.Int.Units
import Mathlib.Data.List.Nodup
import Mathlib.Data.List.Perm.Basic

namespace Metal.Lib

/-! The blocks an allocator has handed out and not taken back, and who owns
them. -/

abbrev Heap (α : Type) : Type := Nat → Option α

namespace Heap

variable {α : Type} {heap heap' : Heap α} {block : Nat} {x : α} {owned rest : List (Nat × α)}

def empty : Heap α := fun _ => none

def claim (heap : Heap α) (block : Nat) (x : α) : Option (Heap α) :=
  match heap block with
  | none => some (Function.update heap block (some x))
  | some _ => none

def free (heap : Heap α) (block : Nat) : Option (Heap α) :=
  match heap block with
  | none => none
  | some _ => some (Function.update heap block none)

def write (heap : Heap α) (block : Nat) (x : α) : Option (Heap α) :=
  match heap block with
  | none => none
  | some _ => some (Function.update heap block (some x))

/-- The listed blocks are different ones, in use, and hold what is listed. -/
structure Owns (heap : Heap α) (owned : List (Nat × α)) : Prop where
  apart : (owned.map Prod.fst).Nodup
  live : ∀ p ∈ owned, heap p.1 = some p.2

theorem Owns.nil : heap.Owns [] :=
  ⟨List.nodup_nil, fun _ member => absurd member List.not_mem_nil⟩

section

variable (owns : heap.Owns owned)
include owns

theorem Owns.perm (same : owned.Perm rest) : heap.Owns rest :=
  ⟨(same.map Prod.fst).nodup_iff.mp owns.apart,
    fun p member => owns.live p (same.mem_iff.mpr member)⟩

theorem Owns.sublist (fewer : rest.Sublist owned) : heap.Owns rest :=
  ⟨owns.apart.sublist (fewer.map Prod.fst), fun p member => owns.live p (fewer.subset member)⟩

theorem Owns.update (foreign : block ∉ owned.map Prod.fst)
    (cell : Option α) : Owns (Function.update heap block cell) owned := by
  refine ⟨owns.apart, fun p member => ?_⟩
  have different : p.1 ≠ block := by
    intro same
    exact foreign (same ▸ List.mem_map_of_mem member)
  rw [Function.update_of_ne different]
  exact owns.live p member

theorem Owns.update_cons (foreign : block ∉ owned.map Prod.fst)
    (x : α) : Owns (Function.update heap block (some x)) ((block, x) :: owned) := by
  have kept := owns.update foreign (some x)
  refine ⟨?_, fun p member => ?_⟩
  · rw [List.map_cons]
    exact List.nodup_cons.mpr ⟨foreign, owns.apart⟩
  · cases member with
    | head => exact Function.update_self block (some x) heap
    | tail _ member => exact kept.live p member

theorem Owns.claim (claimed : heap.claim block x = some heap') :
    heap'.Owns ((block, x) :: owned) := by
  rw [Heap.claim] at claimed
  cases unused : heap block with
  | some _ =>
      rw [unused] at claimed
      cases claimed
  | none =>
      rw [unused] at claimed
      cases claimed
      refine owns.update_cons (fun member => ?_) x
      obtain ⟨p, owned_, rfl⟩ := List.mem_map.mp member
      rw [owns.live p owned_] at unused
      cases unused

end

section Owns

variable (owns : heap.Owns ((block, x) :: owned))
include owns

theorem Owns.head_foreign : block ∉ owned.map Prod.fst := by
  have apart := owns.apart
  rw [List.map_cons] at apart
  exact (List.nodup_cons.mp apart).1

theorem Owns.tail : heap.Owns owned :=
  owns.sublist (List.sublist_cons_self _ _)

theorem Owns.free : ∃ heap', heap.free block = some heap' ∧ heap'.Owns owned := by
  refine ⟨_, ?_, owns.tail.update owns.head_foreign none⟩
  rw [Heap.free, owns.live (block, x) List.mem_cons_self]

theorem Owns.write (y : α) :
    ∃ heap', heap.write block y = some heap' ∧ heap'.Owns ((block, y) :: owned) := by
  refine ⟨_, ?_, owns.tail.update_cons owns.head_foreign y⟩
  rw [Heap.write, owns.live (block, x) List.mem_cons_self]

end Owns

end Heap

end Metal.Lib
