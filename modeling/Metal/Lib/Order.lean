import Mathlib.Algebra.Group.Int.Units
import Mathlib.Data.Fintype.Card
import Mathlib.Order.WellFounded

namespace Metal.Lib

/-! Orders in which everything comes after what it needs. -/

variable {α : Type} {needs : α → α → Prop}

/-- With `done` settled, each of `order` finds what it needs among `done` and
those before it, and none comes twice. -/
def ReadyOrder (needs : α → α → Prop) : List α → List α → Prop
  | _, [] => True
  | done, a :: rest =>
      a ∉ done ∧ (∀ b, needs a b → b ∈ done) ∧
        ReadyOrder needs (done ++ [a]) rest

variable {done order : List α}

theorem ReadyOrder.snoc {a : α} (ready : ReadyOrder needs done order) (fresh : a ∉ done ++ order)
    (settled : ∀ b, needs a b → b ∈ done ++ order) : ReadyOrder needs done (order ++ [a]) := by
  induction order generalizing done with
  | nil =>
      rw [List.append_nil] at fresh settled
      exact ⟨fresh, settled, trivial⟩
  | cons head rest ih =>
      obtain ⟨headFresh, headSettled, restReady⟩ := ready
      refine ⟨headFresh, headSettled, ih restReady ?_ ?_⟩
      · simpa [List.append_assoc] using fresh
      · simpa [List.append_assoc] using settled

theorem ReadyOrder.nodup (ready : ReadyOrder needs done order) :
    order.Nodup ∧ ∀ a ∈ order, a ∉ done := by
  induction order generalizing done with
  | nil => simp
  | cons head rest ih =>
      obtain ⟨headFresh, -, restReady⟩ := ready
      obtain ⟨restNodup, restFresh⟩ := ih restReady
      constructor
      · refine restNodup.cons fun member => ?_
        exact restFresh head member (List.mem_append_right _ List.mem_cons_self)
      · intro a member
        rcases List.mem_cons.mp member with rfl | member
        · exact headFresh
        · exact fun inDone =>
            restFresh a member (List.mem_append_left _ inDone)

theorem ReadyOrder.idxOf_lt [DecidableEq α] (ready : ReadyOrder needs done order) {a b : α}
    (member : a ∈ order) (needed : needs a b) (fresh : b ∉ done) :
    order.idxOf b < order.idxOf a := by
  induction order generalizing done with
  | nil => nomatch member
  | cons head rest ih =>
      obtain ⟨-, headSettled, restReady⟩ := ready
      rcases eq_or_ne head a with rfl | other
      · exact absurd (headSettled b needed) fresh
      · have inRest : a ∈ rest := (List.mem_cons.mp member).resolve_left other.symm
        rw [List.idxOf_cons_ne rest other]
        rcases eq_or_ne head b with rfl | later
        · rw [List.idxOf_cons_self]
          exact Nat.succ_pos _
        · rw [List.idxOf_cons_ne rest later]
          refine Nat.succ_lt_succ (ih restReady inRest ?_)
          rw [List.mem_append, List.mem_singleton]
          exact not_or.mpr ⟨fresh, later.symm⟩

def Acyclic (needs : α → α → Prop) : Prop := ∀ a, ¬ Relation.TransGen needs a a

theorem ReadyOrder.acyclic [DecidableEq α] (ready : ReadyOrder needs [] order)
    (all : ∀ a, a ∈ order) : Acyclic needs := by
  have before (a b : α) (path : Relation.TransGen needs a b) : order.idxOf b < order.idxOf a := by
    induction path with
    | single needed => exact ready.idxOf_lt (all _) needed List.not_mem_nil
    | tail _ needed ih =>
        exact (ready.idxOf_lt (all _) needed List.not_mem_nil).trans ih
  exact fun a cycle => Nat.lt_irrefl _ (before a a cycle)

theorem Acyclic.exists_ready [Finite α] (acyclic : Acyclic needs) {a : α} (fresh : a ∉ done) :
    ∃ b, b ∉ done ∧ ∀ c, needs b c → c ∈ done := by
  let after (c b : α) : Prop := Relation.TransGen needs b c
  have trans : IsTrans α after := ⟨fun _ _ _ first second => second.trans first⟩
  have irrefl : Std.Irrefl after := ⟨acyclic⟩
  obtain ⟨b, left, least⟩ :=
    (Finite.wellFounded_of_trans_of_irrefl after).has_min { b | b ∉ done } ⟨a, fresh⟩
  refine ⟨b, left, fun c needed => ?_⟩
  by_contra undone
  exact least c undone (.single needed)

theorem mem_of_nodup_of_length {n : Nat} {order : List (Fin n)}
    (nodup : order.Nodup) (full : n ≤ order.length) (i : Fin n) : i ∈ order := by
  have card : order.toFinset.card = Fintype.card (Fin n) := by
    rw [List.toFinset_card_of_nodup nodup, Fintype.card_fin]
    exact le_antisymm (by simpa using nodup.length_le_card) full
  have everything := Finset.card_eq_iff_eq_univ _ |>.mp card
  exact List.mem_toFinset.mp (everything ▸ Finset.mem_univ i)

end Metal.Lib
