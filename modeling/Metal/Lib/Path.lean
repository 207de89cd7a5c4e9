import Mathlib.Algebra.Group.Int.Units
import Mathlib.Data.List.Nodup

namespace Metal.Lib

/-! Intrusive singly linked lists: what the links say, for nodes of any type. -/

variable {α : Type}

/-- Following `next` from `start` visits the nodes `l` in order and arrives at
the link `stop`. -/
def Path (next : α → Option α) : Option α → List α → Option α → Prop
  | start, [], stop => start = stop
  | start, a :: l, stop => start = some a ∧ Path next (next a) l stop

namespace Path

variable {next : α → Option α} {start stop : Option α} {l l' : List α} {a b : α}

@[simp] theorem nil_iff : Path next start [] stop ↔ start = stop := Iff.rfl

@[simp] theorem cons_iff :
    Path next start (a :: l) stop ↔
      start = some a ∧ Path next (next a) l stop := Iff.rfl

theorem append_iff :
    Path next start (l ++ l') stop ↔
      ∃ middle, Path next start l middle ∧ Path next middle l' stop := by
  induction l generalizing start with
  | nil => simp
  | cons a l ih =>
      constructor
      · rintro ⟨rfl, rest⟩
        obtain ⟨middle, first, second⟩ := ih.mp rest
        exact ⟨middle, ⟨rfl, first⟩, second⟩
      · rintro ⟨middle, ⟨rfl, first⟩, second⟩
        exact ⟨rfl, ih.mpr ⟨middle, first, second⟩⟩

theorem congr {next' : α → Option α} (path : Path next start l stop)
    (same : ∀ a ∈ l, next' a = next a) : Path next' start l stop := by
  induction l generalizing start with
  | nil => exact path
  | cons a l ih =>
      obtain ⟨rfl, rest⟩ := path
      refine ⟨rfl, ?_⟩
      rw [same a List.mem_cons_self]
      exact ih rest fun b member => same b (List.mem_cons_of_mem _ member)

theorem unique (first : Path next start l none)
    (second : Path next start l' none) : l = l' := by
  induction l generalizing start l' with
  | nil =>
      cases first
      cases l' with
      | nil => rfl
      | cons a l' => cases second.1
  | cons a l ih =>
      obtain ⟨rfl, rest⟩ := first
      cases l' with
      | nil => cases second
      | cons b l' =>
          obtain ⟨same, rest'⟩ := second
          cases same
          rw [ih rest rest']

theorem not_mem_of_loop (path : Path next start l none)
    (loop : next a = some a) : a ∉ l := by
  intro member
  induction l generalizing start with
  | nil => cases member
  | cons b l ih =>
      obtain ⟨rfl, rest⟩ := path
      rcases List.mem_cons.mp member with rfl | member
      · cases l with
        | nil =>
            rw [loop] at rest
            cases rest
        | cons c l =>
            rw [loop] at rest
            cases rest.1
            have again : Path next (some a) (a :: l) none := ⟨rfl, rest.2⟩
            exact ih again List.mem_cons_self
      · exact ih rest member

theorem head_mem (path : Path next start l stop) (head : start = some a) :
    a ∈ l ∨ stop = some a := by
  cases l with
  | nil => exact .inr (path.symm.trans head)
  | cons b l =>
      have same := path.1.symm.trans head
      cases same
      exact .inl List.mem_cons_self

theorem next_mem (path : Path next start l stop) (member : a ∈ l)
    (link : next a = some b) : b ∈ l ∨ stop = some b := by
  induction l generalizing start with
  | nil => cases member
  | cons c l ih =>
      obtain ⟨_, rest⟩ := path
      rcases List.mem_cons.mp member with rfl | member
      · exact (rest.head_mem link).imp_left (List.mem_cons_of_mem _)
      · exact (ih rest member).imp_left (List.mem_cons_of_mem _)

theorem mem_of_closed {p : α → Prop} (path : Path next start l stop)
    (head : ∀ a, start = some a → p a)
    (links : ∀ a b, p a → next a = some b → p b) (member : a ∈ l) : p a := by
  induction l generalizing start with
  | nil => cases member
  | cons b l ih =>
      obtain ⟨first, rest⟩ := path
      have found := head b first
      rcases List.mem_cons.mp member with rfl | member
      · exact found
      · exact ih rest (fun c link => links b c found link) member

section Update

variable [DecidableEq α] {link : Option α}

theorem update_of_not_mem (path : Path next start l stop) (off : a ∉ l) :
    Path (Function.update next a link) start l stop := by
  apply path.congr
  intro b member
  apply Function.update_of_ne
  rintro rfl
  exact off member

theorem relink_last (path : Path next start (l ++ [b]) stop) (off : b ∉ l) :
    Path (Function.update next b link) start (l ++ [b]) link := by
  obtain ⟨middle, first, second⟩ := append_iff.mp path
  refine append_iff.mpr ⟨middle, first.update_of_not_mem off, second.1, ?_⟩
  simp

end Update

end Path

end Metal.Lib
