import Mathlib.Algebra.Group.Int.Units
import Mathlib.Data.Set.Function

namespace Metal.Lib

/-! Last-writer-wins registers: of the values offered to it, a register keeps
the one with the greatest stamp. Offers may be repeated and come in any order. -/

variable {α β κ : Type} [LinearOrder β] [DecidableEq κ] (stamp : α → β)

def offer (held : Option α) (value : α) : Option α :=
  match held with
  | none => some value
  | some kept => if stamp kept < stamp value then some value else some kept

/-- `latest` is one of `values` and none of them has a greater stamp. -/
def Latest (values : List α) (latest : α) : Prop :=
  latest ∈ values ∧ ∀ value ∈ values, stamp value ≤ stamp latest

theorem offer_isSome (held : Option α) (value : α) :
    ∃ kept, offer stamp held value = some kept ∧ stamp value ≤ stamp kept ∧
      (∀ before, held = some before → stamp before ≤ stamp kept) ∧
        (kept = value ∨ held = some kept) := by
  cases held with
  | none => exact ⟨value, rfl, le_rfl, by simp, .inl rfl⟩
  | some before =>
      by_cases newer : stamp before < stamp value
      · refine ⟨value, if_pos newer, le_rfl, ?_, .inl rfl⟩
        rintro _ ⟨⟩
        exact newer.le
      · refine ⟨before, if_neg newer, not_lt.mp newer, ?_, .inr rfl⟩
        rintro _ ⟨⟩
        exact le_rfl

theorem foldl_offer_some (values : List α) (before : α) :
    ∃ kept, values.foldl (offer stamp) (some before) = some kept ∧
      Latest stamp (before :: values) kept := by
  induction values generalizing before with
  | nil => exact ⟨before, rfl, by simp [Latest]⟩
  | cons value values ih =>
      obtain ⟨next, offered, above, kept, source⟩ :=
        offer_isSome stamp (some before) value
      obtain ⟨final, folded, member, greatest⟩ := ih next
      refine ⟨final, by rw [List.foldl_cons, offered, folded], ?_, ?_⟩
      · rcases List.mem_cons.mp member with rfl | member
        · rcases source with rfl | source
          · exact List.mem_cons_of_mem _ List.mem_cons_self
          · cases source
            exact List.mem_cons_self
        · exact List.mem_cons_of_mem _ (List.mem_cons_of_mem _ member)
      · intro other otherMember
        have nextBelow := greatest next List.mem_cons_self
        rcases List.mem_cons.mp otherMember with rfl | otherMember
        · exact (kept _ rfl).trans nextBelow
        · rcases List.mem_cons.mp otherMember with rfl | otherMember
          · exact above.trans nextBelow
          · exact greatest other (List.mem_cons_of_mem _ otherMember)

variable {stamp}

variable {values : List α}

section Shared

variable (distinct : ∀ value ∈ values, ∀ value' ∈ values, stamp value = stamp value' → value = value')
include distinct

theorem Latest.unique {latest latest' : α} (first : Latest stamp values latest)
    (second : Latest stamp values latest') : latest = latest' :=
  distinct _ first.1 _ second.1
    (le_antisymm (second.2 _ first.1) (first.2 _ second.1))

/-- What a register holds after all the offers depends only on which values
were offered. -/
theorem Latest.foldl_offer {latest : α} (greatest : Latest stamp values latest) :
    values.foldl (offer stamp) none = some latest := by
  cases values with
  | nil => cases greatest.1
  | cons value values =>
      obtain ⟨kept, folded, keptLatest⟩ :=
        foldl_offer_some stamp values value
      rw [List.foldl_cons]
      change values.foldl (offer stamp) (some value) = _
      rw [folded, keptLatest.unique distinct greatest]

end Shared

variable {value : α}

variable (stamp) in
theorem exists_latest (member : value ∈ values) : ∃ latest, Latest stamp values latest := by
  cases values with
  | nil => cases member
  | cons head tail =>
      obtain ⟨kept, -, latest⟩ := foldl_offer_some stamp tail head
      exact ⟨kept, latest⟩

variable (stamp) in
def offerAt (key : α → κ) (held : κ → Option α) (value : α) : κ → Option α :=
  Function.update held (key value) (offer stamp (held (key value)) value)

theorem foldl_offerAt (key : α → κ) (values : List α) (held : κ → Option α)
    (k : κ) :
    values.foldl (offerAt stamp key) held k =
      (values.filter (key · = k)).foldl (offer stamp) (held k) := by
  induction values generalizing held with
  | nil => rfl
  | cons value values ih =>
      rw [List.foldl_cons, ih]
      by_cases same : key value = k
      · subst same
        simp [offerAt]
      · simp [offerAt, same, Function.update_of_ne (Ne.symm same)]

def lastWrite (writes : List (κ × α)) (k : κ) : Option α := writes.reverse.lookup k

theorem mem_of_lastWrite {writes : List (κ × α)} {k : κ} (last : lastWrite writes k = some value) :
    (k, value) ∈ writes := by
  obtain ⟨before, after, same, _⟩ := List.lookup_eq_some_iff.mp last
  rw [← List.mem_reverse, same]
  exact List.mem_append_right _ List.mem_cons_self

theorem lastWrite_of_mem {writes : List (κ × α)} {k : κ} (member : (k, value) ∈ writes) :
    ∃ last, lastWrite writes k = some last := by
  cases last : lastWrite writes k with
  | some value => exact ⟨value, rfl⟩
  | none =>
      have missing := List.lookup_eq_none_iff.mp last _ (List.mem_reverse.mpr member)
      exact absurd rfl (bne_iff_ne.mp missing)

theorem lastWrite_append {old new : List (κ × α)} {k : κ} (last : lastWrite new k = some value) :
    lastWrite (old ++ new) k = some value := by
  rw [lastWrite, List.reverse_append, List.lookup_append, ← lastWrite, last]
  rfl

theorem lastWrite_map_key {κ' : Type} [DecidableEq κ'] {rename : κ → κ'}
    (injective : Function.Injective rename) (writes : List (κ × α)) (k : κ) :
    lastWrite (writes.map fun write => (rename write.1, write.2)) (rename k) =
      lastWrite writes k := by
  unfold lastWrite
  rw [← List.map_reverse]
  induction writes.reverse with
  | nil => rfl
  | cons write rest ih =>
      rw [List.map_cons, List.lookup_cons, List.lookup_cons, ih]
      by_cases same : k = write.1
      · simp [same]
      · have apart : rename k ≠ rename write.1 := fun equal => same (injective equal)
        rw [beq_false_of_ne apart, beq_false_of_ne same]

end Metal.Lib
