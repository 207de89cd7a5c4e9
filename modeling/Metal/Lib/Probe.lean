import Mathlib.Data.Nat.ModEq

namespace Metal.Lib

/-! Hash tables that are probed slot after slot and never lose an entry, and the finite maps
that they stand for. -/

abbrev Registry (κ ρ : Type) := κ → Option (Nat × ρ)

namespace Registry

variable {κ ρ : Type}

def empty : Registry κ ρ := fun _ => none

def update (m : Registry κ ρ) (handle : Nat) (change : ρ → ρ) : Registry κ ρ := fun key =>
  (m key).map fun entry => if entry.1 = handle then (entry.1, change entry.2) else entry

/-- A key is given a fresh record: under its handle, under a free one, or, where all handles
below `cap` have keys, it is refused with `cap`. -/
def Adds [DecidableEq κ] (cap : Nat) (m : Registry κ ρ) (key : κ) (record : ρ) (handle : Nat)
    (next : Registry κ ρ) : Prop :=
  (handle < cap ∧ (∀ other old, m other = some (handle, old) → other = key) ∧
    (∀ entry, m key = some entry → entry.1 = handle) ∧
    next = Function.update m key (some (handle, record))) ∨
  (handle = cap ∧ m key = none ∧ (∀ h < cap, ∃ other old, m other = some (h, old)) ∧ next = m)

def handleOf (cap : Nat) (m : Registry κ ρ) (key : κ) : Nat := ((m key).map Prod.fst).getD cap

end Registry

section Probe

variable {κ ρ : Type} [DecidableEq κ] {keys : Nat → Option κ} {rows : Nat → ρ} {cap : Nat}
  {hash : κ → Nat} {key : κ}

/-- The first slot from `start + i` on that is free or has the key; `left` of the `cap` slots
are still to be seen. -/
def probe (keys : Nat → Option κ) (cap start : Nat) (key : κ) : Nat → Nat → Nat
  | 0, _ => cap
  | left + 1, i =>
      match keys ((start + i) % cap) with
      | none => (start + i) % cap
      | some other =>
          if other = key then (start + i) % cap else probe keys cap start key left (i + 1)

def Other (keys : Nat → Option κ) (key : κ) (slot : Nat) : Prop :=
  ∃ other, keys slot = some other ∧ other ≠ key

theorem probe_cases (keys : Nat → Option κ) (start : Nat) (key : κ) {left i : Nat}
    (all : left + i = cap) :
    (probe keys cap start key left i = cap ∧
        ∀ j, i ≤ j → j < cap → Other keys key ((start + j) % cap)) ∨
      ∃ j, i ≤ j ∧ j < cap ∧ probe keys cap start key left i = (start + j) % cap ∧
        (keys ((start + j) % cap) = none ∨ keys ((start + j) % cap) = some key) ∧
        ∀ l, i ≤ l → l < j → Other keys key ((start + l) % cap) := by
  induction left generalizing i with
  | zero => exact .inl ⟨rfl, fun j after before => by omega⟩
  | succ left ih =>
      rw [probe]
      cases here : keys ((start + i) % cap) with
      | none =>
          exact .inr ⟨i, Nat.le_refl i, by omega, rfl, .inl here, fun l after before => by omega⟩
      | some other =>
          dsimp only
          split
          next same =>
            rw [same] at here
            exact .inr ⟨i, Nat.le_refl i, by omega, rfl, .inr here, fun l after before => by omega⟩
          next different =>
            have passed : Other keys key ((start + i) % cap) := ⟨other, here, different⟩
            have later {l : Nat} (after : i ≤ l) (rest : i + 1 ≤ l →
                Other keys key ((start + l) % cap)) : Other keys key ((start + l) % cap) := by
              rcases Nat.eq_or_lt_of_le after with rfl | more
              · exact passed
              · exact rest more
            obtain ⟨none_, others⟩ | ⟨j, after, inside, found, ends, others⟩ :=
              ih (i := i + 1) (by omega)
            · exact .inl ⟨none_, fun j from_ below => later from_ fun more => others j more below⟩
            · exact .inr ⟨j, by omega, inside, found, ends, fun l from_ below =>
                later from_ fun more => others l more below⟩

/-- Each key is where its probe sequence first has a free slot or the key. -/
def Placed (keys : Nat → Option κ) (cap : Nat) (hash : κ → Nat) : Prop :=
  ∀ slot < cap, ∀ key, keys slot = some key →
    ∃ j < cap, slot = (hash key + j) % cap ∧
      ∀ l < j, Other keys key ((hash key + l) % cap)

def slotOf (keys : Nat → Option κ) (cap : Nat) (hash : κ → Nat) (key : κ) : Nat :=
  probe keys cap (hash key) key cap 0

theorem Placed.slotOf_eq (placed : Placed keys cap hash) {slot : Nat} (inside : slot < cap)
    (here : keys slot = some key) : slotOf keys cap hash key = slot := by
  obtain ⟨j, below, rfl, passed⟩ := placed slot inside key here
  obtain ⟨-, others⟩ | ⟨j', -, below', found, ends, others⟩ :=
    probe_cases keys (hash key) key (Nat.add_zero cap)
  · obtain ⟨other, there, different⟩ := others j (Nat.zero_le j) below
    rw [here] at there
    exact (different (Option.some.inj there).symm).elim
  · rw [slotOf, found]
    rcases Nat.lt_trichotomy j j' with before | rfl | after
    · obtain ⟨other, there, different⟩ := others j (Nat.zero_le j) before
      rw [here] at there
      exact (different (Option.some.inj there).symm).elim
    · rfl
    · obtain ⟨other, there, different⟩ := passed j' after
      rcases ends with free | same
      · rw [free] at there
        exact (Option.some_ne_none _ there.symm).elim
      · rw [same] at there
        exact (different (Option.some.inj there).symm).elim

/-- Where the key is searched when it is not in the table: a free slot, unless all slots have
other keys. -/
theorem slotOf_cases (keys : Nat → Option κ) (cap : Nat) (hash : κ → Nat) (key : κ) :
    (slotOf keys cap hash key = cap ∧ ∀ slot < cap, Other keys key slot) ∨
      (slotOf keys cap hash key < cap ∧
        (keys (slotOf keys cap hash key) = none ∨ keys (slotOf keys cap hash key) = some key)) := by
  rcases probe_cases keys (hash key) key (Nat.add_zero cap) with
    ⟨none_, others⟩ | ⟨j, -, below, found, ends, -⟩
  · refine .inl ⟨none_, fun slot inside => ?_⟩
    -- every slot is some steps behind the first one
    have behind := others ((slot + (cap - hash key % cap)) % cap) (Nat.zero_le _)
      (Nat.mod_lt _ (by omega))
    have start : hash key % cap < cap := Nat.mod_lt _ (by omega)
    have same : (hash key + (slot + (cap - hash key % cap)) % cap) % cap = slot := by
      rw [Nat.add_mod, Nat.mod_mod, ← Nat.add_mod_mod, Nat.mod_mod, Nat.add_mod_mod,
        show hash key % cap + (slot + (cap - hash key % cap)) = slot + cap by omega,
        Nat.add_mod_right, Nat.mod_eq_of_lt inside]
    rwa [same] at behind
  · rw [slotOf, found]
    exact .inr ⟨Nat.mod_lt _ (by omega), ends⟩

theorem Placed.put (placed : Placed keys cap hash) (inside : slotOf keys cap hash key < cap) :
    Placed (Function.update keys (slotOf keys cap hash key) (some key)) cap hash := by
  rcases probe_cases keys (hash key) key (Nat.add_zero cap) with
    ⟨none_, -⟩ | ⟨j, -, below, found, ends, others⟩
  · rw [slotOf, none_] at inside
    exact (Nat.lt_irrefl _ inside).elim
  have here : slotOf keys cap hash key = (hash key + j) % cap := found
  rw [here]
  intro slot small key' there
  rcases Decidable.em (slot = (hash key + j) % cap) with rfl | apart
  · rw [Function.update_self] at there
    obtain rfl := Option.some.inj there
    refine ⟨j, below, rfl, fun l before => ?_⟩
    obtain ⟨other, at_, different⟩ := others l (Nat.zero_le l) before
    refine ⟨other, ?_, different⟩
    rw [Function.update_of_ne]
    · exact at_
    · intro same
      rw [same] at at_
      rcases ends with free | own
      · rw [free] at at_
        exact Option.some_ne_none _ at_.symm
      · rw [own] at at_
        exact different (Option.some.inj at_).symm
  · rw [Function.update_of_ne apart] at there
    obtain ⟨j', below', same, passed⟩ := placed slot small key' there
    refine ⟨j', below', same, fun l before => ?_⟩
    obtain ⟨other, at_, different⟩ := passed l before
    rcases Decidable.em ((hash key' + l) % cap = (hash key + j) % cap) with same' | apart'
    · rw [same'] at at_ ⊢
      rw [Other, Function.update_self]
      refine ⟨key, rfl, ?_⟩
      rcases ends with free | own
      · rw [free] at at_
        exact (Option.some_ne_none _ at_.symm).elim
      · rw [own] at at_
        rwa [Option.some.inj at_]
    · exact ⟨other, by rwa [Function.update_of_ne apart'], different⟩

structure Stands (keys : Nat → Option κ) (rows : Nat → ρ) (cap : Nat) (hash : κ → Nat)
    (m : Registry κ ρ) : Prop where
  placed : Placed keys cap hash
  entry : ∀ key handle record, m key = some (handle, record) ↔
    handle < cap ∧ keys handle = some key ∧ rows handle = record

variable {m : Registry κ ρ}

omit [DecidableEq κ] in
theorem Stands.empty (rows : Nat → ρ) (cap : Nat) (hash : κ → Nat) :
    Stands (fun _ => none) rows cap hash (Registry.empty : Registry κ ρ) := by
  refine ⟨fun _ _ _ there => (Option.some_ne_none _ there.symm).elim, fun _ _ _ => ?_⟩
  exact iff_of_false (Option.some_ne_none _).symm fun both =>
    Option.some_ne_none _ both.2.1.symm

theorem Stands.slotOf (stands : Stands keys rows cap hash m) (key : κ) :
    (keys (Lib.slotOf keys cap hash key) = some key ∧ Lib.slotOf keys cap hash key < cap ∧
        Lib.slotOf keys cap hash key = m.handleOf cap key) ∨
      (m key = none ∧ (Lib.slotOf keys cap hash key = cap ∨
        keys (Lib.slotOf keys cap hash key) = none)) := by
  cases entry : m key with
  | some found =>
      obtain ⟨handle, record⟩ := found
      obtain ⟨inside, here, -⟩ := (stands.entry key handle record).mp entry
      rw [stands.placed.slotOf_eq inside here, Registry.handleOf, entry]
      exact .inl ⟨here, inside, rfl⟩
  | none =>
      refine .inr ⟨rfl, ?_⟩
      rcases slotOf_cases keys cap hash key with ⟨full, -⟩ | ⟨inside, free | own⟩
      · exact .inl full
      · exact .inr free
      · have there := (stands.entry key _ _).mpr ⟨inside, own, rfl⟩
        rw [entry] at there
        exact (Option.some_ne_none _ there.symm).elim

theorem Stands.put (stands : Stands keys rows cap hash m) (key : κ) (rows' : Nat → ρ) (record : ρ)
    (inside : Lib.slotOf keys cap hash key < cap)
    (own : rows' (Lib.slotOf keys cap hash key) = record)
    (same : ∀ slot, slot ≠ Lib.slotOf keys cap hash key → rows' slot = rows slot) :
    ∃ next, m.Adds cap key record (Lib.slotOf keys cap hash key) next ∧
      Stands (Function.update keys (Lib.slotOf keys cap hash key) (some key)) rows' cap hash
        next := by
  refine ⟨_, .inl ⟨inside, fun other old entry => ?_, fun entry there => ?_, rfl⟩,
    stands.placed.put inside, fun other handle old => ?_⟩
  · obtain ⟨-, here, -⟩ := (stands.entry other _ old).mp entry
    rcases stands.slotOf key with ⟨own, -, -⟩ | ⟨-, full | free⟩
    · rw [own] at here
      exact (Option.some.inj here).symm
    · rw [full] at inside
      exact (Nat.lt_irrefl _ inside).elim
    · rw [free] at here
      exact (Option.some_ne_none _ here.symm).elim
  · obtain ⟨handle, old⟩ := entry
    obtain ⟨small, here, -⟩ := (stands.entry key handle old).mp there
    exact (stands.placed.slotOf_eq small here).symm
  · rcases Decidable.em (other = key) with rfl | different
    · rw [Function.update_self]
      constructor
      · intro entry
        obtain ⟨rfl, rfl⟩ := Prod.mk.inj (Option.some.inj entry)
        exact ⟨inside, Function.update_self .., own⟩
      · rintro ⟨small, here, rfl⟩
        rcases Decidable.em (handle = Lib.slotOf keys cap hash other) with rfl | apart
        · rw [own]
        · rw [Function.update_of_ne apart] at here
          exact (apart (stands.placed.slotOf_eq small here).symm).elim
    · rw [Function.update_of_ne different, stands.entry]
      refine and_congr_right fun small => ?_
      rcases Decidable.em (handle = Lib.slotOf keys cap hash key) with rfl | apart
      · rw [Function.update_self]
        refine iff_of_false (fun both => ?_) fun both => different (Option.some.inj both.1).symm
        rcases stands.slotOf key with ⟨taken, -, -⟩ | ⟨-, full | free⟩
        · rw [taken] at both
          exact different (Option.some.inj both.1).symm
        · exact Nat.lt_irrefl _ (full ▸ inside)
        · rw [free] at both
          exact Option.some_ne_none _ both.1.symm
      · rw [Function.update_of_ne apart, same handle apart]

theorem Stands.refuse (stands : Stands keys rows cap hash m) (record : ρ)
    (full : ¬ Lib.slotOf keys cap hash key < cap) :
    m.Adds cap key record (Lib.slotOf keys cap hash key) m := by
  rcases slotOf_cases keys cap hash key with ⟨at_, others⟩ | ⟨inside, -⟩
  · refine .inr ⟨at_, ?_, fun slot small => ?_, rfl⟩
    · rcases stands.slotOf key with ⟨-, inside, -⟩ | ⟨absent, -⟩
      · exact (full inside).elim
      · exact absent
    · obtain ⟨other, there, -⟩ := others slot small
      exact ⟨other, rows slot, (stands.entry other slot _).mpr ⟨small, there, rfl⟩⟩
  · exact (full inside).elim

omit [DecidableEq κ] in
theorem Stands.change (stands : Stands keys rows cap hash m) {rows' : Nat → ρ} (handle : Nat)
    (change : ρ → ρ) (taken : ∀ key, keys handle = some key → rows' handle = change (rows handle))
    (same : ∀ slot, slot ≠ handle → rows' slot = rows slot) :
    Stands keys rows' cap hash (m.update handle change) := by
  refine ⟨stands.placed, fun key slot record => ?_⟩
  rw [Registry.update, Option.map_eq_some_iff]
  constructor
  · rintro ⟨⟨slot', old⟩, there, becomes⟩
    obtain ⟨small, here, rfl⟩ := (stands.entry key slot' old).mp there
    dsimp only at becomes
    split at becomes
    next isHandle =>
      obtain ⟨rfl, rfl⟩ := Prod.mk.inj becomes
      rw [isHandle] at here ⊢
      exact ⟨isHandle ▸ small, here, taken key here⟩
    next other =>
      obtain ⟨rfl, rfl⟩ := Prod.mk.inj becomes
      exact ⟨small, here, same _ other⟩
  · rintro ⟨small, here, rfl⟩
    refine ⟨(slot, rows slot), (stands.entry key slot _).mpr ⟨small, here, rfl⟩, ?_⟩
    dsimp only
    split
    next isHandle =>
      rw [isHandle] at here ⊢
      rw [taken key here]
    next other => rw [same slot other]

end Probe

end Metal.Lib
