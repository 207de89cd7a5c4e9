import Metal.Net.HttpClient

namespace Metal.Net.HttpClient

open Metal.Lib

/-! The length that a fetch reads from a header, said of the header's text alone. -/

section Place

variable {key text place : Bytes}

def FirstPlace (key text place : Bytes) : Prop :=
  (place <:+ text ∧ key <+: place) ∧
    ∀ other, other <:+ text → key <+: other → other.length ≤ place.length

theorem strstr_eq_none (some_ : key ≠ []) : strstr key text = none ↔ ¬ key <:+: text := by
  induction text with
  | nil => simp [strstr, some_]
  | cons c text ih =>
      rw [strstr, List.infix_cons_iff]
      split
      · rename_i here
        simp [List.isPrefixOf_iff_prefix.mp here]
      · rename_i other
        rw [List.isPrefixOf_iff_prefix] at other
        simp [ih, other]

theorem strstr_eq_some (some_ : key ≠ []) :
    strstr key text = some place ↔ FirstPlace key text place := by
  induction text with
  | nil =>
      constructor
      · rintro ⟨⟩
      · rintro ⟨⟨inside, start⟩, -⟩
        rw [List.suffix_nil.mp inside, List.prefix_nil] at start
        exact absurd start some_
  | cons c text ih =>
      rw [strstr]
      split
      · rename_i here
        rw [List.isPrefixOf_iff_prefix] at here
        constructor
        · rintro ⟨⟩
          exact ⟨⟨List.suffix_rfl, here⟩, fun other inside _ => inside.length_le⟩
        · rintro ⟨⟨inside, -⟩, first⟩
          rw [inside.eq_of_length_le (first _ List.suffix_rfl here)]
      · rename_i absent
        rw [List.isPrefixOf_iff_prefix] at absent
        rw [ih]
        constructor
        · rintro ⟨⟨inside, start⟩, first⟩
          refine ⟨⟨inside.trans (List.suffix_cons c text), start⟩, fun other within starts => ?_⟩
          rcases List.suffix_cons_iff.mp within with rfl | later
          · exact absurd starts absent
          · exact first other later starts
        · rintro ⟨⟨inside, start⟩, first⟩
          rcases List.suffix_cons_iff.mp inside with rfl | later
          · exact absurd start absent
          · exact ⟨⟨later, start⟩, fun other within =>
              first other (within.trans (List.suffix_cons c text))⟩

end Place

def decimal (digits : Bytes) : Nat := digits.foldl (fun v c => v * 10 + (c.toNat - 48)) 0

def Numbered (text : Bytes) (v : Nat) : Prop :=
  ∃ more, text = 32 :: more ∧ more.takeWhile isDigit ≠ [] ∧
    v = decimal (more.takeWhile isDigit) % 2 ^ 32

theorem digit_value {c : UInt8} (digit : isDigit c = true) :
    (c - 48).toUInt32.toNat = c.toNat - 48 := by
  rw [isDigit, Bool.and_eq_true, decide_eq_true_iff] at digit
  rw [UInt8.toNat_toUInt32, UInt8.toNat_sub_of_le _ _ digit.1]
  rfl

theorem scanFrom_eq (v : UInt32) (n : Nat) (any : Bool) (text : Bytes)
    (same : v.toNat = n % 2 ^ 32) :
    (scanFrom v any text).map UInt32.toNat =
      if any ∨ text.takeWhile isDigit ≠ [] then
        some ((text.takeWhile isDigit).foldl (fun v c => v * 10 + (c.toNat - 48)) n % 2 ^ 32)
      else none := by
  induction text generalizing v n any with
  | nil => cases any <;> simp [scanFrom, same]
  | cons c text ih =>
      rw [scanFrom]
      split
      · rename_i digit
        have step : (v * 10 + (c - 48).toUInt32).toNat =
            (n * 10 + (c.toNat - 48)) % 2 ^ 32 := by
          rw [UInt32.toNat_add, UInt32.toNat_mul, digit_value digit, same]
          change (n % 2 ^ 32 * 10 % 2 ^ 32 + (c.toNat - 48)) % 2 ^ 32 = _
          omega
        rw [ih _ _ _ step, List.takeWhile_cons_of_pos digit, if_pos (.inl rfl),
          if_pos (.inr (List.cons_ne_nil _ _)), List.foldl_cons]
      · rename_i other
        rw [List.takeWhile_cons_of_neg other]
        cases any <;> simp [same]

variable {v : UInt32}

theorem scanUint_eq_some {text : Bytes} :
    scanUint text = some v ↔
      text.takeWhile isDigit ≠ [] ∧ v.toNat = decimal (text.takeWhile isDigit) % 2 ^ 32 := by
  have scanned := scanFrom_eq 0 0 false text rfl
  rw [← scanUint] at scanned
  constructor
  · intro found
    rw [found, Option.map_some] at scanned
    split at scanned
    · rename_i digits
      exact ⟨digits.resolve_left Bool.false_ne_true, Option.some.inj scanned⟩
    · cases scanned
  · rintro ⟨digits, value⟩
    rw [if_pos (.inr digits), ← decimal, ← value, Option.map_eq_some_iff] at scanned
    obtain ⟨u, found, same⟩ := scanned
    rw [found, UInt32.toNat_inj.mp same]

def window (hdr : Bytes) : Bytes := (hdr.take 255).takeWhile (· ≠ 0)

def capital : Bytes := ascii "Content-Length:"

def small : Bytes := ascii "content-length:"

/-- Either spelling, the capital one first, then a space and the number. -/
def Shows (hdr : Bytes) (v : Nat) : Prop :=
  ∃ behind, Numbered behind v ∧
    (FirstPlace capital (window hdr) (capital ++ behind) ∨
      ¬ capital <:+: window hdr ∧ FirstPlace small (window hdr) (small ++ behind))

theorem sscanfClen_eq_some {name behind : Bytes} (plain : 58 ∉ name) :
    sscanfClen (name ++ [58] ++ behind) = some v ↔ Numbered behind v.toNat := by
  have colon : (name ++ [58] ++ behind).dropWhile (· ≠ 58) = 58 :: behind := by
    rw [List.append_assoc, List.dropWhile_append_of_pos]
    · rfl
    · intro c member
      rw [decide_eq_true_iff]
      rintro rfl
      exact plain member
  rw [sscanfClen, colon]
  split
  · rename_i more space
    rw [(List.cons.inj space).2, scanUint_eq_some]
    constructor
    · rintro ⟨digits, value⟩
      exact ⟨more, rfl, digits, value⟩
    · rintro ⟨_, ⟨⟩, digits, value⟩
      exact ⟨digits, value⟩
  · rename_i other
    constructor
    · rintro ⟨⟩
    · rintro ⟨more, space, -⟩
      exact absurd (congrArg (58 :: ·) space) (other more)

theorem sscanfClen_place {key name place text : Bytes} (spelled : key = name ++ [58])
    (plain : 58 ∉ name) (first : FirstPlace key text place) :
    sscanfClen place = some v ↔
      ∃ behind, Numbered behind v.toNat ∧ FirstPlace key text (key ++ behind) := by
  obtain ⟨behind, rfl⟩ := first.1.2
  rw [spelled, sscanfClen_eq_some plain, ← spelled]
  constructor
  · intro numbered
    exact ⟨behind, numbered, first⟩
  · rintro ⟨other, numbered, place⟩
    have same := (strstr_eq_some (by simp [spelled])).mpr first
    rw [(strstr_eq_some (by simp [spelled])).mpr place, Option.some_inj] at same
    rw [← List.append_cancel_left same]
    exact numbered

theorem inside_of_place {key place text : Bytes} (first : FirstPlace key text place) :
    key <:+: text :=
  first.1.2.isInfix.trans first.1.1.isInfix

/-- What `parseClen` makes of the two places that it looks for. -/
def clenAt (upper lower : Option Bytes) : Option UInt32 :=
  match upper with
  | some k => sscanfClen k
  | none =>
      match lower with
      | some k => sscanfClen k
      | none => none

theorem parseClen_eq_some {hdr : Bytes} : parseClen hdr = some v ↔ Shows hdr v.toNat := by
  have parsed : parseClen hdr = clenAt (strstr capital (window hdr)) (strstr small (window hdr)) :=
    rfl
  have spelled : capital = ascii "Content-Length" ++ [58] := rfl
  have spelledSmall : small = ascii "content-length" ++ [58] := rfl
  rw [parsed, Shows]
  cases upper : strstr capital (window hdr) with
  | some place =>
      have first := (strstr_eq_some (by decide)).mp upper
      dsimp only [clenAt]
      rw [sscanfClen_place spelled (by decide) first]
      simp [inside_of_place first]
  | none =>
      have absent := (strstr_eq_none (by decide)).mp upper
      have unplaced : ∀ place, ¬ FirstPlace capital (window hdr) place :=
        fun place first => absent (inside_of_place first)
      dsimp only [clenAt]
      cases lower : strstr small (window hdr) with
      | some place =>
          have first := (strstr_eq_some (by decide)).mp lower
          dsimp only [clenAt]
          rw [sscanfClen_place spelledSmall (by decide) first]
          simp [absent, unplaced]
      | none =>
          have gone := (strstr_eq_none (by decide)).mp lower
          have smallUnplaced : ∀ place, ¬ FirstPlace small (window hdr) place :=
            fun place first => gone (inside_of_place first)
          simp [unplaced, smallUnplaced]

theorem shows_iff {hdr : Bytes} {v : Nat} :
    Shows hdr v ↔ ∃ u, parseClen hdr = some u ∧ u.toNat = v := by
  constructor
  · intro shown
    have fits : v < 2 ^ 32 := by
      obtain ⟨_, ⟨_, -, -, rfl⟩, -⟩ := shown
      exact Nat.mod_lt _ (by decide)
    have same : (UInt32.ofNat v).toNat = v := UInt32.toNat_ofNat_of_lt' fits
    exact ⟨UInt32.ofNat v, parseClen_eq_some.mpr (by rwa [same]), same⟩
  · rintro ⟨u, parsed, rfl⟩
    exact parseClen_eq_some.mp parsed

theorem Shows.unique {hdr : Bytes} {v w : Nat} (shown : Shows hdr v) (other : Shows hdr w) :
    v = w := by
  obtain ⟨u, parsed, rfl⟩ := shows_iff.mp shown
  obtain ⟨u', again, rfl⟩ := shows_iff.mp other
  rw [parsed] at again
  cases again
  rfl

end Metal.Net.HttpClient
