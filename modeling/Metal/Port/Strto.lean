import Metal.Lib.CString

namespace Metal.Port.Strto

open Metal.Lib

/-! The integer parsers of the firmware's C library, on boards with a `long` of 32 or of 64
bits. -/

/-- The space that the code skips: blank, tab, line feed, carriage return. -/
def isBlank (c : UInt8) : Bool := c == 32 || c == 9 || c == 10 || c == 13

def digitOf (c : UInt8) : Option Nat :=
  if 48 ≤ c ∧ c ≤ 57 then some (c.toNat - 48)
  else if 97 ≤ c ∧ c ≤ 122 then some (c.toNat - 97 + 10)
  else if 65 ≤ c ∧ c ≤ 90 then some (c.toNat - 65 + 10)
  else none

def signed (text : Bytes) : Bool × Bytes :=
  match text with
  | [] => (false, [])
  | c :: rest => if c = 43 ∨ c = 45 then (c == 45, rest) else (false, c :: rest)

/-- `0x` or `0X` -/
def hexPrefixed (body : Bytes) : Bool :=
  body[0]? == some 48 && (body[1]? == some 120 || body[1]? == some 88)

def radixOf (base : Nat) (body : Bytes) : Nat × Bytes :=
  if base = 0 then
    if hexPrefixed body then (16, body.drop 2)
    else if body[0]? = some 48 then (8, body)
    else (10, body)
  else if base = 16 ∧ hexPrefixed body then (base, body.drop 2)
  else (base, body)

/-- The digit loop; a `long` of `w` bits wraps. -/
def accumulate {w : Nat} (base : Nat) (v : BitVec w) : Bytes → BitVec w × Bytes
  | [] => (v, [])
  | c :: rest =>
      match digitOf c with
      | none => (v, c :: rest)
      | some d =>
          if base ≤ d then (v, c :: rest)
          else accumulate base (v * BitVec.ofNat w base + BitVec.ofNat w d) rest

/-- The value, and how far behind `nptr` the parser sets `*endptr`. -/
structure Parsed (w : Nat) where
  value : BitVec w
  used : Nat

def strtol (w : Nat) (nptr : CString) (base : Int) : Parsed w :=
  if base ≠ 0 ∧ (base < 2 ∨ 36 < base) then ⟨0, 0⟩
  else
    let (negative, body) := signed (nptr.bytes.dropWhile isBlank)
    let (radix, digits) := radixOf base.toNat body
    let (v, rest) := accumulate (w := w) radix 0 digits
    ⟨(if negative then -1 else 1) * v, nptr.length - rest.length⟩

def strtoul (w : Nat) (nptr : CString) (base : Int) : Parsed w := strtol w nptr base

/-- The `long` is extended by its sign. -/
def strtoll (w : Nat) (nptr : CString) (base : Int) : Parsed 64 :=
  let parsed := strtol w nptr base
  ⟨parsed.value.signExtend 64, parsed.used⟩

def strtoull (w : Nat) (nptr : CString) (base : Int) : Parsed 64 :=
  let parsed := strtoul w nptr base
  ⟨parsed.value.setWidth 64, parsed.used⟩

def isSpace (c : UInt8) : Bool := c == 32 || (9 ≤ c && c ≤ 13)

def isDigit (radix : Nat) (c : UInt8) : Bool :=
  match digitOf c with
  | none => false
  | some d => d < radix

def digitsValue (radix : Nat) (digits : Bytes) : Nat :=
  digits.foldl (fun v c => v * radix + (digitOf c).getD 0) 0

/-- The prefix belongs to the number only where a hexadecimal digit follows it. -/
def hexSubject (base : Nat) (body : Bytes) : Bool :=
  (base == 0 || base == 16) && hexPrefixed body && (body[2]?.map (isDigit 16)).getD false

/-- The longest start of a string that is a number, and what is behind it. -/
structure Number where
  negative : Bool
  value : Nat
  rest : Bytes

def radixRequired (base : Nat) (body : Bytes) : Nat × Bytes :=
  if hexSubject base body then (16, body.drop 2)
  else if base = 0 then (if body[0]? = some 48 then 8 else 10, body)
  else (base, body)

def number (base : Nat) (text : Bytes) : Option Number :=
  let (negative, body) := signed (text.dropWhile isSpace)
  let (radix, digits) := radixRequired base body
  if digits.takeWhile (isDigit radix) = [] then none
  else some ⟨negative, digitsValue radix (digits.takeWhile (isDigit radix)),
    digits.dropWhile (isDigit radix)⟩

/-- A value that a signed type of `bits` cannot hold is replaced by the nearest one. -/
def signedResult (bits : Nat) (negative : Bool) (value : Nat) : Int :=
  if negative then max (-(value : Int)) (-2 ^ (bits - 1)) else min (value : Int) (2 ^ (bits - 1) - 1)

def unsignedResult (bits : Nat) (negative : Bool) (value : Nat) : Int :=
  if 2 ^ bits ≤ value then 2 ^ bits - 1
  else if negative then (-(value : Int)) % 2 ^ bits else value

def required (result : Bool → Nat → Int) (base : Nat) (text : Bytes) : Int × Nat :=
  match number base text with
  | none => (0, 0)
  | some n => (result n.negative n.value, text.length - n.rest.length)

theorem accumulate_rest {w : Nat} (base : Nat) (v : BitVec w) (text : Bytes) :
    (accumulate base v text).2 = text.dropWhile (isDigit base) := by
  induction text generalizing v with
  | nil => rfl
  | cons c rest ih =>
      rw [accumulate]
      cases digit : digitOf c with
      | none =>
          rw [List.dropWhile_cons_of_neg (by rw [isDigit, digit]; exact Bool.false_ne_true)]
      | some d =>
          dsimp only
          split
          next large =>
            rw [List.dropWhile_cons_of_neg (by rw [isDigit, digit]; simpa using large)]
          next small =>
            rw [ih, List.dropWhile_cons_of_pos (by rw [isDigit, digit]; simpa using small)]

theorem accumulate_value {w : Nat} (base : Nat) (n : Nat) (text : Bytes) :
    (accumulate base (BitVec.ofNat w n) text).1 =
      BitVec.ofNat w ((text.takeWhile (isDigit base)).foldl
        (fun v c => v * base + (digitOf c).getD 0) n) := by
  induction text generalizing n with
  | nil => rfl
  | cons c rest ih =>
      rw [accumulate]
      cases digit : digitOf c with
      | none =>
          rw [List.takeWhile_cons_of_neg (by rw [isDigit, digit]; exact Bool.false_ne_true),
            List.foldl_nil]
      | some d =>
          dsimp only
          split
          next large =>
            rw [List.takeWhile_cons_of_neg (by rw [isDigit, digit]; simpa using large),
              List.foldl_nil]
          next small =>
            rw [List.takeWhile_cons_of_pos (by rw [isDigit, digit]; simpa using small),
              List.foldl_cons, digit, Option.getD_some, ← ih, BitVec.ofNat_add,
              BitVec.ofNat_mul]

def parsed (base : Nat) (text : Bytes) : Number :=
  let (negative, body) := signed (text.dropWhile isBlank)
  let (radix, digits) := radixOf base body
  ⟨negative, digitsValue radix (digits.takeWhile (isDigit radix)),
    digits.dropWhile (isDigit radix)⟩

def Number.signedValue (n : Number) : Int := if n.negative then -(n.value : Int) else n.value

variable {base : Nat}

theorem strtol_eq (w : Nat) (nptr : CString) (valid : base = 0 ∨ (2 ≤ base ∧ base ≤ 36)) :
    strtol w nptr base =
      ⟨BitVec.ofInt w (parsed base nptr.bytes).signedValue,
        nptr.length - (parsed base nptr.bytes).rest.length⟩ := by
  rw [strtol, if_neg (by omega), Int.toNat_natCast, parsed]
  dsimp only
  have value := accumulate_value (w := w)
    (radixOf base (signed (nptr.bytes.dropWhile isBlank)).2).1 0
    (radixOf base (signed (nptr.bytes.dropWhile isBlank)).2).2
  have zero : (0 : BitVec w) = BitVec.ofNat w 0 := rfl
  rw [accumulate_rest, zero, value, Number.signedValue, digitsValue]
  congr 1
  cases (signed (nptr.bytes.dropWhile isBlank)).1 with
  | true =>
      rw [if_pos rfl, if_pos rfl, BitVec.ofInt_neg, BitVec.ofInt_natCast, BitVec.neg_mul]
      exact congrArg Neg.neg (BitVec.one_mul _)
  | false =>
      rw [if_neg Bool.false_ne_true, if_neg Bool.false_ne_true, BitVec.ofInt_natCast]
      exact BitVec.one_mul _

def Vertical (text : Bytes) : Prop := ∃ c ∈ text.takeWhile isSpace, c = 11 ∨ c = 12

def BarePrefix (base : Nat) (body : Bytes) : Prop :=
  (base = 0 ∨ base = 16) ∧ hexPrefixed body ∧ hexSubject base body = false

instance (text : Bytes) : Decidable (Vertical text) := inferInstanceAs (Decidable (∃ _ ∈ _, _))

instance (base : Nat) (body : Bytes) : Decidable (BarePrefix base body) :=
  inferInstanceAs (Decidable (_ ∧ _))

theorem isSpace_eq (c : UInt8) (other : ¬ (c = 11 ∨ c = 12)) : isSpace c = isBlank c := by
  obtain ⟨noTab, noFeed⟩ := not_or.mp other
  rw [isSpace, isBlank, Bool.eq_iff_iff]
  simp only [Bool.or_eq_true, Bool.and_eq_true, beq_iff_eq, decide_eq_true_eq,
    UInt8.le_iff_toNat_le, ← UInt8.toNat_inj] at *
  change c.toNat ≠ 11 at noTab
  change c.toNat ≠ 12 at noFeed
  change (c.toNat = 32 ∨ 9 ≤ c.toNat ∧ c.toNat ≤ 13) ↔
    ((c.toNat = 32 ∨ c.toNat = 9) ∨ c.toNat = 10) ∨ c.toNat = 13
  omega

theorem dropWhile_isBlank (text : Bytes) :
    (¬ Vertical text ∧ text.dropWhile isBlank = text.dropWhile isSpace) ∨
      (Vertical text ∧ ∃ c more, text.dropWhile isBlank = c :: more ∧ (c = 11 ∨ c = 12) ∧
        (text.dropWhile isSpace).length ≤ more.length) := by
  induction text with
  | nil =>
      refine .inl ⟨?_, rfl⟩
      rintro ⟨c, member, -⟩
      exact List.not_mem_nil member
  | cons c rest ih =>
      rcases Decidable.em (c = 11 ∨ c = 12) with stop | other
      · have space : isSpace c = true := by
          rcases stop with rfl | rfl
          · rfl
          · rfl
        have blank : ¬ isBlank c = true := by
          rcases stop with rfl | rfl
          · decide
          · decide
        refine .inr ⟨⟨c, ?_, stop⟩, c, rest, List.dropWhile_cons_of_neg blank, stop, ?_⟩
        · rw [List.takeWhile_cons_of_pos space]
          exact List.mem_cons_self
        · rw [List.dropWhile_cons_of_pos space]
          exact List.length_dropWhile_le ..
      · cases blank : isBlank c with
        | true =>
            have space : isSpace c = true := by rw [isSpace_eq c other, blank]
            rw [List.dropWhile_cons_of_pos blank, List.dropWhile_cons_of_pos space]
            have same : Vertical (c :: rest) ↔ Vertical rest := by
              rw [Vertical, List.takeWhile_cons_of_pos space, List.exists_mem_cons_iff,
                or_iff_right other]
              rfl
            rwa [same]
        | false =>
            have noSpace : ¬ isSpace c = true := by
              rw [isSpace_eq c other, blank]
              exact Bool.false_ne_true
            have noBlank : ¬ isBlank c = true := by
              rw [blank]
              exact Bool.false_ne_true
            rw [List.dropWhile_cons_of_neg noBlank, List.dropWhile_cons_of_neg noSpace]
            refine .inl ⟨?_, rfl⟩
            rintro ⟨d, member, -⟩
            rw [List.takeWhile_cons_of_neg noSpace] at member
            exact List.not_mem_nil member

theorem radixOf_eq {body : Bytes} (noBare : ¬ BarePrefix base body) :
    radixOf base body = radixRequired base body := by
  rw [radixOf, radixRequired]
  cases subject : hexSubject base body with
  | true =>
      have parts := subject
      simp only [hexSubject, Bool.and_eq_true, Bool.or_eq_true, beq_iff_eq] at parts
      obtain ⟨⟨rfl | rfl, hex⟩, -⟩ := parts
      · rw [if_pos rfl, if_pos hex, if_pos rfl]
      · rw [if_neg (by decide), if_pos ⟨rfl, hex⟩, if_pos rfl]
  | false =>
      have noHex : (base = 0 ∨ base = 16) → ¬ hexPrefixed body = true := fun of hex =>
        noBare ⟨of, hex, subject⟩
      rw [if_neg Bool.false_ne_true]
      split
      next zero =>
        rw [if_neg (noHex (.inl zero))]
        split
        · rfl
        · rfl
      next other =>
        rw [if_neg fun both => noHex (.inr both.1) both.2]

theorem barePrefix_ends {body : Bytes} (bare : BarePrefix base body) :
    ∃ x more, body = 48 :: x :: more ∧
      (radixOf base body).2.dropWhile (isDigit (radixOf base body).1) = more ∧
      (radixRequired base body).2.takeWhile (isDigit (radixRequired base body).1) = [48] ∧
      (radixRequired base body).2.dropWhile (isDigit (radixRequired base body).1) = x :: more := by
  obtain ⟨of, hex, noSubject⟩ := bare
  have parts := hex
  simp only [hexPrefixed, Bool.and_eq_true, Bool.or_eq_true, beq_iff_eq] at parts
  obtain ⟨zero, letter⟩ := parts
  obtain ⟨c, rest, rfl⟩ : ∃ c rest, body = c :: rest := by
    cases body with
    | nil => cases zero
    | cons c rest => exact ⟨c, rest, rfl⟩
  obtain rfl : c = 48 := Option.some.inj zero
  obtain ⟨x, more, rfl⟩ : ∃ x more, rest = x :: more := by
    cases rest with
    | nil => rcases letter with none_ | none_ <;> cases none_
    | cons x more => exact ⟨x, more, rfl⟩
  have isX : x = 120 ∨ x = 88 := letter.imp Option.some.inj Option.some.inj
  have code : radixOf base (48 :: x :: more) = (16, more) := by
    rw [radixOf]
    rcases of with rfl | rfl
    · rw [if_pos rfl, if_pos hex]
      rfl
    · rw [if_neg (by decide), if_pos ⟨rfl, hex⟩]
      rfl
  have noDigit : more.dropWhile (isDigit 16) = more := by
    cases more with
    | nil => rfl
    | cons c later =>
        refine List.dropWhile_cons_of_neg fun digit => ?_
        have subject : hexSubject base (48 :: x :: c :: later) = true := by
          rw [hexSubject, hex]
          rcases of with rfl | rfl
          · exact digit
          · exact digit
        rw [subject] at noSubject
        exact Bool.noConfusion noSubject
  obtain ⟨radix, small, required⟩ : ∃ radix, (radix = 8 ∨ radix = 16) ∧
      radixRequired base (48 :: x :: more) = (radix, 48 :: x :: more) := by
    rw [radixRequired, if_neg (by rw [noSubject]; exact Bool.false_ne_true)]
    rcases of with rfl | rfl
    · exact ⟨8, .inl rfl, rfl⟩
    · exact ⟨16, .inr rfl, rfl⟩
  have zeroDigit : isDigit radix 48 = true := by
    rcases small with rfl | rfl
    · rfl
    · rfl
  have noDigitX : ¬ isDigit radix x = true := by
    rcases small with rfl | rfl <;> rcases isX with rfl | rfl <;> decide
  refine ⟨x, more, rfl, ?_, ?_, ?_⟩
  · rw [code]
    exact noDigit
  · rw [required, List.takeWhile_cons_of_pos zeroDigit, List.takeWhile_cons_of_neg noDigitX]
  · rw [required, List.dropWhile_cons_of_pos zeroDigit, List.dropWhile_cons_of_neg noDigitX]

def Starts (text : Bytes) : Prop := ∃ c ∈ text.head?, isBlank c = true ∨ c = 43 ∨ c = 45

instance (text : Bytes) : Decidable (Starts text) :=
  match text with
  | [] => isFalse nofun
  | c :: _ => decidable_of_iff (isBlank c = true ∨ c = 43 ∨ c = 45)
      ⟨fun start => ⟨c, rfl, start⟩, fun ⟨_, rfl, start⟩ => start⟩

theorem length_signed_le (text : Bytes) : (signed text).2.length ≤ text.length := by
  cases text with
  | nil => exact Nat.le_refl 0
  | cons c rest =>
      rw [signed]
      split
      · exact Nat.le_succ _
      · exact Nat.le_refl _

theorem signed_used (text : Bytes) :
    text.length - (signed (text.dropWhile isBlank)).2.length = 0 ↔ ¬ Starts text := by
  cases text with
  | nil => exact iff_of_true rfl nofun
  | cons c rest =>
      cases blank : isBlank c with
      | true =>
          rw [List.dropWhile_cons_of_pos blank]
          refine iff_of_false ?_ fun none_ => none_ ⟨c, rfl, .inl blank⟩
          have shorter := length_signed_le (rest.dropWhile isBlank)
          have tail := List.length_dropWhile_le isBlank rest
          rw [List.length_cons]
          omega
      | false =>
          rw [List.dropWhile_cons_of_neg (by rw [blank]; exact Bool.false_ne_true), signed]
          split
          next sign =>
            refine iff_of_false ?_ fun none_ => none_ ⟨c, rfl, .inr sign⟩
            rw [List.length_cons, Nat.add_sub_cancel_left]
            exact Nat.one_ne_zero
          next noSign =>
            refine iff_of_true (Nat.sub_self _) ?_
            rintro ⟨d, same, start⟩
            obtain rfl : c = d := Option.some.inj same
            rcases start with space | sign
            · rw [blank] at space
              exact Bool.noConfusion space
            · exact noSign sign

variable {text : Bytes}

theorem parsed_of_vertical (base : Nat) (vertical : Vertical text) :
    parsed base text = ⟨false, 0, text.dropWhile isBlank⟩ ∧
      (signed (text.dropWhile isBlank)).2 = text.dropWhile isBlank ∧
      (text.dropWhile isSpace).length < (text.dropWhile isBlank).length := by
  obtain ⟨none_, -⟩ | ⟨-, c, more, stop, isStop, shorter⟩ := dropWhile_isBlank text
  · exact (none_ vertical).elim
  have noSign : signed (c :: more) = (false, c :: more) := by
    rcases isStop with rfl | rfl
    · rfl
    · rfl
  obtain ⟨radix, same⟩ : ∃ radix, radixOf base (c :: more) = (radix, c :: more) := by
    have noHex : hexPrefixed (c :: more) = false := by
      rcases isStop with rfl | rfl
      · rfl
      · rfl
    rw [radixOf, noHex]
    rcases Nat.eq_zero_or_pos base with rfl | some_
    · rw [if_pos rfl, if_neg Bool.false_ne_true]
      split
      · exact ⟨_, rfl⟩
      · exact ⟨_, rfl⟩
    · rw [if_neg (by omega), if_neg fun both => Bool.false_ne_true both.2]
      exact ⟨_, rfl⟩
  have noDigit : ¬ isDigit radix c = true := by
    rcases isStop with rfl | rfl
    · exact Bool.false_ne_true
    · exact Bool.false_ne_true
  refine ⟨?_, ?_, ?_⟩
  · rw [parsed, stop, noSign]
    dsimp only
    rw [same]
    dsimp only
    rw [List.takeWhile_cons_of_neg noDigit, List.dropWhile_cons_of_neg noDigit]
    rfl
  · rw [stop, noSign]
  · rw [stop]
    exact Nat.lt_succ_of_le shorter

def body (text : Bytes) : Bytes := (signed (text.dropWhile isSpace)).2

def digits (base : Nat) (text : Bytes) : Bytes :=
  (radixRequired base (body text)).2.takeWhile (isDigit (radixRequired base (body text)).1)

def behind (base : Nat) (text : Bytes) : Bytes :=
  (radixRequired base (body text)).2.dropWhile (isDigit (radixRequired base (body text)).1)

def subject (base : Nat) (text : Bytes) : Number where
  negative := (signed (text.dropWhile isSpace)).1
  value := digitsValue (radixRequired base (body text)).1 (digits base text)
  rest := behind base text

theorem number_eq (base : Nat) (text : Bytes) :
    number base text = if digits base text = [] then none else some (subject base text) := rfl

theorem parsed_eq (noVertical : ¬ Vertical text) (noBare : ¬ BarePrefix base (body text)) :
    parsed base text = subject base text := by
  obtain ⟨-, same⟩ | ⟨vertical, -⟩ := dropWhile_isBlank text
  · rw [parsed, same]
    change Number.mk _ (digitsValue (radixOf base (body text)).1
      ((radixOf base (body text)).2.takeWhile (isDigit (radixOf base (body text)).1)))
      ((radixOf base (body text)).2.dropWhile (isDigit (radixOf base (body text)).1)) = _
    rw [radixOf_eq noBare]
    rfl
  · exact (noVertical vertical).elim

theorem digits_append_behind (base : Nat) (text : Bytes) :
    digits base text ++ behind base text = (radixRequired base (body text)).2 :=
  List.takeWhile_append_dropWhile

theorem digits_of_subject (hex : hexSubject base (body text) = true) : digits base text ≠ [] := by
  have parts := hex
  simp only [hexSubject, Bool.and_eq_true] at parts
  obtain ⟨-, digit⟩ := parts
  rw [digits, radixRequired, if_pos hex]
  cases third : (body text)[2]? with
  | none =>
      rw [third] at digit
      exact Bool.noConfusion digit
  | some c =>
      rw [third] at digit
      obtain ⟨inside, found⟩ := List.getElem?_eq_some_iff.mp third
      rw [List.drop_eq_getElem_cons inside, found]
      have isHex : isDigit 16 c = true := digit
      change (c :: _).takeWhile (isDigit 16) ≠ []
      rw [List.takeWhile_cons_of_pos isHex]
      exact List.cons_ne_nil _ _

theorem parsed_of_none (noDigits : digits base text = []) :
    (parsed base text).value = 0 ∧
      (text.length - (parsed base text).rest.length = 0 ↔ ¬ Starts text) := by
  rw [← signed_used]
  obtain ⟨noVertical, same⟩ | ⟨vertical, -⟩ := dropWhile_isBlank text
  · have noBare : ¬ BarePrefix base (body text) := by
      intro bare
      obtain ⟨x, more, -, -, one, -⟩ := barePrefix_ends bare
      rw [digits, one] at noDigits
      exact List.cons_ne_nil _ _ noDigits
    have whole : (radixRequired base (body text)).2 = body text := by
      rw [radixRequired, if_neg fun hex => digits_of_subject hex noDigits]
      split
      · rfl
      · rfl
    have rest : behind base text = body text := by
      rw [← whole, ← digits_append_behind, noDigits, List.nil_append]
    rw [parsed_eq noVertical noBare, same]
    refine ⟨congrArg (digitsValue _) noDigits, ?_⟩
    rw [show (subject base text).rest = body text from rest]
    exact Iff.rfl
  · obtain ⟨value, rest, -⟩ := parsed_of_vertical base vertical
    rw [value, rest]
    exact ⟨rfl, Iff.rfl⟩

theorem length_behind_le (base : Nat) (text : Bytes) :
    (behind base text).length ≤ (text.dropWhile isSpace).length := by
  have short := List.length_dropWhile_le (isDigit (radixRequired base (body text)).1)
    (radixRequired base (body text)).2
  have less : (radixRequired base (body text)).2.length ≤ (body text).length := by
    rw [radixRequired]
    split
    · rw [List.length_drop]
      exact Nat.sub_le _ _
    · split
      · exact Nat.le_refl _
      · exact Nat.le_refl _
  exact Nat.le_trans short (Nat.le_trans less (length_signed_le _))

/-- Where there is a number, the code stops at its end if it takes all space and no bare
prefix. -/
theorem parsed_used (base : Nat) (text : Bytes) :
    text.length - (parsed base text).rest.length = text.length - (behind base text).length ↔
      ¬ Vertical text ∧ ¬ BarePrefix base (body text) := by
  constructor
  · intro same
    have longer := length_behind_le base text
    have inside := List.length_dropWhile_le isSpace text
    have noVertical : ¬ Vertical text := by
      intro vertical
      obtain ⟨value, -, less⟩ := parsed_of_vertical base vertical
      have inside' := List.length_dropWhile_le isBlank text
      rw [value] at same
      change _ - (text.dropWhile isBlank).length = _ at same
      omega
    refine ⟨noVertical, fun bare => ?_⟩
    obtain ⟨x, more, -, code, -, rest⟩ := barePrefix_ends bare
    obtain ⟨-, blanks⟩ | ⟨vertical, -⟩ := dropWhile_isBlank text
    · have code' : (parsed base text).rest = more := by
        rw [parsed, blanks]
        exact code
      have rest' : behind base text = x :: more := rest
      rw [rest', List.length_cons] at longer
      rw [code', rest', List.length_cons] at same
      omega
    · exact noVertical vertical
  · rintro ⟨noVertical, noBare⟩
    rw [parsed_eq noVertical noBare]
    rfl

inductive Fn
  | strtol
  | strtoul
  | strtoll
  | strtoull

/-- What a function returns on a board with a `long` of `w` bits, and the offset of `*endptr`. -/
def Fn.call (w : Nat) (nptr : CString) (base : Int) : Fn → Int × Nat
  | .strtol => ((Strto.strtol w nptr base).value.toInt, (Strto.strtol w nptr base).used)
  | .strtoul => ((Strto.strtoul w nptr base).value.toNat, (Strto.strtoul w nptr base).used)
  | .strtoll => ((Strto.strtoll w nptr base).value.toInt, (Strto.strtoll w nptr base).used)
  | .strtoull => ((Strto.strtoull w nptr base).value.toNat, (Strto.strtoull w nptr base).used)

def Fn.result (w : Nat) : Fn → Bool → Nat → Int
  | .strtol => signedResult w
  | .strtoul => unsignedResult w
  | .strtoll => signedResult 64
  | .strtoull => unsignedResult 64

/-- The number fits a signed type of `w` bits, or becomes its limit when it is cut. -/
def FitsSigned (w : Nat) (negative : Bool) (value : Nat) : Prop :=
  if negative then value ≤ 2 ^ (w - 1) ∨ value % 2 ^ w = 2 ^ (w - 1)
  else value < 2 ^ (w - 1) ∨ value % 2 ^ w = 2 ^ (w - 1) - 1

/-- The number fits an unsigned type of `w` bits, or becomes its limit when it is cut. -/
def FitsUnsigned (w : Nat) (negative : Bool) (value : Nat) : Prop :=
  value < 2 ^ w ∨ value % 2 ^ w = if negative then 1 else 2 ^ w - 1

def Fn.Fits (w : Nat) (negative : Bool) (value : Nat) : Fn → Prop
  | .strtol => FitsSigned w negative value
  | .strtoul => FitsUnsigned w negative value
  | .strtoll =>
      if w = 64 then FitsSigned 64 negative value
      else if negative then value ≤ 2 ^ 31 else value < 2 ^ 31
  | .strtoull =>
      if w = 64 then FitsUnsigned 64 negative value
      else if negative then value = 0 ∨ (2 ^ 64 - 2 ^ 32 < value ∧ value < 2 ^ 64)
      else value < 2 ^ 32

def Fn.convert (w : Nat) (value : BitVec w) : Fn → Int
  | .strtol => value.toInt
  | .strtoul => value.toNat
  | .strtoll => (value.signExtend 64).toInt
  | .strtoull => (value.setWidth 64).toNat

theorem signed_iff_32 (n : Number) :
    n.signedValue.bmod (2 ^ 32) = signedResult 32 n.negative n.value ↔
      FitsSigned 32 n.negative n.value := by
  obtain ⟨_ | _, value, -⟩ := n
  · change (value : Int).bmod 4294967296 = min (value : Int) 2147483647 ↔
      value < 2147483648 ∨ value % 4294967296 = 2147483647
    rw [Int.bmod_def]
    omega
  · change (-(value : Int)).bmod 4294967296 = max (-(value : Int)) (-2147483648) ↔
      value ≤ 2147483648 ∨ value % 4294967296 = 2147483648
    rw [Int.bmod_def]
    omega

theorem signed_iff_64 (n : Number) :
    n.signedValue.bmod (2 ^ 64) = signedResult 64 n.negative n.value ↔
      FitsSigned 64 n.negative n.value := by
  obtain ⟨_ | _, value, -⟩ := n
  · change (value : Int).bmod 18446744073709551616 = min (value : Int) 9223372036854775807 ↔
      value < 9223372036854775808 ∨ value % 18446744073709551616 = 9223372036854775807
    rw [Int.bmod_def]
    omega
  · change (-(value : Int)).bmod 18446744073709551616 =
        max (-(value : Int)) (-9223372036854775808) ↔
      value ≤ 9223372036854775808 ∨ value % 18446744073709551616 = 9223372036854775808
    rw [Int.bmod_def]
    omega

theorem unsigned_iff_32 (n : Number) :
    ((n.signedValue % (2 ^ 32 : Nat)).toNat : Int) = unsignedResult 32 n.negative n.value ↔
      FitsUnsigned 32 n.negative n.value := by
  obtain ⟨_ | _, value, -⟩ := n
  · change ((((value : Int) % 4294967296).toNat : Nat) : Int) =
        (if 4294967296 ≤ value then 4294967295 else (value : Int)) ↔
      value < 4294967296 ∨ value % 4294967296 = 4294967295
    split
    · omega
    · omega
  · change (((-(value : Int) % 4294967296).toNat : Nat) : Int) =
        (if 4294967296 ≤ value then 4294967295 else -(value : Int) % 4294967296) ↔
      value < 4294967296 ∨ value % 4294967296 = 1
    split
    · omega
    · omega

theorem unsigned_iff_64 (n : Number) :
    ((n.signedValue % (2 ^ 64 : Nat)).toNat : Int) = unsignedResult 64 n.negative n.value ↔
      FitsUnsigned 64 n.negative n.value := by
  obtain ⟨_ | _, value, -⟩ := n
  · change ((((value : Int) % 18446744073709551616).toNat : Nat) : Int) =
        (if 18446744073709551616 ≤ value then 18446744073709551615 else (value : Int)) ↔
      value < 18446744073709551616 ∨ value % 18446744073709551616 = 18446744073709551615
    split
    · omega
    · omega
  · change (((-(value : Int) % 18446744073709551616).toNat : Nat) : Int) =
        (if 18446744073709551616 ≤ value then 18446744073709551615
          else -(value : Int) % 18446744073709551616) ↔
      value < 18446744073709551616 ∨ value % 18446744073709551616 = 1
    split
    · omega
    · omega

theorem extended_iff (n : Number) :
    n.signedValue.bmod (2 ^ 32) = signedResult 64 n.negative n.value ↔
      if n.negative then n.value ≤ 2 ^ 31 else n.value < 2 ^ 31 := by
  obtain ⟨_ | _, value, -⟩ := n
  · change (value : Int).bmod 4294967296 = min (value : Int) 9223372036854775807 ↔
      value < 2147483648
    rw [Int.bmod_def]
    omega
  · change (-(value : Int)).bmod 4294967296 = max (-(value : Int)) (-9223372036854775808) ↔
      value ≤ 2147483648
    rw [Int.bmod_def]
    omega

theorem widened_iff (n : Number) :
    ((n.signedValue % (2 ^ 32 : Nat)).toNat : Int) = unsignedResult 64 n.negative n.value ↔
      if n.negative then n.value = 0 ∨ (2 ^ 64 - 2 ^ 32 < n.value ∧ n.value < 2 ^ 64)
      else n.value < 2 ^ 32 := by
  obtain ⟨_ | _, value, -⟩ := n
  · change ((((value : Int) % 4294967296).toNat : Nat) : Int) =
        (if 18446744073709551616 ≤ value then 18446744073709551615 else (value : Int)) ↔
      value < 4294967296
    split
    · omega
    · omega
  · change (((-(value : Int) % 4294967296).toNat : Nat) : Int) =
        (if 18446744073709551616 ≤ value then 18446744073709551615
          else -(value : Int) % 18446744073709551616) ↔
      value = 0 ∨ (18446744069414584320 < value ∧ value < 18446744073709551616)
    split
    · omega
    · omega

theorem convert_iff {w : Nat} (board : w = 32 ∨ w = 64) (fn : Fn) (n : Number) :
    fn.convert w (BitVec.ofInt w n.signedValue) = fn.result w n.negative n.value ↔
      fn.Fits w n.negative n.value := by
  rcases board with rfl | rfl
  · cases fn with
    | strtol =>
        rw [Fn.convert, BitVec.toInt_ofInt]
        exact signed_iff_32 n
    | strtoul =>
        rw [Fn.convert, BitVec.toNat_ofInt]
        exact unsigned_iff_32 n
    | strtoll =>
        rw [Fn.convert, BitVec.toInt_signExtend_of_le (by decide), BitVec.toInt_ofInt]
        exact extended_iff n
    | strtoull =>
        rw [Fn.convert, BitVec.toNat_setWidth_of_le (by decide), BitVec.toNat_ofInt]
        exact widened_iff n
  · cases fn with
    | strtol =>
        rw [Fn.convert, BitVec.toInt_ofInt]
        exact signed_iff_64 n
    | strtoul =>
        rw [Fn.convert, BitVec.toNat_ofInt]
        exact unsigned_iff_64 n
    | strtoll =>
        rw [Fn.convert, BitVec.toInt_signExtend_of_le (by decide), BitVec.toInt_ofInt]
        exact signed_iff_64 n
    | strtoull =>
        rw [Fn.convert, BitVec.toNat_setWidth_of_le (by decide), BitVec.toNat_ofInt]
        exact unsigned_iff_64 n

theorem call_eq (w : Nat) (fn : Fn) (nptr : CString) (valid : base = 0 ∨ (2 ≤ base ∧ base ≤ 36)) :
    fn.call w nptr base =
      (fn.convert w (BitVec.ofInt w (parsed base nptr.bytes).signedValue),
        nptr.length - (parsed base nptr.bytes).rest.length) := by
  cases fn with
  | strtol => rw [Fn.call, strtol_eq w nptr valid, Fn.convert]
  | strtoul => rw [Fn.call, strtoul, strtol_eq w nptr valid, Fn.convert]
  | strtoll => rw [Fn.call, strtoll, strtol_eq w nptr valid, Fn.convert]
  | strtoull => rw [Fn.call, strtoull, strtoul, strtol_eq w nptr valid, Fn.convert]

theorem convert_zero (w : Nat) (fn : Fn) : fn.convert w (BitVec.ofInt w 0) = 0 := by
  have zero : BitVec.ofInt w 0 = 0#w := BitVec.ofInt_natCast w 0
  rw [zero]
  cases fn with
  | strtol => exact BitVec.toInt_zero
  | strtoul => exact congrArg Nat.cast (BitVec.toNat_zero)
  | strtoll =>
      rw [Fn.convert, BitVec.toInt_signExtend, BitVec.toInt_zero]
      exact Int.zero_bmod
  | strtoull =>
      rw [Fn.convert, BitVec.setWidth_zero]
      exact congrArg Nat.cast BitVec.toNat_zero

def Parses (w : Nat) (fn : Fn) (base : Nat) (text : Bytes) : Prop :=
  match number base text with
  | none => ¬ Starts text
  | some n => (¬ Vertical text ∧ ¬ BarePrefix base (body text)) ∧
      fn.Fits w n.negative n.value

/-- A function is exact for a text if and only if it has no number and starts with neither
space nor a sign, or no vertical space, no bare prefix, and a number that fits. -/
theorem call_iff (w : Nat) (board : w = 32 ∨ w = 64) (fn : Fn) (nptr : CString) (base : Nat)
    (valid : base = 0 ∨ (2 ≤ base ∧ base ≤ 36)) :
    fn.call w nptr base = required (fn.result w) base nptr.bytes ↔
      Parses w fn base nptr.bytes := by
  rw [call_eq w fn nptr valid, required, Parses, number_eq]
  split
  next noNumber =>
    have noDigits : digits base nptr.bytes = [] := by
      by_contra some_
      rw [if_neg some_] at noNumber
      exact Option.some_ne_none _ noNumber
    obtain ⟨zero, used⟩ := parsed_of_none noDigits
    have none_ : (parsed base nptr.bytes).signedValue = 0 := by
      rw [Number.signedValue, zero]
      split
      · rfl
      · rfl
    rw [none_, convert_zero, Prod.mk.injEq]
    exact (and_iff_right rfl).trans used
  next n isNumber =>
    obtain rfl : subject base nptr.bytes = n := by
      split at isNumber
      · exact (Option.some_ne_none _ isNumber.symm).elim
      · exact Option.some.inj isNumber
    rw [Prod.mk.injEq, and_comm]
    have used := parsed_used base nptr.bytes
    constructor
    · rintro ⟨end_, value⟩
      have agrees := used.mp end_
      rw [parsed_eq agrees.1 agrees.2, convert_iff board] at value
      exact ⟨agrees, value⟩
    · rintro ⟨agrees, fits⟩
      refine ⟨used.mpr agrees, ?_⟩
      rw [parsed_eq agrees.1 agrees.2, convert_iff board]
      exact fits

/-- A number of two digits. -/
theorem call_small : Fn.strtol.call 32 ⟨[52, 50], by decide⟩ (10 : Nat) =
    required (Fn.strtol.result 32) 10 [52, 50] :=
  (call_iff 32 (.inl rfl) .strtol ⟨[52, 50], by decide⟩ 10 (.inr (by decide))).mpr
    ⟨⟨by decide, by decide⟩, .inl (by decide)⟩

/-- `4294967296` becomes 0 in 32 bits, and a blank alone is passed over. -/
theorem call_fails :
    Fn.strtol.call 32 ⟨[52, 50, 57, 52, 57, 54, 55, 50, 57, 54], by decide⟩ (10 : Nat) ≠
        required (Fn.strtol.result 32) 10 [52, 50, 57, 52, 57, 54, 55, 50, 57, 54] ∧
      Fn.strtol.call 32 ⟨[32], by decide⟩ (10 : Nat) ≠ required (Fn.strtol.result 32) 10 [32] := by
  decide

end Metal.Port.Strto
