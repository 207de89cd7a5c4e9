import Metal.Build.Ledger

namespace Metal.Build

open Metal.Lib
open Metal.Lib.Json

/-! What the ledger's lines say, and what the search finds in them. -/

theorem isHex_hexDigit {n : UInt8} (small : n < 16) :
    isHex (hexDigit n) = true := by
  have all : ∀ k : Fin 16, isHex (hexDigit (UInt8.ofNat k.val)) = true := by
    decide
  have here := all ⟨n.toNat, small⟩
  rwa [UInt8.ofNat_toNat] at here

theorem noteEscByte_isBody (c : UInt8) : IsBody (noteEscByte c) := by
  unfold noteEscByte
  split
  next special =>
    refine .escape ?_ .nil
    rcases special with rfl | rfl <;> decide
  next ordinary =>
    split
    · exact .escape (by decide) .nil
    split
    · exact .escape (by decide) .nil
    split
    · exact .escape (by decide) .nil
    split
    next control =>
      have high : c / 16 < 16 := by
        rw [UInt8.lt_iff_toNat_lt, UInt8.toNat_div]
        exact Nat.div_lt_of_lt_mul c.toNat_lt
      have low : c % 16 < 16 := by
        rw [UInt8.lt_iff_toNat_lt, UInt8.toNat_mod]
        exact Nat.mod_lt c.toNat (by decide)
      exact .unicode ⟨by decide, by decide, isHex_hexDigit high,
        isHex_hexDigit low⟩ .nil
    next visible =>
      simp only [not_or] at ordinary
      exact .plain (UInt8.not_lt.mp visible) ordinary.1 ordinary.2 .nil

theorem noteEsc_isBody (outMax : Nat) (s : Bytes) {out : Bytes}
    (isBody : IsBody out) : IsBody (noteEsc outMax s out) := by
  induction s generalizing out with
  | nil => exact isBody
  | cons c s ih =>
      rw [noteEsc]
      split
      · exact ih (isBody.append (noteEscByte_isBody c))
      · exact isBody

theorem noteRefs_more (refs : List (Option CString)) (line : Bytes) :
    ∃ bodies : List Bytes, (∀ body ∈ bodies, IsBody body) ∧
      noteRefs refs true line =
        line ++ bodies.flatMap fun body => comma :: string body := by
  have stop : ∃ bodies : List Bytes, (∀ body ∈ bodies, IsBody body) ∧
      line = line ++ bodies.flatMap fun body => comma :: string body :=
    ⟨[], by simp, by simp⟩
  induction refs generalizing line with
  | nil => exact stop
  | cons ref refs ih =>
      cases ref with
      | none =>
          simp only [noteRefs]
          split
          · exact ih line stop
          · exact stop
      | some ref =>
          have isBody := noteEsc_isBody escMax ref.bytes .nil
          simp only [noteRefs, if_true]
          split
          · obtain ⟨bodies, areBodies, eq⟩ := ih
              (line ++ [comma] ++ string (noteEsc escMax ref.bytes []))
              ⟨[], by simp, by simp⟩
            refine ⟨noteEsc escMax ref.bytes [] :: bodies, ?_, ?_⟩
            · simpa using ⟨isBody, areBodies⟩
            · rw [eq]
              simp
          · exact stop

theorem noteRefs_first (refs : List (Option CString)) (line : Bytes) :
    ∃ bodies : List Bytes, (∀ body ∈ bodies, IsBody body) ∧
      noteRefs refs false line = line ++ join (bodies.map string) := by
  have stop : ∃ bodies : List Bytes, (∀ body ∈ bodies, IsBody body) ∧
      line = line ++ join (bodies.map string) :=
    ⟨[], by simp, by simp [join]⟩
  induction refs with
  | nil => exact stop
  | cons ref refs ih =>
      cases ref with
      | none =>
          simp only [noteRefs]
          split
          · exact ih
          · exact stop
      | some ref =>
          have isBody := noteEsc_isBody escMax ref.bytes .nil
          simp only [noteRefs, Bool.false_eq_true, if_false]
          split
          · obtain ⟨bodies, areBodies, eq⟩ := noteRefs_more refs
              (line ++ string (noteEsc escMax ref.bytes []))
            refine ⟨noteEsc escMax ref.bytes [] :: bodies, ?_, ?_⟩
            · simpa using ⟨isBody, areBodies⟩
            · rw [eq]
              simp [join, List.flatMap_map]
          · exact stop

def refsPairs : Option (List Bytes) → List (Bytes × Bytes) × Bytes
  | none => ([], ascii "\x7d")
  | some [] => ([([comma], ascii "refs")], ascii ":[]\x7d")
  | some (body :: bodies) =>
      (([comma], ascii "refs") :: (ascii ":[", body) ::
        bodies.map fun body => ([comma], body), ascii "]\x7d")

def notePairs (kname target reason : Bytes) (refs : Option (List Bytes)) :
    List (Bytes × Bytes) :=
  [(ascii "\x7b", ascii "kind"), ([colon], kname), ([comma], ascii "target"),
   ([colon], target), ([comma], ascii "reason"), ([colon], reason)] ++
    (refsPairs refs).1

def noteText (kname target reason : Bytes) (refs : Option (List Bytes)) :
    Bytes :=
  text (notePairs kname target reason refs) (refsPairs refs).2

theorem fields_notePairs (kname target reason : Bytes)
    (refs : Option (List Bytes)) :
    fields (notePairs kname target reason refs) =
      [(ascii "kind", kname), (ascii "target", target),
       (ascii "reason", reason)] := by
  have apart : [comma] ≠ [colon] := by decide
  have behind : fields (([colon], reason) :: (refsPairs refs).1) = [] := by
    match refs with
    | none => rfl
    | some [] => rfl
    | some (body :: bodies) =>
        rw [refsPairs, fields, if_neg apart]
        apply fields_of_no_colon
        intro pair member
        simp only [List.mem_cons, List.mem_map] at member
        rcases member with rfl | rfl | ⟨other, -, rfl⟩
        · exact apart
        · exact (by decide : ascii ":[" ≠ [colon])
        · exact apart
  simp only [notePairs, List.cons_append, List.nil_append, fields, apart,
    if_true, if_false, behind]

theorem mem_notePairs {kname target reason : Bytes}
    {refs : Option (List Bytes)} {pair : Bytes × Bytes}
    (member : pair ∈ notePairs kname target reason refs) :
    (pair.1 = ascii "\x7b" ∨ pair.1 = [colon] ∨ pair.1 = [comma] ∨
        pair.1 = ascii ":[") ∧
      (pair.2 ∈ [ascii "kind", kname, ascii "target", target, ascii "reason",
          reason, ascii "refs"] ∨ ∃ bodies, refs = some bodies ∧
            pair.2 ∈ bodies) := by
  rcases List.mem_append.mp member with fixed | tail
  · simp only [List.mem_cons, List.not_mem_nil, or_false] at fixed
    rcases fixed with rfl | rfl | rfl | rfl | rfl | rfl <;> simp
  · match refs with
    | none => cases tail
    | some [] =>
        obtain rfl := List.mem_singleton.mp tail
        simp
    | some (body :: bodies) =>
        simp only [refsPairs, List.mem_cons, List.mem_map] at tail
        rcases tail with rfl | rfl | ⟨other, there, rfl⟩
        · simp
        · simp
        · simp [there]

theorem refsPairs_last (refs : Option (List Bytes)) :
    (refsPairs refs).2 = ascii "\x7d" ∨ (refsPairs refs).2 = ascii ":[]\x7d" ∨
      (refsPairs refs).2 = ascii "]\x7d" := by
  match refs with
  | none => exact .inl rfl
  | some [] => exact .inr (.inl rfl)
  | some (body :: bodies) => exact .inr (.inr rfl)

structure NoteBodies (kname target reason : Bytes)
    (refs : Option (List Bytes)) : Prop where
  kname : IsBody kname
  target : IsBody target
  reason : IsBody reason
  refs : ∀ bodies, refs = some bodies → ∀ body ∈ bodies, IsBody body

variable {kname target reason : Bytes} {refs : Option (List Bytes)}

theorem NoteBodies.mem (bodies : NoteBodies kname target reason refs)
    {pair : Bytes × Bytes} (member : pair ∈ notePairs kname target reason refs) :
    IsBody pair.2 := by
  rcases (mem_notePairs member).2 with fixed | ⟨items, written, there⟩
  · simp only [List.mem_cons, List.not_mem_nil, or_false] at fixed
    rcases fixed with is | is | is | is | is | is | is <;> rw [is]
    · exact .of_plain (by decide)
    · exact bodies.kname
    · exact .of_plain (by decide)
    · exact bodies.target
    · exact .of_plain (by decide)
    · exact bodies.reason
    · exact .of_plain (by decide)
  · exact bodies.refs items written pair.2 there

theorem NoteBodies.quoted (bodies : NoteBodies kname target reason refs) :
    Quoted (notePairs kname target reason refs) (refsPairs refs).2 where
  outer pair member := by
      rcases (mem_notePairs member).1 with is | is | is | is <;> rw [is] <;>
        decide
  body _ member := (bodies.mem member).escaped
  last := by
      rcases refsPairs_last refs with is | is | is <;> rw [is] <;> decide

theorem text_map_comma (bodies : List Bytes) (last : Bytes) :
    text (bodies.map fun body => ([comma], body)) last =
      bodies.flatMap (fun body => comma :: string body) ++ last := by
  induction bodies with
  | nil => rfl
  | cons body bodies ih => simp [text, string, ih]

theorem noteText_none (kname target reason : Bytes) :
    noteText kname target reason none =
      noteHead kname target ++ reason ++ [quote] ++ ascii "\x7d" := by
  simp [noteText, noteHead, notePairs, refsPairs, text, ascii, quote, colon,
    comma]

theorem noteText_some (kname target reason : Bytes) (bodies : List Bytes) :
    noteText kname target reason (some bodies) =
      noteHead kname target ++ reason ++ [quote] ++ ascii ",\"refs\":[" ++
        join (bodies.map string) ++ ascii "]" ++ ascii "\x7d" := by
  cases bodies with
  | nil => simp [noteText, noteHead, notePairs, refsPairs, text, ascii, quote,
      colon, comma, join]
  | cons body bodies =>
      simp only [noteText, notePairs, refsPairs, List.cons_append,
        List.nil_append, text, text_map_comma]
      simp [noteHead, ascii, quote, colon, comma, join, string,
        List.flatMap_map]

def refsMembers : Option (List Bytes) → List (Bytes × Bytes)
  | none => []
  | some bodies => [(ascii "refs", 91 :: (join (bodies.map string) ++ [93]))]

def noteMembers (kname target reason : Bytes) (refs : Option (List Bytes)) :
    List (Bytes × Bytes) :=
  [(ascii "kind", string kname), (ascii "target", string target),
   (ascii "reason", string reason)] ++ refsMembers refs

theorem noteText_eq_object :
    noteText kname target reason refs =
      123 :: (join ((noteMembers kname target reason refs).map fun member =>
        string member.1 ++ colon :: member.2) ++ [125]) := by
  match refs with
  | none => simp [noteText, notePairs, refsPairs, noteMembers, refsMembers, text,
      string, join, ascii]
  | some [] => simp [noteText, notePairs, refsPairs, noteMembers, refsMembers,
      text, string, join, ascii, colon]
  | some (body :: bodies) =>
      simp [noteText, notePairs, refsPairs, noteMembers, refsMembers, text,
        text_map_comma, string, join, ascii, colon, List.flatMap_map]

def noteKeys : List Bytes :=
  [ascii "kind", ascii "target", ascii "reason", ascii "refs"]

theorem noteKeys_plain : ∀ key ∈ noteKeys, key.all isPlain = true := by
  decide

theorem NoteBodies.isObject (bodies : NoteBodies kname target reason refs) :
    IsObject (noteText kname target reason refs) := by
  rw [noteText_eq_object]
  refine ⟨.object ?_ ?_, rfl⟩
  · intro member there
    rcases List.mem_append.mp there with fixed | tail
    · simp only [List.mem_cons, List.not_mem_nil, or_false] at fixed
      rcases fixed with rfl | rfl | rfl <;>
        exact .of_plain (noteKeys_plain _ (by simp [noteKeys]))
    · cases refs with
      | none => cases tail
      | some items =>
          obtain rfl := List.mem_singleton.mp tail
          exact .of_plain (noteKeys_plain _ (by simp [noteKeys]))
  · intro member there
    rcases List.mem_append.mp there with fixed | tail
    · simp only [List.mem_cons, List.not_mem_nil, or_false] at fixed
      rcases fixed with rfl | rfl | rfl
      · exact .string bodies.kname
      · exact .string bodies.target
      · exact .string bodies.reason
    · cases refs with
      | none => cases tail
      | some items =>
          obtain rfl := List.mem_singleton.mp tail
          refine .array ?_
          intro item written
          obtain ⟨body, mem, rfl⟩ := List.mem_map.mp written
          exact .string (bodies.refs items rfl body mem)

theorem newline_not_mem_text {pairs : List (Bytes × Bytes)} {last : Bytes}
    (outers : ∀ pair ∈ pairs, newline ∉ pair.1)
    (strings : ∀ pair ∈ pairs, IsBody pair.2) (ends : newline ∉ last) :
    newline ∉ text pairs last := by
  induction pairs with
  | nil => exact ends
  | cons pair pairs ih =>
      obtain ⟨outer, body⟩ := pair
      have outside := outers (outer, body) List.mem_cons_self
      have inside : newline ∉ body := by
        intro member
        have visible := (strings (outer, body) List.mem_cons_self).visible
          newline member
        exact absurd visible (by decide)
      have behind := ih
        (fun pair member => outers pair (List.mem_cons_of_mem _ member))
        (fun pair member => strings pair (List.mem_cons_of_mem _ member))
      have apart : newline ≠ quote := by decide
      simp [text, outside, inside, behind, apart]

theorem NoteBodies.newline_not_mem
    (bodies : NoteBodies kname target reason refs) :
    newline ∉ noteText kname target reason refs := by
  refine newline_not_mem_text ?_ (fun _ member => bodies.mem member) ?_
  · intro pair member
    rcases (mem_notePairs member).1 with is | is | is | is <;> rw [is] <;> decide
  · rcases refsPairs_last refs with is | is | is <;> rw [is] <;> decide

theorem memfind_isSome {needle hay : Bytes} (nonempty : needle ≠ []) :
    (memfind needle hay).isSome = true ↔ needle <:+: hay := by
  induction hay with
  | nil => simp [memfind, nonempty]
  | cons b hay ih =>
      rw [memfind, List.infix_cons_iff, ← List.isPrefixOf_iff_prefix]
      split
      next here => simp [here.2]
      next other =>
          rw [ih]
          simp only [nonempty, ne_eq, not_false_eq_true, true_and] at other
          simp [other]

theorem NoteBodies.member_iff (bodies : NoteBodies kname target reason refs)
    {key value : Bytes} (known : key = ascii "kind" ∨ key = ascii "target")
    (escaped : Escaped value) :
    member key value <:+: noteText kname target reason refs ↔
      (key, value) ∈ fields (notePairs kname target reason refs) := by
  refine ⟨fun found => ?_, infix_of_mem_fields _⟩
  refine bodies.quoted.mem_fields ?_ ?_ ?_ ?_ ?_ escaped found
  · rw [fields_notePairs]
    simp only [List.mem_cons, List.not_mem_nil, or_false]
    have plain : ∀ key ∈ noteKeys, quote ∉ key := by decide
    rintro field (rfl | rfl | rfl) <;> exact plain _ (by simp [noteKeys])
  · rcases known with rfl | rfl <;> decide
  · rcases known with rfl | rfl <;> decide
  · rcases known with rfl | rfl <;> decide
  · intro pair there
    rcases known with rfl | rfl <;>
      rcases (mem_notePairs there).1 with is | is | is | is <;> rw [is] <;>
        decide

variable {kind : Int}

theorem noteKindName_cases {kname : Bytes} (named : noteKindName kind = some kname) :
    (kind = 0 ∧ kname = ascii "change") ∨
      (kind = 1 ∧ kname = ascii "decision") ∨
      (kind = 2 ∧ kname = ascii "warning") ∨
      (kind = 3 ∧ kname = ascii "todo") := by
  unfold noteKindName at named
  grind

theorem noteKindName_isBody {kname : Bytes} (named : noteKindName kind = some kname) :
    IsBody kname := by
  rcases noteKindName_cases named with ⟨-, rfl⟩ | ⟨-, rfl⟩ | ⟨-, rfl⟩ | ⟨-, rfl⟩ <;>
    exact .of_plain (by decide)

theorem noteKindName_inj {kind' : Int} {kname : Bytes} (named : noteKindName kind = some kname)
    (named' : noteKindName kind' = some kname) : kind = kind' := by
  rcases noteKindName_cases named with
      ⟨rfl, rfl⟩ | ⟨rfl, rfl⟩ | ⟨rfl, rfl⟩ | ⟨rfl, rfl⟩ <;>
    rcases noteKindName_cases named' with
      ⟨rfl, same⟩ | ⟨rfl, same⟩ | ⟨rfl, same⟩ | ⟨rfl, same⟩ <;>
    first
      | rfl
      | exact absurd same (by decide)

/-- The line of a note of the target and kind `note`. -/
def IsNote (line : Bytes) (note : Bytes × Int) : Prop :=
  ∃ kname reason refs, noteKindName note.2 = some kname ∧
    NoteBodies kname note.1 reason refs ∧
    line = noteText kname note.1 reason refs

theorem kindPattern (kname : Bytes) :
    ascii "\"kind\":\"" ++ kname ++ [quote] = member (ascii "kind") kname := by
  simp [member, ascii, quote, colon]

theorem targetPattern (target : Bytes) :
    ascii "\"target\":\"" ++ target ++ [quote] =
      member (ascii "target") target := by
  simp [member, ascii, quote, colon]

theorem IsNote.kindMatch {line : Bytes} {note : Bytes × Int} (isNote : IsNote line note)
    (valid : 0 ≤ kind) : noteKindMatch line kind = true ↔ note.2 = kind := by
  obtain ⟨kname, reason, refs, named, bodies, rfl⟩ := isNote
  rw [noteKindMatch, if_pos valid]
  cases asked : noteKindName kind with
  | none =>
      simp only [Bool.false_eq_true, false_iff]
      rintro rfl
      rw [asked] at named
      cases named
  | some kname' =>
      have short : (ascii "\"kind\":\"" ++ kname' ++ [quote]).length < patMax := by
        rcases noteKindName_cases asked with
          ⟨-, rfl⟩ | ⟨-, rfl⟩ | ⟨-, rfl⟩ | ⟨-, rfl⟩ <;> decide
      simp only [snprintf_of_length_lt short]
      rw [kindPattern, memfind_isSome (by simp [member]),
        bodies.member_iff (.inl rfl) (noteKindName_isBody asked).escaped,
        fields_notePairs]
      constructor
      · intro found
        have same : kname' = kname := by
          have apart : ascii "kind" ≠ ascii "target" := by decide
          have apart' : ascii "kind" ≠ ascii "reason" := by decide
          simpa [apart, apart'] using found
        rw [same] at asked
        exact noteKindName_inj named asked
      · rintro rfl
        rw [asked] at named
        simp [Option.some.inj named]

/-- A target that `note_line_match` can look for: its quotes and backslashes
belong to escapes, and the pattern fits its buffer. -/
structure Searchable (target : Bytes) : Prop where
  escaped : Escaped target
  fits : target.length ≤ 156

theorem IsNote.lineMatch {line : Bytes} {note : Bytes × Int} (isNote : IsNote line note)
    {target : CString} (searchable : Searchable target.bytes) (valid : 0 ≤ kind) :
    noteLineMatch line (some target) kind = true ↔
      note = (target.bytes, kind) := by
  have targets : (memfind (snprintf patMax
      (ascii "\"target\":\"" ++ target.bytes ++ [quote])) line).isSome = true ↔
      note.1 = target.bytes := by
    obtain ⟨kname, reason, refs, named, bodies, rfl⟩ := isNote
    have short :
        (ascii "\"target\":\"" ++ target.bytes ++ [quote]).length < patMax := by
      have head : (ascii "\"target\":\"").length = 10 := by decide
      have room : patMax = 168 := by decide
      have := searchable.fits
      simp only [List.length_append, head, List.length_singleton, room]
      omega
    rw [snprintf_of_length_lt short, targetPattern,
      memfind_isSome (by simp [member]),
      bodies.member_iff (.inr rfl) searchable.escaped, fields_notePairs]
    have apart : ascii "target" ≠ ascii "kind" := by decide
    have apart' : ascii "target" ≠ ascii "reason" := by decide
    simp only [List.mem_cons, Prod.mk.injEq, apart, apart', false_and, true_and,
      List.not_mem_nil, or_false, false_or]
    exact eq_comm
  simp only [noteLineMatch, Bool.and_eq_true, isNote.kindMatch valid, targets]
  constructor
  · rintro ⟨kinds, same⟩
    exact Prod.ext same kinds
  · rintro rfl
    exact ⟨rfl, rfl⟩

end Metal.Build
