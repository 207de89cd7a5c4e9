import Metal.Build.Notes

namespace Metal.Build

open Metal.Lib
open Metal.Lib.Json

/-! Runs of `note_add`: the gate answers for the notes that were taken. -/

inductive Records : Bytes → List (Bytes × Int) → Prop
  | nil : Records [] []
  | blank {content : Bytes} {notes : List (Bytes × Int)}
      (tail : Records content notes) : Records (newline :: content) notes
  | note {line content : Bytes} {note : Bytes × Int}
      {notes : List (Bytes × Int)} (isNote : IsNote line note)
      (tail : Records content notes) :
      Records (line ++ newline :: content) (note :: notes)

variable {note : Bytes × Int} {content : Bytes} {notes : List (Bytes × Int)}

theorem Records.snoc {bytes : Bytes} (records : Records content notes)
    (line : ∃ line, bytes = line ++ [newline] ∧ IsNote line note) :
    Records (content ++ bytes) (notes ++ [note]) := by
  obtain ⟨line, rfl, isNote⟩ := line
  induction records with
  | nil => exact .note isNote .nil
  | blank _ ih => exact .blank ih
  | note isNote' _ ih =>
      rw [List.append_assoc]
      exact .note isNote' ih

variable {line : Bytes}

theorem IsNote.newline_not_mem (isNote : IsNote line note) : newline ∉ line := by
  obtain ⟨kname, reason, refs, -, bodies, rfl⟩ := isNote
  exact bodies.newline_not_mem

theorem IsNote.isObject (isNote : IsNote line note) : IsObject line := by
  obtain ⟨kname, reason, refs, -, bodies, rfl⟩ := isNote
  exact bodies.isObject

theorem IsNote.length_pos (isNote : IsNote line note) : line.length > 0 := by
  apply List.length_pos_iff.mpr
  rintro rfl
  cases isNote.isObject.2

theorem Records.lines (records : Records content notes) :
    ∀ line ∈ content.splitOn newline, line ≠ [] → IsObject line := by
  induction records with
  | nil => simp
  | blank _ ih =>
      intro line member nonempty
      rw [← List.nil_append (newline :: _),
        List.splitOn_append_cons_self_of_not_mem (by simp)] at member
      rcases List.mem_cons.mp member with rfl | behind
      · exact absurd rfl nonempty
      · exact ih line behind nonempty
  | note isNote _ ih =>
      intro line member nonempty
      rw [List.splitOn_append_cons_self_of_not_mem isNote.newline_not_mem]
        at member
      rcases List.mem_cons.mp member with rfl | behind
      · exact isNote.isObject
      · exact ih line behind nonempty

theorem Records.count (records : Records content notes) {target : CString} {kind : Int}
    (searchable : Searchable target.bytes) (valid : 0 ≤ kind) (outLen : Nat) (hits : Hits) :
    ((content.splitOn newline).foldl (Hits.visit (some target) kind outLen)
      hits).count = hits.count + notes.count (target.bytes, kind) := by
  induction records generalizing hits with
  | nil => simp [Hits.visit]
  | blank _ ih =>
      rw [← List.nil_append (newline :: _),
        List.splitOn_append_cons_self_of_not_mem (by simp), List.foldl_cons,
        ih]
      simp [Hits.visit]
  | @note line content note notes isNote _ ih =>
      rw [List.splitOn_append_cons_self_of_not_mem isNote.newline_not_mem,
        List.foldl_cons, ih, List.count_cons, Hits.visit]
      have found := isNote.lineMatch searchable valid
      by_cases same : note = (target.bytes, kind)
      · rw [if_pos ⟨isNote.length_pos, found.mpr same⟩, if_pos (by simp [same])]
        simp only [Hits.add]
        omega
      · rw [if_neg fun both => same (found.mp both.2), if_neg (by simpa using same)]
        rfl

/-- A ledger in which notes may have been taken before. A file of the store has
at least one byte: the empty ledger is one blank line. -/
structure Opening where
  content : Bytes
  notes : List (Bytes × Int)
  records : Records content notes
  nonempty : content ≠ []
  fits : content.length ≤ ledgerMax

def Opening.blank : Opening where
  content := [newline]
  notes := []
  records := .blank .nil
  nonempty := by simp
  fits := by decide

def changesNotes : List (Bytes × Int) :=
  [(ascii "pymergetic.metal.build", 1), (ascii "pymergetic.metal.net.ip", 2),
   (ascii "pymergetic.metal.jit.rs.compiler", 3)]

theorem changesLine_isNote {kname target : String} {reason : List String}
    {kind : Int} (named : noteKindName kind = some (ascii kname))
    (plainTarget : (ascii target).all isPlain = true)
    (plainReason : (reason.flatMap ascii).all isPlain = true) :
    ∃ line, changesLine kname target reason = line ++ [newline] ∧
      IsNote line (ascii target, kind) := by
  refine ⟨noteText (ascii kname) (ascii target) (reason.flatMap ascii) none, ?_,
    ascii kname, reason.flatMap ascii, none, named,
    ⟨noteKindName_isBody named, .of_plain plainTarget, .of_plain plainReason, ?_⟩,
    rfl⟩
  · rw [noteText_none]
    simp [changesLine, noteHead, ascii, newline, quote]
  · rintro _ ⟨⟩

theorem changesJsonl_records : Records changesJsonl changesNotes := by
  change Records ([] ++ _ ++ _ ++ _) ([] ++ [_] ++ [_] ++ [_])
  refine ((Records.nil.snoc (changesLine_isNote rfl ?_ ?_)).snoc
    (changesLine_isNote rfl ?_ ?_)).snoc (changesLine_isNote rfl ?_ ?_)
  all_goals
    repeat rw [List.flatMap_cons]
    repeat rw [ascii_ofList]
    decide +kernel

theorem length_changesJsonl : changesJsonl.length = 567 := by
  simp only [changesJsonl, changesLine, List.flatMap_cons, List.flatMap_nil]
  repeat rw [ascii_ofList]
  decide +kernel

def Opening.seeded : Opening where
  content := changesJsonl
  notes := changesNotes
  records := changesJsonl_records
  nonempty := List.ne_nil_of_length_pos (by rw [length_changesJsonl]; decide)
  fits := by rw [length_changesJsonl]; decide

def Opening.ledger (opening : Opening) : Ledger where
  file := some opening.content
  overrun := false

def Ledger.Holding (s : Ledger) (notes : List (Bytes × Int)) : Prop :=
  ∃ content, s.file = some content ∧ content ≠ [] ∧
    content.length ≤ ledgerMax ∧ Records content notes

theorem Opening.holding (opening : Opening) :
    opening.ledger.Holding opening.notes :=
  ⟨opening.content, rfl, opening.nonempty, opening.fits, opening.records⟩

variable {s : Ledger}

theorem Ledger.Holding.ensure (holding : s.Holding notes) (seeded : Bool) :
    s.ensure seeded = some s := by
  obtain ⟨content, file, bytes, -, -⟩ := holding
  simp only [Ledger.ensure, file]
  exact if_pos (List.length_pos_iff.mpr bytes)

theorem Ledger.Holding.noteHas (holding : s.Holding notes) {target : CString} {kind : Int}
    (nonempty : target.bytes ≠ []) (searchable : Searchable target.bytes) (valid : 0 ≤ kind)
    (seeded : Bool) : (s.noteHas target kind seeded).2 = 1 ↔ (target.bytes, kind) ∈ notes := by
  have ensured := holding.ensure seeded
  obtain ⟨content, file, -, fits, records⟩ := holding
  have counted := records.count searchable valid 128 ⟨[], 0⟩
  have query : s.notesQuery (some target) kind 128 seeded =
      (s, .ok ((content.splitOn newline).foldl
        (Hits.visit (some target) kind 128) ⟨[], 0⟩)) := by
    simp only [Ledger.notesQuery, ensured, file, List.take_of_length_le fits]
    rfl
  simp only [Ledger.noteHas, if_neg nonempty, query]
  rw [counted, Nat.zero_add, ← List.count_pos_iff]
  split
  next found => simp [found]
  next missing => simp [missing]

/-- The call passes no raw text into the line, its line stays within the buffer,
and the store takes the new file. Calls that the first checks refuse are free. -/
def NoteAdd.Tidy (call : NoteAdd) : Prop :=
  call.target.bytes ≠ [] → call.reason.bytes ≠ [] →
    ∀ kname, noteKindName call.kind = some kname →
      IsBody call.target.bytes ∧ call.compose kname ≠ .overrun ∧
        call.served = true

theorem closeLine_eq_line {composed : Bytes} (closed : closeLine line = .line composed) :
    composed = line ++ ascii "\x7d" ++ [newline] := by
  simp only [closeLine] at closed
  split at closed
  · cases closed
  split at closed
  · cases closed
  obtain rfl := Composed.line.inj closed
  rw [List.append_assoc]
  rfl

variable {call : NoteAdd}

theorem NoteAdd.compose_isNote {kname composed : Bytes}
    (named : noteKindName call.kind = some kname) (isBody : IsBody call.target.bytes)
    (line : call.compose kname = .line composed) :
    ∃ line, composed = line ++ [newline] ∧
      IsNote line (call.target.bytes, call.kind) := by
  have reasonBody := noteEsc_isBody escMax call.reason.bytes .nil
  have knameBody := noteKindName_isBody named
  simp only [NoteAdd.compose] at line
  split at line
  · cases line
  split at line
  · cases line
  split at line
  next refs =>
    split at line
    · cases line
    obtain ⟨bodies, areBodies, eq⟩ := noteRefs_first
      (call.refs.take noteRefsMax) (noteHead kname call.target.bytes ++
        noteEsc escMax call.reason.bytes [] ++ [quote] ++ ascii ",\"refs\":[")
    refine ⟨_, closeLine_eq_line line, kname, _, some bodies, named,
      ⟨knameBody, isBody, reasonBody, ?_⟩, ?_⟩
    · rintro _ ⟨⟩
      exact areBodies
    · rw [noteText_some, NoteAdd.beforeBracket, eq]
  next =>
    refine ⟨_, closeLine_eq_line line, kname, _, none, named,
      ⟨knameBody, isBody, reasonBody, ?_⟩, ?_⟩
    · rintro _ ⟨⟩
    · rw [noteText_none]

theorem Ledger.Holding.append (holding : s.Holding notes) (served : call.served = true)
    {bytes : Bytes} (line : ∃ line, bytes = line ++ [newline] ∧
      IsNote line (call.target.bytes, call.kind)) :
    (s.append call bytes).1.Holding
      (notes ++ if (s.append call bytes).2 = .ok then
        [(call.target.bytes, call.kind)] else []) := by
  have before := holding
  obtain ⟨content, file, nonempty, fits, records⟩ := holding
  simp only [Ledger.append, file, List.take_of_length_le fits, served]
  split
  · simpa using before
  next room =>
    refine ⟨content ++ bytes, rfl, by simp [nonempty], ?_, ?_⟩
    · rw [List.length_append]
      omega
    · simpa using records.snoc line

theorem Ledger.Holding.noteAdd (holding : s.Holding notes) (tidy : call.Tidy) :
    (s.noteAdd call).1.Holding (notes ++ if (s.noteAdd call).2 = .ok then
      [(call.target.bytes, call.kind)] else []) := by
  have ensured := holding.ensure call.seeded
  by_cases given : call.target.bytes = [] ∨ call.reason.bytes = []
  · have refused : s.noteAdd call = (s, .parse) := by
      rw [Ledger.noteAdd, if_pos given]
    simpa [refused] using holding
  cases named : noteKindName call.kind with
  | none =>
      have refused : s.noteAdd call = (s, .parse) := by
        simp only [Ledger.noteAdd, if_neg given, named]
      simpa [refused] using holding
  | some kname =>
      obtain ⟨some_, reason⟩ := not_or.mp given
      obtain ⟨isBody, inside, served⟩ := tidy some_ reason kname named
      cases composed : call.compose kname with
      | refused =>
          have refused : s.noteAdd call = (s, .parse) := by
            simp only [Ledger.noteAdd, if_neg given, named, ensured, composed]
          simpa [refused] using holding
      | overrun => exact absurd composed inside
      | line bytes =>
          have reached : s.noteAdd call = s.append call bytes := by
            simp only [Ledger.noteAdd, if_neg given, named, ensured, composed]
          rw [reached]
          exact holding.append served
            (call.compose_isNote named isBody composed)

theorem Ledger.Holding.run (holding : s.Holding notes) {calls : List NoteAdd}
    (tidy : ∀ call ∈ calls, call.Tidy) : (s.run calls).Holding (notes ++ s.accepted calls) := by
  induction calls generalizing s notes with
  | nil =>
      rw [Ledger.accepted, List.append_nil]
      exact holding
  | cons call calls ih =>
      rw [Ledger.accepted, ← List.append_assoc]
      exact ih (holding.noteAdd (tidy call List.mem_cons_self))
        fun other member => tidy other (List.mem_cons_of_mem call member)

structure Ledger.Gated (s : Ledger) (notes : List (Bytes × Int))
    (target : CString) (kind : Int) : Prop where
  has : ∀ seeded, (s.noteHas target kind seeded).2 = 1 ↔
    (target.bytes, kind) ∈ notes
  lines : ∀ content, s.file = some content →
    ∀ line ∈ content.splitOn newline, line ≠ [] → IsObject line

theorem gated_of_tidy (opening : Opening) (calls : List NoteAdd)
    (tidy : ∀ call ∈ calls, call.Tidy) (target : CString) (kind : Int)
    (nonempty : target.bytes ≠ []) (searchable : Searchable target.bytes)
    (valid : 0 ≤ kind) :
    (opening.ledger.run calls).Gated
      (opening.notes ++ opening.ledger.accepted calls) target kind := by
  have holding := opening.holding.run tidy
  refine ⟨fun seeded => holding.noteHas nonempty searchable valid seeded, ?_⟩
  intro content file
  obtain ⟨content', file', -, -, records⟩ := holding
  obtain rfl : content = content' := Option.some.inj (file.symm.trans file')
  exact records.lines

def plainNote (target : CString) : NoteAdd where
  target := target
  kind := 0
  reason := ⟨ascii "r", by decide⟩
  refs := []
  seeded := true
  served := true

theorem gated_of_tidy_noted :
    (plainNote ⟨ascii "a.b", by decide⟩).Tidy ∧
      (Opening.blank.ledger.run [plainNote ⟨ascii "a.b", by decide⟩]).Gated
        [(ascii "a.b", 0)] ⟨ascii "a.b", by decide⟩ 0 := by
  have tidy : (plainNote ⟨ascii "a.b", by decide⟩).Tidy := by
    intro _ _ kname named
    obtain rfl : ascii "change" = kname := Option.some.inj named
    exact ⟨.of_plain (by decide), by decide, rfl⟩
  have searchable : Searchable (ascii "a.b") :=
    ⟨(IsBody.of_plain (by decide)).escaped, by decide⟩
  refine ⟨tidy, ?_⟩
  exact gated_of_tidy .blank [plainNote ⟨ascii "a.b", by decide⟩]
    (by simpa using tidy) ⟨ascii "a.b", by decide⟩ 0 (by decide) searchable
    (by decide)

/-- One note whose target imitates the end of a target and another one. -/
theorem gate_forged :
    ¬ ∀ (opening : Opening) (calls : List NoteAdd) (target : CString)
      (kind : Int), target.bytes ≠ [] → 0 ≤ kind →
        (opening.ledger.run calls).Gated
          (opening.notes ++ opening.ledger.accepted calls) target kind := by
  intro gated
  have has := (gated .blank [plainNote ⟨ascii "x\",\"target\":\"y", by decide⟩]
    ⟨ascii "y", by decide⟩ 0 (by decide) (by decide)).has true
  revert has
  decide

end Metal.Build
