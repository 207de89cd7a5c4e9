import Metal.Lib.Json
import Metal.Lib.Run
import Metal.Build.Graph

namespace Metal.Build

open Metal.Lib
open Metal.Lib.Json

/-! The change ledger: one file of JSON lines, appended by `note_add` and
searched line by line. -/

def noteTargetMax : Nat := 160

def noteReasonMax : Nat := 256

def noteRefsMax : Nat := 8

def ledgerMax : Nat := 64 * 1024

/-- The buffers of `note_add` and `note_line_match`. -/
def lineMax : Nat := 512 + noteRefsMax * 80

def escMax : Nat := 2 * noteReasonMax

def patMax : Nat := noteTargetMax + 8

def noteKindName (kind : Int) : Option Bytes :=
  if kind = 0 then some (ascii "change")
  else if kind = 1 then some (ascii "decision")
  else if kind = 2 then some (ascii "warning")
  else if kind = 3 then some (ascii "todo")
  else none

def noteEscByte (c : UInt8) : Bytes :=
  if c = quote ∨ c = backslash then [backslash, c]
  else if c = 10 then [backslash, 110]
  else if c = 13 then [backslash, 114]
  else if c = 9 then [backslash, 116]
  else if c < 32 then
    [backslash, 117, 48, 48, hexDigit (c / 16), hexDigit (c % 16)]
  else [c]

/-- The loop of `note_esc`, which stops when an escape might not fit. -/
def noteEsc (outMax : Nat) : Bytes → Bytes → Bytes
  | [], out => out
  | c :: s, out =>
      if out.length + 7 < outMax then noteEsc outMax s (out ++ noteEscByte c)
      else out

/-- The arguments of a call of `note_add`, and whether the arena serves the
file that `ledger_ensure` makes and the one that replaces it. -/
structure NoteAdd where
  target : CString
  kind : Int
  reason : CString
  refs : List (Option CString)
  seeded : Bool
  served : Bool

/-- The loop over the refs. The line is kept as `snprintf` counts it, also past
the end of its buffer. -/
def noteRefs : List (Option CString) → Bool → Bytes → Bytes
  | [], _, line => line
  | ref :: refs, wroteAny, line =>
      if line.length < lineMax then
        match ref with
        | none => noteRefs refs wroteAny line
        | some ref =>
            noteRefs refs true ((if wroteAny then line ++ [comma] else line) ++
              string (noteEsc escMax ref.bytes []))
      else line

/-- The line is composed, it does not fit, or `snprintf` was called with a place
past the end of the buffer. -/
inductive Composed
  | line (bytes : Bytes)
  | refused
  | overrun
  deriving DecidableEq

def noteHead (kname target : Bytes) : Bytes :=
  ascii "\x7b\"kind\":\"" ++ kname ++ ascii "\",\"target\":\"" ++ target ++
    ascii "\",\"reason\":\""

def NoteAdd.beforeBracket (call : NoteAdd) (line : Bytes) : Bytes :=
  noteRefs (call.refs.take noteRefsMax) false (line ++ ascii ",\"refs\":[")

def closeLine (line : Bytes) : Composed :=
  if line.length ≥ lineMax then .refused
  else
    let line := line ++ ascii "\x7d\n"
    if line.length ≥ lineMax then .refused else .line line

def NoteAdd.compose (call : NoteAdd) (kname : Bytes) : Composed :=
  let line := noteHead kname call.target.bytes
  if line.length ≥ lineMax then .refused
  else
    let line := line ++ noteEsc escMax call.reason.bytes [] ++ [quote]
    if line.length ≥ lineMax then .refused
    else if call.refs ≠ [] then
      let line := call.beforeBracket line
      if line.length > lineMax then .overrun else closeLine (line ++ ascii "]")
    else closeLine line

def changesLine (kname target : String) (reason : List String) : Bytes :=
  ascii "\x7b\"kind\":\"" ++ ascii kname ++ ascii "\",\"target\":\"" ++
    ascii target ++ ascii "\",\"reason\":\"" ++ reason.flatMap ascii ++
    ascii "\"\x7d\n"

def changesJsonl : Bytes :=
  changesLine "decision" "pymergetic.metal.build"
    ["ledger lives as one fs file ", "(/src/.changes.jsonl) owned by ",
     "the build card, not a new module"] ++
  changesLine "warning" "pymergetic.metal.net.ip"
    ["custom TCP stack has no robust ", "retransmit timer; UEFI CDN ",
     "fetch flakes ~10% under QEMU ", "user-net (pre-existing, ",
     "mitigated by async stall 1s + ", "autoexec retry)"] ++
  changesLine "todo" "pymergetic.metal.jit.rs.compiler"
    ["mrustc port is the remaining ", "unlifted external: embed as a ",
     "runtime card, then rewrite in ", "Rust so the card self-hosts"]

/-- The file, if there is one, and whether a write went past the line buffer. -/
structure Ledger where
  file : Option Bytes
  overrun : Bool

def Ledger.ensure (seeded : Bool) (s : Ledger) : Option Ledger :=
  match s.file with
  | some content => if content.length > 0 then some s else none
  | none => if seeded then some { s with file := some changesJsonl } else none

def Ledger.append (call : NoteAdd) (line : Bytes) (s : Ledger) :
    Ledger × Status :=
  match s.file with
  | none => (s, .nomem)
  | some content =>
      let existing := content.take ledgerMax
      if existing.length + line.length ≥ ledgerMax then (s, .nomem)
      else if ¬ call.served then ({ s with file := none }, .nomem)
      else ({ s with file := some (existing ++ line) }, .ok)

def Ledger.noteAdd (call : NoteAdd) (s : Ledger) : Ledger × Status :=
  if call.target.bytes = [] ∨ call.reason.bytes = [] then (s, .parse)
  else
    match noteKindName call.kind with
    | none => (s, .parse)
    | some kname =>
        match s.ensure call.seeded with
        | none => (s, .nomem)
        | some s =>
            match call.compose kname with
            | .refused => (s, .parse)
            | .overrun => ({ s with overrun := true }, .parse)
            | .line line => s.append call line

/-- `build_memfind`, with what is left of the text at the match. -/
def memfind (needle : Bytes) : Bytes → Option Bytes
  | [] => none
  | b :: hay =>
      if needle ≠ [] ∧ needle.isPrefixOf (b :: hay) then some (b :: hay)
      else memfind needle hay

def noteKindMatch (line : Bytes) (kind : Int) : Bool :=
  if kind ≥ 0 then
    match noteKindName kind with
    | none => false
    | some kname =>
        (memfind (snprintf patMax (ascii "\"kind\":\"" ++ kname ++ [quote]))
          line).isSome
  else true

def noteLineMatch (line : Bytes) (target : Option CString) (kind : Int) : Bool :=
  noteKindMatch line kind &&
    match target with
    | none => true
    | some target =>
        (memfind (snprintf patMax
          (ascii "\"target\":\"" ++ target.bytes ++ [quote])) line).isSome

structure Hits where
  out : Bytes
  count : Nat

def Hits.add (outLen : Nat) (line : Bytes) (hits : Hits) : Hits :=
  let out := if hits.count > 0 ∧ hits.out.length + 1 < outLen then
      hits.out ++ [newline] else hits.out
  let lnlen := if line.length ≥ outLen - out.length then
      outLen - out.length - 1 else line.length
  { out := out ++ line.take lnlen, count := hits.count + 1 }

def Hits.visit (target : Option CString) (kind : Int) (outLen : Nat)
    (hits : Hits) (line : Bytes) : Hits :=
  if line.length > 0 ∧ noteLineMatch line target kind then hits.add outLen line
  else hits

def Ledger.notesQuery (target : Option CString) (kind : Int) (outLen : Nat)
    (seeded : Bool) (s : Ledger) : Ledger × Except Status Hits :=
  if outLen = 0 then (s, .error .parse)
  else
    match s.ensure seeded with
    | none => (s, .error .nomem)
    | some s =>
        match s.file with
        | none => (s, .error .nomem)
        | some content =>
            (s, .ok (((content.take ledgerMax).splitOn newline).foldl
              (Hits.visit target kind outLen) ⟨[], 0⟩))

def Ledger.noteHas (target : CString) (kind : Int) (seeded : Bool)
    (s : Ledger) : Ledger × Nat :=
  if target.bytes = [] then (s, 0)
  else
    match s.notesQuery (some target) kind 128 seeded with
    | (s, .error _) => (s, 0)
    | (s, .ok hits) => (s, if hits.count > 0 then 1 else 0)

def Ledger.run (s : Ledger) (calls : List NoteAdd) : Ledger :=
  calls.foldl (fun s call => (s.noteAdd call).1) s

/-- The notes that were taken: what the calls that returned `OK` named. -/
def Ledger.accepted (s : Ledger) : List NoteAdd → List (Bytes × Int)
  | [] => []
  | call :: calls =>
      (if (s.noteAdd call).2 = .ok then [(call.target.bytes, call.kind)]
        else []) ++ (s.noteAdd call).1.accepted calls

end Metal.Build
