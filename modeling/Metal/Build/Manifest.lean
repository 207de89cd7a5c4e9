import Metal.Lib.Json
import Metal.Lib.Returns
import Metal.Build.Graph

namespace Metal.Build.Manifest

open Metal.Lib
open Metal.Lib.Json

/-! The parser of unit manifests: a few lines of TOML. A place in the text is what is
left of it there. -/

inductive Stop
  | past
  | miscount
  | endless
  | refused (code : Status) (text : Bytes) (line : Nat)

abbrev Reader := Except Stop

/-- `*p`; there is nothing to read at the end. -/
def deref : Bytes → Reader UInt8
  | [] => .error .past
  | c :: _ => .ok c

structure Lex where
  rest : Bytes
  line : Nat
  asked : Nat

def refuse {α : Type} (text : String) (lx : Lex) : Reader α :=
  .error (.refused .parse (ascii text) lx.line)

def hash : UInt8 := 35

def open_ : UInt8 := 91

def close : UInt8 := 93

def isBlank (c : UInt8) : Bool := c = 32 || c = 9 || c = 13

theorem length_tail_lt {s : Bytes} (some_ : s ≠ []) : s.tail.length < s.length := by
  rw [List.length_tail]
  exact Nat.sub_lt (List.length_pos_iff.mpr some_) Nat.one_pos

/-- `while (p < end && !stops(*p)) p++` -/
def scanTo (stops : UInt8 → Bool) (s : Bytes) : Reader { t : Bytes // t.length ≤ s.length } :=
  if ended : s = [] then .ok ⟨s, Nat.le_refl _⟩
  else do
    let c ← deref s
    if stops c then return ⟨s, Nat.le_refl _⟩
    else
      let ⟨t, shorter⟩ ← scanTo stops s.tail
      return ⟨t, shorter.trans (length_tail_lt ended).le⟩
termination_by s.length
decreasing_by exact length_tail_lt ended

def skipLine (s : Bytes) : Reader { t : Bytes // t.length ≤ s.length } := scanTo (· = newline) s

def keyEnd (s : Bytes) : Reader { t : Bytes // t.length ≤ s.length } :=
  scanTo (fun c => c = equals || c = newline || c = hash || isBlank c) s

def bareEnd (s : Bytes) : Reader { t : Bytes // t.length ≤ s.length } :=
  scanTo (fun c => c = newline || c = hash) s

def lexPeek (lx : Lex) : Reader UInt8 := if lx.rest = [] then .ok 0 else deref lx.rest

def lexSkipWs (lx : Lex) : Reader Lex :=
  if _ended : lx.rest = [] then .ok lx
  else do
    let c ← deref lx.rest
    if isBlank c then lexSkipWs { lx with rest := lx.rest.tail }
    else if c = newline then lexSkipWs { lx with rest := lx.rest.tail, line := lx.line + 1 }
    else if c = hash then
      -- the first turn of the inner loop passes the '#'
      let ⟨t, _shorter⟩ ← skipLine lx.rest.tail
      lexSkipWs { lx with rest := t }
    else return lx
termination_by lx.rest.length
decreasing_by
  · exact length_tail_lt _ended
  · exact length_tail_lt _ended
  · exact Nat.lt_of_le_of_lt _shorter (length_tail_lt _ended)

/-- The byte behind a backslash is one that is escaped; `guard` tells whether there is
such a byte. -/
def escaped (c : UInt8) (guard : Prop) [Decidable guard] (s : Bytes) : Reader Bool :=
  if c = backslash ∧ guard then do
    let d ← deref s.tail
    return d = quote || d = backslash
  else return false

/-- The first loop of `parse_string`: the place of the closing quote and the count of
the bytes before it; `none` where there is no such quote on the line. -/
def scanString (s : Bytes) (len : Nat) : Reader (Option (Bytes × Nat)) :=
  if ended : s = [] then .ok none
  else do
    let c ← deref s
    if c = quote then return some (s, len)
    else if c = newline then return none
    else
      let skips ← escaped c (s.tail ≠ []) s
      if skips then scanString s.tail.tail (len + 1) else scanString s.tail (len + 1)
termination_by s.length
decreasing_by
  · refine Nat.lt_of_le_of_lt ?_ (length_tail_lt ended)
    rw [List.length_tail]
    exact Nat.sub_le _ _
  · exact length_tail_lt ended

/-- The second loop: it ends where `stop` bytes are left. -/
def copyString (stop : Nat) (r out : Bytes) : Reader Bytes :=
  if _more : stop < r.length then do
    let c ← deref r
    let skips ← escaped c (stop + 1 < r.length) r
    if skips then
      let d ← deref r.tail
      copyString stop r.tail.tail (out ++ [d])
    else copyString stop r.tail (out ++ [c])
  else return out
termination_by r.length
decreasing_by
  · rw [List.length_tail, List.length_tail]
    omega
  · rw [List.length_tail]
    omega

/-- `none` for NULL. More or fewer bytes than were counted are a fault. -/
def parseString (serves : Nat → Bool) (lx : Lex) : Reader (Option Bytes × Lex) := do
  match ← scanString lx.rest 0 with
  | none => return (none, lx)
  | some (closing, len) =>
      let after := { lx with rest := closing.tail, asked := lx.asked + 1 }
      if !serves lx.asked then return (none, after)
      else
        let out ← copyString closing.length lx.rest []
        if out.length = len then return (some out, after) else .error .miscount

def parseKey (serves : Nat → Bool) (lx : Lex) : Reader (CString × Lex) := do
  let ⟨rest, _⟩ ← keyEnd lx.rest
  let len := lx.rest.length - rest.length
  if len = 0 then refuse "expected key" { lx with rest := rest }
  else
    let after := { lx with rest := rest, asked := lx.asked + 1 }
    if !serves lx.asked then refuse "expected key" after
    else return (.ofBytes (lx.rest.take len), after)

/-- `none` where another byte stands there, or none. -/
def expect (lx : Lex) (c : UInt8) : Reader (Option Lex) :=
  if lx.rest = [] then .ok none
  else do
    let d ← deref lx.rest
    return if d = c then some { lx with rest := lx.rest.tail } else none

inductive ScalarKey
  | fqn
  | impl
  | version
  deriving DecidableEq

inductive ArrayKey
  | sources
  | includeDirs
  | defines
  | depends
  deriving DecidableEq

def ScalarKey.name : ScalarKey → CString
  | .fqn => ⟨ascii "fqn", by decide⟩
  | .impl => ⟨ascii "impl", by decide⟩
  | .version => ⟨ascii "version", by decide⟩

def ArrayKey.name : ArrayKey → CString
  | .sources => ⟨ascii "sources", by decide⟩
  | .includeDirs => ⟨ascii "include_dirs", by decide⟩
  | .defines => ⟨ascii "defines", by decide⟩
  | .depends => ⟨ascii "depends", by decide⟩

def ScalarKey.room : ScalarKey → Nat
  | .fqn => strMax
  | .impl => 8
  | .version => strMax

def scalarOf (key : CString) : Option ScalarKey :=
  [ScalarKey.fqn, .impl, .version].find? fun k => k.name = key

def arrayOf (key : CString) : Option ArrayKey :=
  [ArrayKey.sources, .includeDirs, .defines, .depends].find? fun k => k.name = key

/-- `pm_build_strings_t` -/
structure Strings where
  items : List CString
  cap : Nat
  oom : Bool

def stringsPush (serves : Nat → Bool) (v : CString) (s : Strings) (lx : Lex) : Strings × Lex :=
  if s.oom then (s, lx)
  else if s.items.length = s.cap then
    let lx' := { lx with asked := lx.asked + 1 }
    if serves lx.asked then
      (⟨s.items ++ [v], if s.cap = 0 then 8 else s.cap * 2, false⟩, lx')
    else ({ s with oom := true }, lx')
  else ({ s with items := s.items ++ [v] }, lx)

structure Parsed where
  scalar : ScalarKey → CString
  array : ArrayKey → Strings

def Parsed.empty : Parsed := ⟨fun _ => .empty, fun _ => ⟨[], 0, false⟩⟩

/-- `upstream`, `archive`, `notes` and keys that are not known leave the unit as it is. -/
def setScalar (key val : CString) (lx : Lex) (m : Parsed) : Reader Parsed :=
  match scalarOf key with
  | none => .ok m
  | some k =>
      if val.length ≥ k.room then refuse "value too long" lx
      else .ok { m with scalar := fun k' => if k' = k then val else m.scalar k' }

def parseItems (serves : Nat → Bool) : Nat → Lex → Strings → Reader (Strings × Lex)
  | 0, _, _ => .error .endless
  | fuel + 1, lx, s => do
      let lx ← lexSkipWs lx
      let c ← lexPeek lx
      if c = close then return (s, { lx with rest := lx.rest.tail })
      else if lx.rest = [] then refuse "unterminated array" lx
      else
        match ← expect lx quote with
        | none => refuse "expected string in array" lx
        | some lx =>
            match ← parseString serves lx with
            | (none, lx) => refuse "unterminated string in array" lx
            | (some val, lx) =>
                let (s, lx) := stringsPush serves (.ofBytes val) s lx
                let lx ← lexSkipWs lx
                let c ← lexPeek lx
                parseItems serves fuel
                  (if c = comma then { lx with rest := lx.rest.tail } else lx) s

/-- Back over blanks: of the first `n` bytes from `start` on, those up to the last that
is none. -/
def trimBack (start : Bytes) : Nat → Reader Nat
  | 0 => .ok 0
  | n + 1 => do
      let c ← deref (start.drop n)
      if isBlank c then trimBack start n else return n + 1

def parseBare (lx : Lex) : Reader Lex := do
  let ⟨rest, _⟩ ← bareEnd lx.rest
  let n ← trimBack lx.rest (lx.rest.length - rest.length)
  let after := { lx with rest := lx.rest.drop n }
  if n = 0 then refuse "expected value" after else return after

/-- A key and its value; `fuel` bounds the strings of an array. -/
def parseEntry (serves : Nat → Bool) (fuel : Nat) (lx : Lex) (m : Parsed) :
    Reader (Parsed × Lex) := do
  let (key, lx) ← parseKey serves lx
  let lx ← lexSkipWs lx
  match ← expect lx equals with
  | none => refuse "expected '=' after key" lx
  | some lx =>
      let lx ← lexSkipWs lx
      let c ← lexPeek lx
      if c = quote then
        match ← parseString serves { lx with rest := lx.rest.tail } with
        | (none, lx) => refuse "unterminated string" lx
        | (some val, lx) =>
            let m ← setScalar key (.ofBytes val) lx m
            return (m, lx)
      else if c = open_ then
        match arrayOf key with
        | none => refuse "unknown array key" lx
        | some k =>
            let (s, lx) ← parseItems serves fuel { lx with rest := lx.rest.tail } (m.array k)
            return ({ m with array := fun k' => if k' = k then s else m.array k' }, lx)
      else
        let lx ← parseBare lx
        return (m, lx)

def parseEntries (serves : Nat → Bool) : Nat → Lex → Parsed → Reader (Parsed × Lex)
  | 0, _, _ => .error .endless
  | fuel + 1, lx, m => do
      let lx ← lexSkipWs lx
      if lx.rest = [] then return (m, lx)
      else
        let c ← deref lx.rest
        if c = open_ then
          let ⟨t, _⟩ ← skipLine lx.rest
          parseEntries serves fuel { lx with rest := t } m
        else
          let (m, lx) ← parseEntry serves (fuel + 1) lx m
          parseEntries serves fuel lx m

/-- `pm_metal_build_unit_t` -/
structure Unit where
  fqn : CString
  impl : CString
  version : CString
  sources : List CString
  includeDirs : List CString
  defines : List CString
  depends : List CString

/-- `none` for the bytes is NULL, as is `false` for the arena. -/
def unitParse (arena : Bool) (serves : Nat → Bool) (bytes : Option Bytes) : Reader Unit :=
  match arena, bytes with
  | true, some bytes => do
      let (m, lx) ← parseEntries serves (bytes.length + 1) ⟨bytes, 1, 0⟩ .empty
      if (m.array .sources).oom || (m.array .includeDirs).oom || (m.array .defines).oom ||
          (m.array .depends).oom then
        .error (.refused .nomem (ascii "arena exhausted") lx.line)
      else if (m.scalar .fqn).bytes = [] ∨ (m.scalar .impl).bytes = [] then
        refuse "manifest missing fqn or impl" lx
      else
        return ⟨m.scalar .fqn, m.scalar .impl, m.scalar .version, (m.array .sources).items,
          (m.array .includeDirs).items, (m.array .defines).items, (m.array .depends).items⟩
  | _, _ => refuse "null argument" ⟨[], 0, 0⟩

end Metal.Build.Manifest
