import Metal.Lib.CString
import Metal.Lib.Loop

namespace Metal.Jit.Rs.Lex

open Metal.Lib

/-! The lexer of `jit/rs/compiler/parts/lexer`. Its position is given by what is left of the
source there. -/

def tick : UInt8 := 39

def star : UInt8 := 42

def hash : UInt8 := 35

def bang : UInt8 := 33

def underscore : UInt8 := 95

def isAlpha (b : UInt8) : Bool := (65 ≤ b && b ≤ 90) || (97 ≤ b && b ≤ 122)

def isIdentStart (b : UInt8) : Bool := b == underscore || isAlpha b

def isIdentCont (b : UInt8) : Bool := b == underscore || isAlpha b || isDigit b

def isBlank (b : UInt8) : Bool := b == 32 || b == 9 || b == 13

/-- The byte `k` from here, or 0 behind the end. -/
def peek (rest : Bytes) (k : Nat) : UInt8 := rest.getD k 0

def lineAfter (b : UInt8) (line : UInt32) : UInt32 := if b = newline then line + 1 else line

inductive Kind where
  | end_ | ident | intLiteral | floatLiteral | charLiteral | stringLiteral | byteStrLiteral
  | lifetime | arrow | fatArrow | doubleColon | dot | range | shl | shr | le | ge | eq | ne
  | andand | oror | pluseq | minuseq | stareq | slasheq | percenteq | careteq | ampeq | oreq
  | shleq | shreq | macroInvoc | punct | error
  deriving DecidableEq

structure Token where
  kind : Kind
  line : UInt32
  text : Bytes
  deriving DecidableEq

/-- The token array: what it has room for, and how often the arena was asked. -/
structure Toks where
  list : List Token
  cap : Nat
  asked : Nat
  deriving DecidableEq

def Toks.new : Toks := ⟨[], 0, 0⟩

def Toks.n (toks : Toks) : Nat := toks.list.length

/-- `grant i`: the arena gives what it is asked for the `i`-th time. -/
def Toks.push (grant : Nat → Bool) (toks : Toks) (t : Token) : Option Toks :=
  if toks.n = toks.cap then
    if grant toks.asked then
      some ⟨toks.list ++ [t], if toks.cap = 0 then 256 else toks.cap * 2, toks.asked + 1⟩
    else none
  else some { toks with list := toks.list ++ [t] }

def maxToks : Nat := 1048576

/-- The lexer is not ok: with a message for a line, or because the token array did not grow. -/
inductive Failure where
  | said (msg : Bytes) (line : UInt32)
  | silent
  deriving DecidableEq

structure Cursor where
  rest : Bytes
  line : UInt32
  deriving DecidableEq

structure Lexeme where
  kind : Kind
  text : Bytes
  cur : Cursor
  deriving DecidableEq

def Lexeme.upTo (kind : Kind) (start : Bytes) (cur : Cursor) : Lexeme :=
  ⟨kind, start.take (start.length - cur.rest.length), cur⟩

def push (grant : Nat → Bool) (toks : Toks) (lexeme : Lexeme) : Except Failure Toks :=
  if grant toks.asked then
    match { toks with asked := toks.asked + 1 }.push grant
        ⟨lexeme.kind, lexeme.cur.line, lexeme.text⟩ with
    | none => .error .silent
    | some toks => .ok toks
  else .error (.said (ascii "arena exhausted") lexeme.cur.line)

def skipBlock : Nat → UInt32 → Bytes → Nat × Cursor
  | 0, line, rest => (0, ⟨rest, line⟩)
  | depth + 1, line, [] => (depth + 1, ⟨[], line⟩)
  | depth + 1, line, [d] => (depth + 1, ⟨[], lineAfter d line⟩)
  | depth + 1, line, d :: e :: rest =>
      if d = slash ∧ e = star then skipBlock (depth + 2) line rest
      else if d = star ∧ e = slash then skipBlock depth line rest
      else skipBlock (depth + 1) (lineAfter d line) (e :: rest)

theorem skipBlock_suffix (depth : Nat) (line : UInt32) (rest : Bytes) :
    (skipBlock depth line rest).2.rest <:+ rest := by
  induction depth, line, rest using skipBlock.induct with
  | case1 line rest | case2 depth line =>
      rewrite [skipBlock]
      exact List.suffix_rfl
  | case3 depth line d =>
      rewrite [skipBlock]
      exact List.nil_suffix
  | case4 depth line d e rest opens ih =>
      rw [skipBlock, if_pos opens]
      exact ih.trans (List.suffix_append [d, e] rest)
  | case5 depth line d e rest opens closes ih =>
      rw [skipBlock, if_neg opens, if_pos closes]
      exact ih.trans (List.suffix_append [d, e] rest)
  | case6 depth line d e rest opens closes ih =>
      rw [skipBlock, if_neg opens, if_neg closes]
      exact ih.trans (List.suffix_cons d (e :: rest))

def skipTrivia (line : UInt32) : Bytes → Except Failure Cursor
  | [] => .ok ⟨[], line⟩
  | c :: rest =>
      if c = newline then skipTrivia (line + 1) rest
      else if isBlank c then skipTrivia line rest
      else if c = slash ∧ peek rest 0 = slash then
        skipTrivia line (rest.dropWhile (· != newline))
      else if c = slash ∧ peek rest 0 = star then
        match _closed : skipBlock 1 line (rest.drop 1) with
        | (0, cur) => skipTrivia cur.line cur.rest
        | (_ + 1, cur) => .error (.said (ascii "unterminated block comment") cur.line)
      else .ok ⟨c :: rest, line⟩
termination_by rest => rest.length
decreasing_by
  · exact Nat.lt_succ_self _
  · exact Nat.lt_succ_self _
  · exact Nat.lt_succ_of_le (List.dropWhile_sublist _).length_le
  · have inside := skipBlock_suffix 1 line (rest.drop 1)
    rw [_closed] at inside
    exact Nat.lt_succ_of_le (inside.trans (List.drop_suffix 1 rest)).length_le

def stringBody : UInt32 → Bytes → Except Failure Cursor
  | line, [] => .error (.said (ascii "unterminated string") line)
  | line, [c] =>
      if c = quote then .ok ⟨[], line⟩
      else .error (.said (ascii "unterminated string") (lineAfter c line))
  | line, c :: d :: rest =>
      if c = backslash then stringBody line rest
      else if c = quote then .ok ⟨d :: rest, line⟩
      else stringBody (lineAfter c line) (d :: rest)

def skipStringBody (cur : Cursor) : Except Failure Cursor := stringBody cur.line (cur.rest.drop 1)

/-- `skip_string_body` and `push`. -/
def lexString (kind : Kind) (start : Bytes) (cur : Cursor) : Except Failure Lexeme :=
  match skipStringBody cur with
  | .error failure => .error failure
  | .ok cur => .ok (.upTo kind start cur)

/-- What stands at a tick: a literal of some bytes, nothing that is taken, or what is refused
without being taken. -/
inductive CharBody where
  | literal (n : Nat)
  | other
  | refused
  deriving DecidableEq

def skipCharBody (rest : Bytes) : CharBody :=
  let p1 := peek rest 1
  if p1 = backslash then if peek rest 3 = tick then .literal 4 else .refused
  else if p1 = tick then .other
  else if p1 ≠ 0 ∧ peek rest 2 = tick then .literal 3
  else if isIdentStart p1 then .other
  else .refused

def unterminatedChar (line : UInt32) : Failure := .said (ascii "unterminated char literal") line

/-- `skip_char_body` and `push`, where it takes or refuses what stands there. -/
def lexChar (kind : Kind) (start : Bytes) (cur : Cursor) : CharBody → Option (Except Failure Lexeme)
  | .literal n => some (.ok (.upTo kind start ⟨cur.rest.drop n, cur.line⟩))
  | .other => none
  | .refused => some (.error (unterminatedChar cur.line))

def closeOf (n : UInt8) : UInt8 := if n = 40 then 41 else if n = 91 then 93 else 125

def depthAfter (n c : UInt8) (depth : Nat) : Nat :=
  if c = n then depth + 1 else if c = closeOf n then depth - 1 else depth

structure GroupState where
  depth : Nat
  cur : Cursor

/-- One turn of the loop over a group. A literal that is refused leaves everything as it was. -/
def groupTurn (n : UInt8) (unterminated : Bytes) (s : GroupState) :
    Turn GroupState (Except Failure Cursor) :=
  match s.cur.rest with
  | [] =>
      if s.depth = 0 then .done (.ok s.cur) else .done (.error (.said unterminated s.cur.line))
  | c :: rest =>
      if s.depth = 0 then .done (.ok s.cur)
      else if c = quote then
        match skipStringBody s.cur with
        | .error failure => .done (.error failure)
        | .ok cur => .next ⟨s.depth, cur⟩
      else
        match if c = tick then skipCharBody s.cur.rest else .other with
        | .literal k => .next ⟨s.depth, ⟨s.cur.rest.drop k, s.cur.line⟩⟩
        | .refused => .next s
        | .other =>
            if c = slash ∧ peek rest 0 = slash then
              match skipTrivia s.cur.line s.cur.rest with
              | .error failure => .done (.error failure)
              | .ok cur => .next ⟨s.depth, cur⟩
            else .next ⟨depthAfter n c s.depth, ⟨rest, lineAfter c s.cur.line⟩⟩

def groupLoop (n : UInt8) (unterminated : Bytes) (_ : Nat) (s : GroupState) :
    Option (Turn GroupState (Except Failure Cursor)) := some (groupTurn n unterminated s)

def group (n : UInt8) (unterminated : Bytes) (fuel : Nat) (cur : Cursor) :
    Option (Except Failure Cursor) := loop (groupLoop n unterminated) fuel ⟨1, cur⟩

def isWhite (b : UInt8) : Bool := isBlank b || b == newline

/-- From behind `macro_rules!` to behind the brace of its definition, if a name and a brace
stand there. -/
def defBody (rest : Bytes) : Option Bytes :=
  let rest := rest.dropWhile isWhite
  let name := rest.takeWhile isIdentCont
  let rest := (rest.dropWhile isIdentCont).dropWhile isWhite
  if name ≠ [] ∧ rest.head? = some 123 then some (rest.drop 1) else none

/-- A raw string from behind its opening quote, closed by a quote and as many `#`. -/
def rawBody (hashes : Nat) : UInt32 → Bytes → Except Failure Cursor
  | line, [] => .error (.said (ascii "unterminated raw string") line)
  | line, c :: rest =>
      if c = quote ∧ hashes ≤ (rest.takeWhile (· == hash)).length then .ok ⟨rest.drop hashes, line⟩
      else rawBody hashes (lineAfter c line) rest

/-- At the quote or the first `#`. -/
def lexRawString (start : Bytes) (cur : Cursor) (isByte : Bool) : Except Failure Lexeme :=
  let hashes := (cur.rest.takeWhile (· == hash)).length
  let rest := cur.rest.drop hashes
  if peek rest 0 ≠ quote then .error (.said (ascii "malformed raw string") cur.line)
  else
    match rawBody hashes cur.line (rest.drop 1) with
    | .error failure => .error failure
    | .ok cur => .ok (.upTo (if isByte then .byteStrLiteral else .stringLiteral) start cur)

def closedGroup (start : Bytes) : Except Failure Cursor → Except Failure Lexeme
  | .error failure => .error failure
  | .ok cur => .ok (.upTo .macroInvoc start cur)

def isOpening (b : UInt8) : Bool := b == 40 || b == 91 || b == 123

/-- The group that follows a word: its bracket, what is said where it does not end, and what
stands behind the bracket. A definition is looked for first. -/
def groupAt (word rest : Bytes) : Option (UInt8 × Bytes × Bytes) :=
  match if word = ascii "macro_rules" ∧ peek rest 0 = bang then defBody (rest.drop 1) else none with
  | some body => some (123, ascii "unterminated macro_rules!", body)
  | none =>
      if peek rest 0 = bang ∧ isOpening (peek rest 1) then
        some (peek rest 1, ascii "unterminated macro invocation", rest.drop 2)
      else none

def lexWord (fuel : Nat) (start : Bytes) (cur : Cursor) : Option (Except Failure Lexeme) :=
  match groupAt (start.takeWhile isIdentCont) cur.rest with
  | some (n, unterminated, body) =>
      (group n unterminated fuel ⟨body, cur.line⟩).map (closedGroup start)
  | none => some (.ok (.upTo .ident start cur))

def lexIdent (fuel : Nat) (at_ : Cursor) : Option (Except Failure Lexeme) :=
  let start := at_.rest
  let word := start.takeWhile isIdentCont
  let cur : Cursor := ⟨start.dropWhile isIdentCont, at_.line⟩
  let p0 := peek cur.rest 0
  if word = ascii "r" ∧ (p0 = quote ∨ p0 = hash) then
    if p0 = hash ∧ 1 < cur.rest.length ∧ isIdentStart (peek cur.rest 1) then
      let idStart := cur.rest.drop 1
      some (.ok (.upTo .ident idStart ⟨idStart.dropWhile isIdentCont, cur.line⟩))
    else some (lexRawString start cur false)
  else if word = ascii "br" ∧ (p0 = quote ∨ p0 = hash) then some (lexRawString start cur true)
  else if word = ascii "b" ∧ p0 = quote then
    some (lexString .byteStrLiteral start cur)
  else
    match if word = ascii "b" ∧ p0 = tick then
        lexChar .byteStrLiteral start cur (skipCharBody cur.rest) else none with
    | some lexeme => some lexeme
    | none => lexWord fuel start cur

def skipDigits (rest : Bytes) : Bytes := rest.dropWhile fun c => isDigit c || c == underscore

/-- A fraction, if one stands here: `1.5` has one, `1..2` and `1.method()` have none. -/
def fraction (rest : Bytes) : Bool × Bytes :=
  if peek rest 0 = dot ∧ peek rest 1 ≠ dot ∧ isIdentStart (peek rest 1) = false then
    (true, skipDigits (rest.drop 1))
  else (false, rest)

/-- The length of an `e` and its sign. -/
def exponentMark (rest : Bytes) : Nat := if peek rest 1 = 43 ∨ peek rest 1 = 45 then 2 else 1

def exponent (isFloat : Bool) (rest : Bytes) : Bool × Bytes :=
  if (peek rest 0 = 101 ∨ peek rest 0 = 69) ∧ isDigit (peek rest (exponentMark rest)) then
    (true, skipDigits (rest.drop (exponentMark rest)))
  else (isFloat, rest)

def numberBody (start : Bytes) : Bool × Bytes :=
  if peek start 0 = 48 ∧ (peek start 1 = 120 ∨ peek start 1 = 111 ∨ peek start 1 = 98) then
    (false, (start.drop 2).dropWhile isIdentCont)
  else
    let (isFloat, rest) := fraction (skipDigits start)
    exponent isFloat rest

def numSuffixOk (suffix : Bytes) (isFloat : Bool) : Bool :=
  if suffix = [] then true
  else if isFloat then [ascii "f32", ascii "f64"].contains suffix
  else [ascii "u8", ascii "u16", ascii "u32", ascii "u64", ascii "usize", ascii "i8", ascii "i16",
    ascii "i32", ascii "i64", ascii "isize"].contains suffix

def lexNumber (at_ : Cursor) : Except Failure Lexeme :=
  let (isFloat, rest) := numberBody at_.rest
  if numSuffixOk (rest.takeWhile isIdentCont) isFloat then
    .ok (.upTo (if isFloat then .floatLiteral else .intLiteral) at_.rest
      ⟨rest.dropWhile isIdentCont, at_.line⟩)
  else .error (.said (ascii "unsupported number suffix") at_.line)

def punct3 : List (Bytes × Kind) :=
  [(ascii "<<=", .shleq), (ascii ">>=", .shreq), (ascii "..=", .range)]

def punct2 : List (Bytes × Kind) :=
  [(ascii "->", .arrow), (ascii "=>", .fatArrow), (ascii "::", .doubleColon), (ascii "..", .range),
    (ascii "<<", .shl), (ascii ">>", .shr), (ascii "<=", .le), (ascii ">=", .ge),
    (ascii "==", .eq), (ascii "!=", .ne), (ascii "&&", .andand), (ascii "||", .oror),
    (ascii "+=", .pluseq), (ascii "-=", .minuseq), (ascii "*=", .stareq), (ascii "/=", .slasheq),
    (ascii "%=", .percenteq), (ascii "^=", .careteq), (ascii "&=", .ampeq), (ascii "|=", .oreq)]

def punct1 : Bytes := ascii "+-*/%^!&|<>=()[]" ++ [123, 125] ++ ascii ",;:.#?"

def unsupported (c : UInt8) : Bytes := ascii "unsupported character '" ++ [c, tick]

def lexPunct (at_ : Cursor) : Except Failure Lexeme :=
  match (punct3 ++ punct2).find? fun p => p.1.isPrefixOf at_.rest with
  | some (op, kind) => .ok ⟨kind, op, ⟨at_.rest.drop op.length, at_.line⟩⟩
  | none =>
      let c := peek at_.rest 0
      if punct1.contains c then .ok ⟨.punct, [c], ⟨at_.rest.drop 1, at_.line⟩⟩
      else .error (.said (unsupported c) at_.line)

def lexLifetime (at_ : Cursor) : Except Failure Lexeme :=
  let rest := at_.rest.drop 1
  if isIdentStart (peek rest 0) then
    .ok (.upTo .lifetime at_.rest ⟨rest.dropWhile isIdentCont, at_.line⟩)
  else .error (.said (ascii "unsupported character") at_.line)

def lexToken (fuel : Nat) (at_ : Cursor) : Option (Except Failure Lexeme) :=
  let b := peek at_.rest 0
  if isIdentStart b then lexIdent fuel at_
  else if isDigit b then some (lexNumber at_)
  else if b = quote then some (lexString .stringLiteral at_.rest at_)
  else if b = tick then
    match lexChar .charLiteral at_.rest at_ (skipCharBody at_.rest) with
    | some lexeme => some lexeme
    | none => some (lexLifetime at_)
  else some (lexPunct at_)

structure Lexer where
  cur : Cursor
  toks : Toks

def Lexer.new (src : Bytes) : Lexer := ⟨⟨src, 1⟩, .new⟩

def Lexer.turn (grant : Nat → Bool) (fuel : Nat) (lx : Lexer) :
    Option (Turn Lexer (Except Failure Toks)) :=
  match skipTrivia lx.cur.line lx.cur.rest with
  | .error failure => some (.done (.error failure))
  | .ok cur =>
      if cur.rest = [] then
        match lx.toks.push grant ⟨.end_, cur.line, []⟩ with
        | none => some (.done (.error .silent))
        | some toks => some (.done (.ok toks))
      else if maxToks ≤ lx.toks.n then
        some (.done (.error (.said (ascii "token limit exceeded") cur.line)))
      else
        match lexToken fuel cur with
        | none => none
        | some (.error failure) => some (.done (.error failure))
        | some (.ok lexeme) =>
            match push grant lx.toks lexeme with
            | .error failure => some (.done (.error failure))
            | .ok toks => some (.next ⟨lexeme.cur, toks⟩)

def Lexer.run (grant : Nat → Bool) (fuel : Nat) (src : Bytes) : Option (Except Failure Toks) :=
  loop (turn grant) fuel (new src)

end Metal.Jit.Rs.Lex
