import Metal.Lib.CString
import Metal.Lib.Slots

namespace Metal.Screens

open Metal.Lib

/-! The consoles of a seat: what is printed goes to the viewports and, line by
line, into a ring. -/

def cols : Nat := 384

def linesDefault : Nat := 64

def linesMax : Nat := 65536

/-- A sink is a function of its owner; `sink` names it. -/
structure Viewport where
  kind : Bytes
  sink : Nat
  deriving DecidableEq

structure Console where
  live : Bool
  head : Nat
  count : Nat
  seq : UInt32
  col : Nat
  ring : Option (List Bytes)
  ringLines : Nat
  line : Bytes
  vp : List Viewport
  vpCap : Nat

/-- A row of a grown table, and what `console_release` leaves. -/
def Console.zero : Console := ⟨false, 0, 0, 0, 0, none, 0, [], [], 0⟩

/-- The soft values of the knobs `screen`, `scrollback` and `viewport` are held as
what the code reads of them; `room` says whether one more viewport is allowed
beside so many. -/
structure Seat where
  ready : Bool
  focus : Nat
  arena : Bool
  consoles : List Console
  screens : Nat
  depth : Nat
  room : Nat → Bool

/-- What the allocator answers in one call: zeroed rows for the table, the block
of a line and the block of a ring with what they held, and places for viewports. -/
structure Supply where
  rows : Option Nat
  line : Option (Nat → UInt8)
  ring : Option (Nat → Bytes)
  places : Option Nat

def ringLine (c : Console) (slot : Nat) : Bytes := (c.ring.getD []).getD slot []

def ringFit (depth : Nat) (block : Option (Nat → Bytes)) (c : Console) : Console × Bool :=
  let target := if depth = 0 then linesDefault else depth
  if target = c.ringLines then (c, c.ring.isSome)
  else
    match block with
    | none => (c, c.ring.isSome)
    | some held =>
        let keep := if c.count < target then c.count else target
        let ring := (List.range target).map fun i =>
          if i < keep then ringLine c ((c.head + c.ringLines - (keep - i)) % c.ringLines)
          else held i
        ({ c with ring := some ring, ringLines := target, count := keep, head := keep % target },
          true)

/-- The consoles from number `i` on follow the knob, up to one that has no ring. -/
def scrollbackApply (depth : Nat) (blocks : Nat → Option (Nat → Bytes)) :
    Nat → List Console → List Console × Bool
  | _, [] => ([], true)
  | i, c :: rest =>
      if c.live then
        let (c, fitted) := ringFit depth (blocks i) c
        if fitted then
          let (rest, all) := scrollbackApply depth blocks (i + 1) rest
          (c :: rest, all)
        else
          (c :: rest, false)
      else
        let (rest, all) := scrollbackApply depth blocks (i + 1) rest
        (c :: rest, all)

def consoleGet (s : Seat) (id : Nat) : Option Console :=
  if id < s.screens then s.consoles[id]?.filter (·.live) else none

/-- The seat afterwards and whether there is a console at `id`. -/
def consoleMake (m : Supply) (id : Nat) (s : Seat) : Seat × Bool :=
  if (consoleGet s id).isSome then (s, true)
  else if id ≥ s.screens ∨ !s.arena then (s, false)
  else
    let grown :=
      if id < s.consoles.length then some s
      else
        match m.rows with
        | none => none
        | some more =>
            if id < s.consoles.length + more then
              some { s with consoles := s.consoles ++ List.replicate more Console.zero }
            else none
    match grown with
    | none => (s, false)
    | some s =>
        match m.line with
        | none => (s, false)
        | some held =>
            let line := (List.range cols).map held
            ({ s with consoles := s.consoles.modify id fun c =>
                (ringFit s.depth m.ring { c with line := line.set 0 0, live := true }).1 }, true)

def commitLine (c : Console) : Console :=
  let line := c.line.set (if c.col < cols then c.col else cols - 1) 0
  match c.ring with
  | none => { c with line := line.set 0 0, seq := c.seq + 1, col := 0 }
  | some ring =>
      { c with
        line := line.set 0 0
        ring := some (ring.set c.head line)
        head := (c.head + 1) % c.ringLines
        seq := c.seq + 1
        count := if c.count < c.ringLines then c.count + 1 else c.count
        col := 0 }

/-- One turn of the loop of `write_id`. -/
def putByte (c : Console) (ch : UInt8) : Console :=
  if ch = 13 then c
  else if ch = 10 then commitLine c
  else if c.col + 1 < cols then { c with line := c.line.set c.col ch, col := c.col + 1 }
  else c

/-- What reaches a sink; `fill` is the seat's own output. -/
inductive Out
  | fill (bytes : Bytes)
  | sink (to_ : Nat) (bytes : Bytes)

def fanout (c : Console) (bytes : Bytes) : List Out := c.vp.map fun v => .sink v.sink bytes

structure Written where
  result : Int
  seat : Seat
  out : List Out

def writeId (m : Supply) (id : Nat) (bytes : Bytes) (s : Seat) : Written :=
  if id ≥ s.screens then ⟨-1, s, []⟩
  else if bytes = [] then ⟨0, s, []⟩
  else
    let (s, made) := consoleMake m id s
    if !s.ready ∨ !made then ⟨0, s, [.fill bytes]⟩
    else
      ⟨0, { s with consoles := s.consoles.modify id fun c => bytes.foldl putByte c },
        ((consoleGet s id).map (fanout · bytes)).getD []⟩

def text (line : Bytes) : Bytes := line.takeWhile (· ≠ 0)

def replayOne (c : Console) : List Bytes :=
  let start := if c.ring.isSome ∧ c.count = c.ringLines then c.head else 0
  (if c.ring.isSome then
      (List.range c.count).flatMap fun i =>
        [text (ringLine c ((start + i) % c.ringLines)), [10]]
    else []) ++
    if c.col > 0 then [c.line.take c.col] else []

/-- The line `seq` as `dst` gets it, cut to `cap`; `none` is the error. -/
def lineAt (s : Seat) (id : Nat) (seq : UInt32) (cap : Nat) : Option Bytes :=
  if cap = 0 then none
  else
    match consoleGet s id with
    | none => none
    | some c =>
        if c.ring = none then none
        else if seq ≥ c.seq ∨ (c.seq - seq).toNat > c.count then none
        else
          let back := (c.seq - seq).toNat
          some ((text (ringLine c ((c.head + c.ringLines - back) % c.ringLines))).take (cap - 1))

def lineCount (s : Seat) (id : Nat) : Nat := ((consoleGet s id).map Console.count).getD 0

structure Attached where
  result : Int
  seat : Seat
  out : List Out

/-- An empty `kind` stands for NULL as well, no `sink` for NULL. -/
def attachId (m : Supply) (id : Nat) (kind : Bytes) (sink : Option Nat) (s : Seat) : Attached :=
  match sink with
  | none => ⟨-1, s, []⟩
  | some sink =>
      if id ≥ s.screens ∨ kind = [] then ⟨-1, s, []⟩
      else
        let (s, made) := consoleMake m id s
        match if made then s.consoles[id]? else none with
        | none => ⟨-1, s, []⟩
        | some c =>
            if !s.room c.vp.length then ⟨-1, s, []⟩
            else
              let cap := if c.vp.length < c.vpCap then some c.vpCap else m.places.map (c.vpCap + ·)
              match cap with
              | none => ⟨-1, s, []⟩
              | some cap =>
                  if cap ≤ c.vp.length then ⟨-1, s, []⟩
                  else
                    ⟨0, { s with consoles := s.consoles.modify id fun c =>
                        { c with vp := c.vp ++ [⟨kind, sink⟩], vpCap := cap } },
                      (replayOne c).map (.sink sink)⟩

def vpRemoveKind (kind : Bytes) (c : Console) : Console :=
  { c with vp := c.vp.filter (·.kind ≠ kind) }

def firstOf (kind : Bytes) (c : Console) : Option Viewport :=
  if c.live then c.vp.find? (·.kind = kind) else none

def rebindKind (m : Supply) (kind : Bytes) (to_ : Nat) (s : Seat) : Attached :=
  if to_ ≥ s.screens then ⟨-1, s, []⟩
  else
    match s.consoles.findIdx? fun c => (firstOf kind c).isSome with
    | none => ⟨-1, s, []⟩
    | some i =>
        let sink := ((s.consoles[i]?.bind (firstOf kind)).map Viewport.sink)
        attachId m to_ kind sink { s with consoles := s.consoles.modify i (vpRemoveKind kind) }

def fb : Bytes := [0x66, 0x62]

def select (m : Supply) (id : Int) (s : Seat) : Attached :=
  if id < 0 ∨ id.toNat ≥ s.screens then ⟨-1, s, []⟩
  else if s.focus = id.toNat then ⟨0, s, []⟩
  else
    let moved := rebindKind m fb id.toNat { s with focus := id.toNat }
    ⟨0, moved.seat, moved.out⟩

/-- `fillKind` names the kind of the seat's own output, its sink 0. -/
def init (m : Supply) (fillKind : Bytes) (s : Seat) : Attached :=
  let first := attachId m 0 fillKind (some 0)
    { s with arena := true, focus := 0, ready := false }
  if first.result ≠ 0 then { first with result := -1 }
  else { first with seat := { first.seat with ready := true } }

def deinit (s : Seat) : Seat :=
  { s with ready := false, focus := 0, consoles := [], arena := false }

end Metal.Screens
