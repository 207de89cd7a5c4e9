import Metal.Net.Asgi.Conn
import Metal.Lib.Run

namespace Metal.Net.Asgi

open Metal.Lib

/-! The rows of `net/http/asgi`, the coroutines that step them, and the requests that a
renderer answers.  Between a coroutine's last look at `defer_ready` and `defer_drop` the
renderer may come. -/

/-- A parked request.  `by_` and `req` are the connection and the number of the request. -/
structure Defer where
  used : Bool
  taken : Bool
  conn : Nat
  path : Bytes
  by_ : Nat
  req : Nat

def Defer.empty : Defer := ⟨false, false, 0, [], 0, 0⟩

/-- `givingUp` is the point before `defer_drop`. -/
inductive Pc
  | ready
  | givingUp
  | ended (status : Status)
  deriving DecidableEq

/-- A call of `spawn_conn`, and its coroutine; `last` is the connection when its row was
handed back. -/
structure Life where
  slot : Nat
  pc : Pc
  last : Option Conn
  deriving DecidableEq

structure Request where
  conn : Nat
  path : Bytes

/-- A call of `defer_reply` that returned 0: the request that the last `defer_next` handed
out, the connection on the row that got the body, and whether that one was waiting. -/
structure Reply where
  last : Option Nat
  to_ : Nat
  waiting : Bool
  body : Bytes
  deriving DecidableEq

/-- From `lives` on a record.  `torn` is a write outside of a block: what happens then is
not followed. -/
structure State where
  arena : Bool
  routes : List Route
  conns : List (Option Conn)
  connsUsed : Nat
  connSoft : UInt32
  defers : List Defer
  defersUsed : Nat
  deferCur : Option Nat
  deferSoft : UInt32
  lives : List Life
  asked : List Request
  handed : List Nat
  replies : List Reply
  torn : Bool

/-- After `init` and the registration of the routes. -/
def State.boot (routes : List Route) : State where
  arena := true
  routes := routes
  conns := []
  connsUsed := 0
  connSoft := 16
  defers := []
  defersUsed := 0
  deferCur := none
  deferSoft := 16
  lives := []
  asked := []
  handed := []
  replies := []
  torn := false

def knobRoom (soft : UInt32) (have_ : Nat) : Bool := soft == 0 || have_ < soft.toNat

def connAt (slot : Nat) (s : State) : Option Conn := s.conns[slot]?.join

def defersRoom (grown : Option Nat) (s : State) : Bool × State :=
  if s.defersUsed < s.defers.length then (true, s)
  else if !s.arena || !knobRoom s.deferSoft s.defers.length then (false, s)
  else
    match grown with
    | none => (false, s)
    | some more =>
        (true, { s with defers := s.defers ++ List.replicate (more + 1) Defer.empty })

def deferSlot (grown : Option Nat) (s : State) : Option Nat × State :=
  match s.defers.findIdx? fun d => !d.used with
  | some i => (some i, s)
  | none =>
      match defersRoom grown s with
      | (false, s') => (none, s')
      | (true, s') => if s'.defers.length ≤ s.defers.length then (none, s')
          else (some s.defers.length, s')

/-- `id` is the connection that asks. -/
def deferEnqueue (slot : Nat) (path : Bytes) (grown : Option Nat) (id : Nat) (s : State) :
    Bool × State :=
  if !knobRoom s.deferSoft s.defersUsed then (false, s)
  else
    match deferSlot grown s with
    | (none, s) => (false, s)
    | (some i, s) =>
        (true, { s with
          defers := s.defers.set i
            ⟨true, false, slot, path.take (pathMax - 1), id, s.asked.length⟩
          defersUsed := s.defersUsed + 1
          asked := s.asked ++ [⟨id, path.take (pathMax - 1)⟩] })

/-- The body of the loop, at entry `i`. -/
def dropAt (slot : Nat) (s : State) (i : Nat) : State :=
  match s.defers[i]? with
  | none => s
  | some d =>
      if d.used && d.conn == slot then
        { s with
          defers := s.defers.set i { d with used := false, taken := false }
          defersUsed := s.defersUsed - 1
          deferCur := if s.deferCur = some i then none else s.deferCur }
      else s

def deferDrop (slot : Nat) (s : State) : State :=
  (List.range s.defers.length).foldl (dropAt slot) s

def deferNext (s : State) : State × Option Bytes :=
  match s.defers.findIdx? fun d => d.used && !d.taken with
  | none => (s, none)
  | some i =>
      match s.defers[i]? with
      | none => (s, none)
      | some d =>
          ({ s with
              defers := s.defers.set i { d with taken := true }
              deferCur := some i
              handed := s.handed ++ [d.req] }, some d.path)

inductive Given
  | bytes (block : Bytes)
  | null (len : Nat)

def Given.fits : Given → Bool
  | .bytes block => block.length ≤ bodyMax
  | .null len => len == 0

def Given.body : Given → Bytes
  | .bytes block => block
  | .null _ => []

def Conn.answered (body : Bytes) (ctype : Option CString) (c : Conn) : Conn :=
  let c := { c with bodyLen := body.length, ctype := ctype <|> c.ctype, deferReady := true }
  if body.isEmpty then c
  else { c with bodyBuf := true, takes := c.takes + 1, body := body }

/-- The coroutine of the connection looks at `defer_ready` again. -/
def State.waits (s : State) (c : Conn) : Bool :=
  c.step == 3 && !c.deferReady && (s.lives[c.id]?.map Life.pc == some .ready)

/-- `defer_reply_ct`; `room` is the buffer for the body. -/
def deferReply (given : Given) (ctype : Option CString) (room : Bool) (s : State) :
    State × Int :=
  match s.deferCur with
  | none => (s, -1)
  | some cur =>
      match s.defers[cur]? with
      | none => (s, -1)
      | some d =>
          match connAt d.conn s with
          | none => (s, -1)
          | some c =>
              if !d.used || !given.fits then (s, -1)
              else if !given.body.isEmpty && (!s.arena || !room) then (s, -1)
              else
                ({ s with
                    conns := s.conns.set d.conn (some (c.answered given.body ctype))
                    defers := s.defers.set cur { d with used := false, taken := false }
                    defersUsed := s.defersUsed - 1
                    deferCur := none
                    replies := s.replies ++
                      [⟨s.handed.getLast?, c.id, s.waits c, given.body⟩] }, 0)

/-- `release_conn` and `conn_drop`. -/
def State.close (slot : Nat) (c : Conn) (s : State) : State :=
  { s with
    conns := s.conns.set slot none
    connsUsed := s.connsUsed - 1
    lives := s.lives.modify c.id fun life => { life with last := some c.release } }

def State.goto (number : Nat) (pc : Pc) (s : State) : State :=
  { s with lives := s.lives.modify number fun life => { life with pc := pc } }

def State.put (slot : Nat) (c : Conn) (s : State) : State :=
  { s with conns := s.conns.set slot (some c) }

def Status.pc : Status → Pc
  | .waiting => .ready
  | status => .ended status

def settle (number slot : Nat) (s : State) : Outcome → State
  | .stays status c => (s.put slot c).goto number status.pc
  | .closes status c => (s.close slot c).goto number status.pc
  | .torn => { s with torn := true }

def Answers.sleep (answers : Answers) : Status := if answers.slept then .waiting else .error

def stepReceive (number slot : Nat) (answers : Answers) (c : Conn) (s : State) : State :=
  match receive s.arena s.routes answers c with
  | .over_ outcome => settle number slot s outcome
  | .answer c path => settle number slot s (respond answers path c)
  | .park c path =>
      match deferEnqueue slot path answers.grown c.id s with
      | (false, s) => settle number slot s (respond answers path c.refuse)
      | (true, s) => settle number slot s (.stays answers.sleep { c with step := 3 })

/-- Step 3, up to `defer_drop`. -/
def stepWait (number slot : Nat) (answers : Answers) (c : Conn) (s : State) : State :=
  if c.deferReady then settle number slot s (respond answers [] c)
  else
    let c := { c with deferWaits := c.deferWaits + 1 }
    if c.deferWaits ≤ deferMaxWaits then settle number slot s (.stays answers.sleep c)
    else (s.put slot c).goto number .givingUp

/-- From `defer_drop` on. -/
def giveUp (number slot : Nat) (answers : Answers) (c : Conn) (s : State) : State :=
  settle number slot (deferDrop slot s) (respond answers [] c.refuse)

def stepConnFrame (number : Nat) (answers : Answers) (s : State) : State :=
  match s.lives[number]? with
  | none => s
  | some life =>
      match life.pc with
      | .ended _ => s
      | .ready =>
          match connAt life.slot s with
          | none => s.goto number (.ended .error)
          | some c =>
              if c.step = 0 then stepReceive number life.slot answers c s
              else if c.step = 3 then stepWait number life.slot answers c s
              else settle number life.slot s (sendHdr answers c)
      | .givingUp =>
          match connAt life.slot s with
          | none => s.goto number (.ended .error)
          | some c => giveUp number life.slot answers c s

/-- What the calls inside `spawn_conn` answer. -/
structure Spawn where
  grown : Option Nat
  room : Bool
  coro : Bool
  task : Bool

/-- The slot of `conn_slot` before the connection is there. -/
def freeRow (grown : Option Nat) (s : State) : Option Nat × State :=
  match s.conns.findIdx? Option.isNone with
  | some slot => (some slot, s)
  | none =>
      match grown with
      | none => (none, s)
      | some more =>
          (some s.conns.length,
            { s with conns := s.conns ++ List.replicate (more + 1) none })

def connSlot (answers : Spawn) (s : State) : Option Nat × State :=
  if !s.arena || !knobRoom s.connSoft s.connsUsed then (none, s)
  else
    match freeRow answers.grown s with
    | (none, s) => (none, s)
    | (some slot, s) =>
        if !answers.room then (none, s)
        else (some slot, { s with connsUsed := s.connsUsed + 1 })

def State.reject (c : Conn) (s : State) : State :=
  { s with lives := s.lives ++ [⟨0, .ended .error, some { c with closes := c.closes + 1 }⟩] }

def spawnConn (fd : Nat) (answers : Spawn) (s : State) : State :=
  let c := Conn.fresh s.lives.length fd
  match connSlot answers s with
  | (none, s) => s.reject c
  | (some slot, s) =>
      if !answers.coro || !answers.task then
        -- `conn_drop` takes the block back
        State.reject c { s with conns := s.conns.set slot none, connsUsed := s.connsUsed - 1 }
      else
        { s with
          conns := s.conns.set slot (some c)
          lives := s.lives ++ [⟨slot, .ready, none⟩] }

def closeRow (s : State) (slot : Nat) : State :=
  match connAt slot s with
  | none => s
  | some c => s.close slot c

def deinit (s : State) : State :=
  { (List.range s.conns.length).foldl closeRow s with
    arena := false
    routes := []
    conns := []
    connsUsed := 0
    defers := []
    defersUsed := 0
    deferCur := none }

inductive Event
  | spawn (fd : Nat) (answers : Spawn)
  | run (number : Nat) (answers : Answers)
  | next
  | reply (given : Given) (ctype : Option CString) (room : Bool)
  | deinit
  | knobs (conn defer_ : UInt32)

/-- `deinit` is called while no coroutine is inside a step. -/
def State.quiet (s : State) : Bool := s.lives.all fun life => life.pc != .givingUp

def step (s : State) (event : Event) : State :=
  if s.torn then s
  else
    match event with
    | .spawn fd answers => spawnConn fd answers s
    | .run number answers => stepConnFrame number answers s
    | .next => (deferNext s).1
    | .reply given ctype room => (deferReply given ctype room s).1
    | .deinit => if s.quiet then deinit s else s
    | .knobs conn defer_ => { s with connSoft := conn, deferSoft := defer_ }

end Metal.Net.Asgi
