import Metal.Lib.Run

namespace Metal.Net.Asgi.Listen

open Metal.Lib

/-! The servers of `net/http/asgi`.  One caller is in `listen` or `stop` at a time; the
coroutines that accept run on any runner, one call of `accept` at a time. -/

/-- A socket of `net.ip`: the one that the listen call of coroutine `coro` opened, or
one that is not for listening here. -/
inductive Sock
  | listener (coro : Nat)
  | other
  deriving DecidableEq

/-- An entry of the three tables side by side; no `fd` is -1.  `opener` is the coroutine
of the listen call that filled it last. -/
structure Row where
  fd : Option Nat
  addr : UInt32
  port : UInt16
  opener : Nat

def Row.same (row : Row) (addr : UInt32) (port : UInt16) : Bool :=
  row.fd.isSome && row.addr == addr && row.port == port

/-- What `limits_grow` gives: descriptors of -1. -/
def Row.fresh : Row := ⟨none, 0, 0, 0⟩

inductive Pc
  | parked
  | accepting (fd : Nat)
  | ended
  deriving DecidableEq

def Pc.inLoop : Pc → Bool
  | .accepting _ => true
  | _ => false

/-- `slot` is that of the frame, which `coro_create` has filled with zeros; `home` is the
slot that its listen call chose. -/
structure Coro where
  slot : Nat
  home : Nat
  pc : Pc

inductive Caller
  | idle
  | storing (slot coro : Nat)
  | clearing (slot : Nat)
  deriving DecidableEq

/-- A call of `accept`, and what its descriptor was then. -/
structure Accept where
  coro : Nat
  socket : Option Sock

structure State where
  arena : Bool
  rows : List Row
  used : Nat
  /-- `SERVER_KNOB.soft` -/
  soft : UInt32
  socks : Nat → Option Sock
  coros : List Coro
  caller : Caller
  accepts : List Accept

def State.boot (arena : Bool) : State where
  arena := arena
  rows := []
  used := 0
  soft := 8
  socks _ := none
  coros := []
  caller := .idle
  accepts := []

/-- What the calls inside `listen` answer.  `grown` is how many slots there are beyond
one more, `sides` says that the other two tables grow too. -/
structure Answers where
  grown : Option Nat
  sides : Bool
  socket : Option Nat
  bound : Bool
  listening : Bool
  coro : Bool
  task : Bool

def knobRoom (soft : UInt32) (have_ : Nat) : Bool := soft == 0 || have_ < soft.toNat

def listenRoom (answers : Answers) (s : State) : Bool × State :=
  if s.used < s.rows.length then (true, s)
  else if !s.arena || !knobRoom s.soft s.rows.length then (false, s)
  else
    match answers.grown with
    | none => (false, s)
    | some more =>
        if answers.sides then
          (true, { s with rows := s.rows ++ List.replicate (more + 1) Row.fresh })
        else (false, s)

def freeSlot (answers : Answers) (s : State) : Option Nat × State :=
  match s.rows.findIdx? fun row => row.fd.isNone with
  | some slot => (some slot, s)
  | none =>
      match listenRoom answers s with
      | (false, s') => (none, s')
      | (true, s') => if s'.rows.length ≤ s.rows.length then (none, s')
          else (some s.rows.length, s')

/-- The descriptor that `socket` gives is one that nobody has. -/
def State.socket (s : State) (answer : Option Nat) : Option Nat :=
  answer.filter fun fd => (s.socks fd).isNone

def serve (addr : UInt32) (port : UInt16) (answers : Answers) (slot fd : Nat) (s : State) :
    State × Option Int :=
  let number := s.coros.length
  if answers.coro && answers.task then
    ({ s with
        rows := s.rows.set slot ⟨some fd, addr, port, number⟩
        used := s.used + 1
        socks := Function.update s.socks fd (some (.listener number))
        coros := s.coros ++ [⟨0, slot, .parked⟩]
        caller := .storing slot number }, none)
  else
    ({ s with rows := s.rows.modify slot fun row => ⟨none, addr, port, row.opener⟩ }, some (-1))

/-- The state and the result; no result is a call that still has to store the slot into
the frame of the coroutine that it has made a task of. -/
def listen (addr : UInt32) (port : UInt16) (answers : Answers) (s : State) :
    State × Option Int :=
  if !s.arena then (s, some (-1))
  else
    match s.rows.findIdx? fun row => row.same addr port with
    | some slot => (s, some slot)
    | none =>
        if !knobRoom s.soft s.used then (s, some (-1))
        else
          match freeSlot answers s with
          | (none, s) => (s, some (-1))
          | (some slot, s) =>
              match s.socket answers.socket with
              | none => (s, some (-1))
              | some fd =>
                  if answers.bound && answers.listening then
                    serve addr port answers slot fd s
                  -- the socket is closed again
                  else (s, some (-1))

/-- `(*(coro as *mut ListenFrame)).slot = slot`. -/
def store (s : State) : State :=
  match s.caller with
  | .storing slot coro =>
      { s with
        coros := s.coros.modify coro fun old => { old with slot := slot }
        caller := .idle }
  | _ => s

/-- Up to the close of the socket; no result is a call that still has to clear the slot. -/
def stop (id : Int) (s : State) : State × Option Int :=
  if id < 0 then (s, some (-1))
  else
    match s.rows[id.toNat]? with
    | none => (s, some (-1))
    | some row =>
        match row.fd with
        | none => (s, some 0)
        | some fd =>
            ({ s with
                socks := Function.update s.socks fd none
                caller := .clearing id.toNat }, none)

def Row.clear (row : Row) : Row := ⟨none, 0, 0, row.opener⟩

/-- The rest of `stop`. -/
def clear (s : State) : State :=
  match s.caller with
  | .clearing slot =>
      { s with rows := s.rows.modify slot Row.clear, used := s.used - 1, caller := .idle }
  | _ => s

def begin_ (s : State) (coro : Coro) : Pc :=
  match s.rows[coro.slot]? with
  | none => .ended
  | some row =>
      match row.fd with
      | none => .ended
      | some fd => .accepting fd

/-- What `accept` answers; with a connection, what `spawn_conn` and `sleep_us` do. -/
inductive Answer
  | wait
  | failed
  | taken (spawned slept : Bool)

def Answer.next (fd : Nat) : Answer → Pc
  | .wait => .parked
  | .failed => .ended
  | .taken true _ => .accepting fd
  | .taken false true => .parked
  | .taken false false => .ended

def stepListen (s : State) (number : Nat) (answer : Answer) : State :=
  match s.coros[number]? with
  | none => s
  | some coro =>
      match coro.pc with
      | .parked => { s with coros := s.coros.set number { coro with pc := begin_ s coro } }
      | .accepting fd =>
          { s with
            coros := s.coros.set number { coro with pc := answer.next fd }
            accepts := s.accepts ++ [⟨number, s.socks fd⟩] }
      | .ended => s

/-- `open_` and `close` are other sockets of `net.ip`. -/
inductive Event
  | listen (addr : UInt32) (port : UInt16) (answers : Answers)
  | store
  | stop (id : Int)
  | clear
  | run (coro : Nat) (answer : Answer)
  | open_ (fd : Nat)
  | close (fd : Nat)
  | knob (soft : UInt32)

def step (s : State) : Event → State
  | .listen addr port answers =>
      if s.caller = .idle then (listen addr port answers s).1 else s
  | .store => store s
  | .stop id => if s.caller = .idle then (stop id s).1 else s
  | .clear => clear s
  | .run coro answer => stepListen s coro answer
  | .open_ fd =>
      if s.socks fd = none then { s with socks := Function.update s.socks fd (some .other) }
      else s
  | .close fd =>
      if s.socks fd = some .other then { s with socks := Function.update s.socks fd none }
      else s
  | .knob soft => { s with soft := soft }

def State.serves (s : State) (row : Row) : Bool :=
  match row.fd with
  | none => false
  | some fd => (s.socks fd).isSome

/-- Every accept is on the coroutine's own socket; outside of `stop` the count is right;
and a served address and port is told without any change. -/
structure Exact (s : State) : Prop where
  own : ∀ call ∈ s.accepts, call.socket = some (.listener call.coro)
  used : (∀ slot, s.caller ≠ .clearing slot) → s.used = s.rows.countP s.serves
  again : s.caller = .idle → s.arena → ∀ (slot : Nat) (row : Row),
    s.rows[slot]? = some row → s.serves row →
      ∀ answers, listen row.addr row.port answers s = (s, some (slot : Int))

/-- A coroutine starts only when its frame names the slot that its listen call chose,
which no later listen call has filled and no `stop` is clearing; and a server is stopped
only while its coroutine is not in the loop. -/
def Keeps (s : State) : Event → Prop
  | .run number _ => ∀ coro ∈ s.coros[number]?, coro.pc = .parked →
      coro.slot = coro.home ∧ s.caller ≠ .clearing coro.home ∧
        ∀ row ∈ s.rows[coro.home]?, row.fd.isSome → row.opener ≤ number
  | .stop id => s.caller = .idle → 0 ≤ id → ∀ row ∈ s.rows[id.toNat]?, row.fd.isSome →
      ∀ coro ∈ s.coros[row.opener]?, coro.pc.inLoop = false
  | _ => True

instance (s : State) : ∀ event, Decidable (Keeps s event)
  | .run _ _ | .stop _ => by
      unfold Keeps
      infer_instance
  | .listen _ _ _ | .store | .clear | .open_ _ | .close _ | .knob _ => isTrue trivial

end Metal.Net.Asgi.Listen
