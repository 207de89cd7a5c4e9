import Metal.Net.Ip.Tcp
import Metal.Lib.Run

namespace Metal.Net.Ip

open Metal.Lib

/-! The calls of the card, each under the lock from its start to its end, and
the runs made of them. -/

namespace Stack

def get (st : Stack) (fd : Fd) (kind : Kind) : Option Sock :=
  (st.sk fd).filter fun s => s.kind = kind

def consumePark (r : Ref) (st : Stack) : Stack :=
  st.upd r fun s =>
    if st.env.task.isSome ∧ s.waiter = st.env.task then { s with waiter := none }
    else s

def park (r : Ref) (st : Stack) : Stack :=
  if st.env.task.isSome then
    st.upd r fun s => { s with waiter := st.env.task }
  else st

def hold (st : Stack) : Option Ref → Stack × Int
  | none => (st, -1)
  | some r => (st.upd r fun s => { s with held := true }, r.fd)

def socketLocked (kind : Kind) (st : Stack) : Stack × Int :=
  let (st, r) := st.sockAlloc kind
  st.hold r

def outAlloc (kind : Kind) (st : Stack) : Stack × Option Ref :=
  match (List.range st.skCap).reverse.find? fun fd => (st.sk fd).isNone with
  | some fd => st.sockNew fd kind
  | none =>
      match st.tableGrow with
      | none => (st, none)
      | some grown => grown.sockNew (grown.skCap - 1) kind

def outSocketLocked (kind : Kind) (st : Stack) : Stack × Int :=
  match st.outAlloc kind with
  | (st, none) => (st, -1)
  | (st, some r) => (st.upd r fun s => { s with sndWnd := 0 }).hold (some r)

def bindLocked (fd : Fd) (addr : Addr) (port : Port) (st : Stack) : Stack × Int :=
  match st.sk fd with
  | none => (st, -1)
  | some s =>
      let h := st.env.l2For addr
      (st.setRow fd (some
        { s with
          laddr := addr, lport := port, bound := true
          l2 := if h ≥ 0 then h else s.l2 }), 0)

def bindL2Locked (fd : Fd) (h : Int) (st : Stack) : Stack × Int :=
  match st.sk fd with
  | none => (st, -1)
  | some s =>
      if st.env.l2Has h then (st.setRow fd (some { s with l2 := h }), 0)
      else (st, -1)

def backlog (st : Stack) (backlog : Int) : Nat :=
  let soft := st.env.backlogSoft
  let want :=
    if backlog > 0 then backlog.toNat
    else if soft ≠ 0 then soft else st.env.backlogDflt
  let want := if soft ≠ 0 ∧ want > soft then soft else want
  if want = 0 then 1 else want

def forsake (fds : List Fd) (st : Stack) : Stack :=
  { st with
    sk := fun fd => (st.sk fd).map fun s =>
      if fd ∈ fds then { s with stage := .orphan } else s }

def listenLocked (fd : Fd) (depth : Int) (st : Stack) : Stack × Int :=
  match st.get fd .tcp with
  | none => (st, -1)
  | some s =>
      if ¬ s.bound ∨ ¬ st.env.queueRoom then (st, -1)
      else
        let st := st.forsake s.acceptQ
        (st.upd ⟨fd, s.id⟩ fun s =>
          { s with
            acceptQ := [], acceptCap := st.backlog depth, tcpSt := .listen }, 0)

def acceptLocked (fd : Fd) (st : Stack) : Stack × Int :=
  match st.get fd .tcp with
  | none => (st, -1)
  | some s =>
      if s.tcpSt ≠ .listen then (st, -1)
      else
        let r : Ref := ⟨fd, s.id⟩
        let st := st.consumePark r
        match s.acceptQ with
        | [] => (st.park r, if st.env.task.isSome then -2 else -1)
        | child :: rest =>
            let st := st.upd r fun s => { s with acceptQ := rest }
            let id := ((st.sk child).map Sock.id).getD st.nextId
            let st := st.upd ⟨child, id⟩ fun c =>
              { c with stage := .taken, held := true }
            ({ st with
                taken := st.taken ++ [(s.id, id)]
                handed := st.handed ++ [(child, id)] }, child)

def ephPort (st : Stack) : Stack × Port :=
  let next := st.eph + 1
  ({ st with eph := if next < 49152 then 49152 else next }, st.eph)

def dialPort (st : Stack) (s : Sock) : Stack × Port :=
  if s.bound then (st, s.lport) else st.ephPort

def dialFrom (st : Stack) (s : Sock) (addr : Addr) : Addr :=
  if ¬ s.bound ∨ s.laddr = 0 ∨ s.laddr = 0xffffffff then st.srcFor s addr
  else s.laddr

end Stack

/-- The row that `connect` makes of a row, before its SYN goes out. -/
def Sock.dial (src : Addr) (lport : Port) (addr : Addr) (port : Port)
    (s : Sock) : Sock :=
  { s with
    laddr := src, lport := lport, bound := true, raddr := addr, rport := port
    iss := 2000, sndNxt := 2000, sndUna := 2000, tcpSt := .synSent
    stream := [], read := [], slip := s.rexmitLen ≠ 0 }

section Deliver

variable (deliver : Segment → Stack → Stack)

def connectLocked (fd : Fd) (addr : Addr) (port : Port) (st : Stack) : Stack × Int :=
  match st.get fd .tcp with
  | none => (st, -1)
  | some s =>
      let r : Ref := ⟨fd, s.id⟩
      let st := st.consumePark r
      let src := st.dialFrom s addr
      let (st, lport) := st.dialPort s
      let st := st.upd r (Sock.dial src lport addr port)
      let st := (tcpXmit deliver .synOnly [] r st).1
      match st.row r with
      | none => ({ st with fault := true }, -1)
      | some s =>
          if s.tcpSt = .estab then (st, 1) else (st.park r, 0)

def sendLocked (fd : Fd) (buf : Bytes) (st : Stack) : Stack × Int :=
  match st.get fd .tcp with
  | none => (st, -1)
  | some s =>
      let r : Ref := ⟨fd, s.id⟩
      let st := st.consumePark r
      let inFlight := (s.sndNxt - s.sndUna).toNat
      if s.tcpSt ≠ .estab ∨ s.tcpError then (st, -1)
      else if inFlight ≥ s.sndWnd then
        if s.peerFin then (st, -1)
        else
          ((st.park r).upd r fun s =>
            { s with wndStallAt := st.env.now + wndStallUs }, 0)
      else if s.rexmitCap - s.rexmitLen = 0 then (st.park r, 0)
      else if st.payloadMax s = 0 then (st, -1)
      else
        let len := min (min (min buf.length (s.sndWnd - inFlight))
          (s.rexmitCap - s.rexmitLen)) (st.payloadMax s)
        if len = 0 then (st, 0)
        else
          match tcpXmit deliver .pshAck (buf.take len) r st with
          | (st, .wait) => (st, 0)
          | (st, .error) => (st, -1)
          | (st, .ok) =>
              (if buf.length > len then st.park r else st, len)

def Sock.consume (len : Nat) (s : Sock) : Sock :=
  { s with rx := s.rx.drop len, read := s.read ++ s.rx.take len }

/-- `pm_ip_recv_locked`, with the bytes it copies out. -/
def recvLocked (fd : Fd) (len : Nat) (st : Stack) : Stack × Int × Bytes :=
  match st.get fd .tcp with
  | none => (st, -1, [])
  | some s =>
      let r : Ref := ⟨fd, s.id⟩
      let st := st.consumePark r
      if s.tcpError then (st, -1, [])
      else if s.rx = [] then
        if s.peerFin then (st, -2, []) else (st.park r, 0, [])
      else
        let got := s.rx.take len
        let st := st.upd r (Sock.consume len)
        let st := if got ≠ [] then (tcpXmit deliver .ackOnly [] r st).1 else st
        (st, got.length, got)

def Stack.dropChildren (fd : Fd) (st : Stack) : Stack :=
  { st with
    sk := fun i => (st.sk i).filter fun c =>
      ¬ (i < st.skCap ∧ i ≠ fd ∧ c.kind = .tcp ∧ c.listenFd = some fd) }

def Stack.letGo (fd : Fd) (s : Sock) (st : Stack) : Stack :=
  ({ st with handed := st.handed.filter fun h => h.1 ≠ fd }).setRow fd
    (some { s with held := false, stage := .left })

def closeLocked (fd : Fd) (st : Stack) : Stack × Int :=
  match st.sk fd with
  | none => (st, -1)
  | some s =>
      let st := st.letGo fd s
      let st :=
        if s.kind = .tcp ∧ s.tcpSt = .listen then st.dropChildren fd else st
      if s.kind = .tcp ∧ (s.tcpSt = .estab ∨ s.tcpSt = .finWait ∨
          s.tcpSt = .closeWait ∨ s.tcpSt = .lastAck) then
        let (st, rc) := tcpClose deliver ⟨fd, s.id⟩ st
        (st, if rc < 0 then -1 else 0)
      else (st.drop fd, 0)

/-- `pm_ip_tcp_check_timeouts`; the fuel covers what the table can grow by. -/
def checkTimeouts (st : Stack) : Stack :=
  let more := (st.env.grow.map fun g => (g.map (· + 1)).getD 0).sum
  checkTimeoutsFrom deliver (st.skCap + more + 1) 0 st

/-- `pm_metal_net_ip_rx_from` for a TCP datagram. -/
def rxFrom (h : Int) (seg : Segment) (st : Stack) : Stack :=
  { ipInput deliver seg { st with rxL2 := h } with rxL2 := st.rxL2 }

end Deliver

inductive Call
  | loUp
  | socket (kind : Kind)
  | outSocket (kind : Kind)
  | bind (fd : Fd) (addr : Addr) (port : Port)
  | bindL2 (fd : Fd) (h : Int)
  | listen (fd : Fd) (depth : Int)
  | accept (fd : Fd)
  | connect (fd : Fd) (addr : Addr) (port : Port)
  | send (fd : Fd) (buf : Bytes)
  | recv (fd : Fd) (len : Nat)
  | close (fd : Fd)
  | pump
  | input (h : Int) (seg : Segment)
  deriving DecidableEq

/-- What a call returns, with the bytes that `recv` copies out. -/
structure Answer where
  rc : Int
  bytes : Bytes

section Run

variable (depth : Nat)

def Answer.of (out : Stack × Int) : Stack × Answer := (out.1, ⟨out.2, []⟩)

def Call.perform (st : Stack) : Call → Stack × Answer
  | .loUp => Answer.of ({ st with loUp := true }, 0)
  | .socket kind => Answer.of (st.socketLocked kind)
  | .outSocket kind => Answer.of (st.outSocketLocked kind)
  | .bind fd addr port => Answer.of (st.bindLocked fd addr port)
  | .bindL2 fd h => Answer.of (st.bindL2Locked fd h)
  | .listen fd backlog => Answer.of (st.listenLocked fd backlog)
  | .accept fd => Answer.of (st.acceptLocked fd)
  | .connect fd addr port =>
      Answer.of (connectLocked (inputWithin depth) fd addr port st)
  | .send fd buf => Answer.of (sendLocked (inputWithin depth) fd buf st)
  | .recv fd len =>
      let (st, rc, bytes) := recvLocked (inputWithin depth) fd len st
      (st, ⟨rc, bytes⟩)
  | .close fd => Answer.of (closeLocked (inputWithin depth) fd st)
  | .pump => Answer.of (checkTimeouts (inputWithin depth) st, 0)
  | .input h seg => Answer.of (rxFrom (inputWithin depth) h seg st, 0)

def act (st : Stack) (call : Env × Call) : Stack :=
  (call.2.perform depth { st with env := call.1 }).1

/-- The stack after `pm_metal_net_ip_init`. -/
def Stack.init (env : Env) : Stack where
  sk := fun _ => none
  skCap := 0
  eph := 49152
  loUp := false
  rxL2 := -1
  env := env
  nextId := 0
  sent := []
  queued := []
  taken := []
  handed := []
  fault := false
  deep := false

end Run

/-- Room for everything, one host at 10.0.0.1 and a device that takes all. -/
def Env.ample : Env where
  now := 0
  task := none
  wire := []
  room := [some ⟨8192, 8192, by decide, by decide, by decide, by decide⟩]
  grow := [some 3]
  queueRoom := true
  backlogSoft := 16
  backlogDflt := 16
  srcRoute := fun _ => 0x0a000001
  l2Addr := fun _ => 0x0a000001
  l2For := fun _ => -1
  l2Has := fun _ => true
  frameMax := some 1514
  ours := fun addr => addr = 0x0a000001

end Metal.Net.Ip
