import Metal.Lib.CString

namespace Metal.Net.Ip

open Metal.Lib

/-! The sockets of the stack: their rows, the table, and what a call is told by
the world around the stack. -/

abbrev Addr := UInt32

abbrev Port := UInt16

abbrev Seq := UInt32

abbrev Fd := Nat

def loAddr : Addr := 0x7f000001

def rtoUs : Nat := 50000

def rexmitTriesMax : Nat := 40

def wndStallUs : Nat := 30000000

/-- `PM_METAL_IP_PKT_MAX - 40` -/
def tcpMss : Nat := 8232 - 40

inductive Kind
  | udp
  | tcp
  deriving DecidableEq

/-- `tcp_st`; a new row is `closed`. -/
inductive TcpSt
  | closed
  | listen
  | synSent
  | synRcvd
  | estab
  | finWait
  | closeWait
  | lastAck
  deriving DecidableEq

structure Flags where
  fin : Bool
  syn : Bool
  rst : Bool
  psh : Bool
  ack : Bool
  deriving DecidableEq

namespace Flags

def none : Flags := ⟨false, false, false, false, false⟩

def ackOnly : Flags := { none with ack := true }

def synOnly : Flags := { none with syn := true }

def synAck : Flags := { none with syn := true, ack := true }

def finAck : Flags := { none with fin := true, ack := true }

def rstAck : Flags := { none with rst := true, ack := true }

def pshAck : Flags := { none with psh := true, ack := true }

def ctl (flags : Flags) : Nat := if flags.syn ∨ flags.fin then 1 else 0

end Flags

structure Segment where
  src : Addr
  dst : Addr
  sport : Port
  dport : Port
  seq : Seq
  ack : Seq
  flags : Flags
  wnd : UInt16
  data : Bytes
  deriving DecidableEq

/-- How a row came to be and who has it: opened by the application, half open
under a listener, in a listener's queue, handed out by accept, closed by the
application, complete with the queue full and about to be reset, or complete
with nobody to take it. The code has no such field. -/
inductive Stage
  | own
  | half
  | queued
  | taken
  | left
  | refused
  | orphan

/-- `struct pm_metal_sock` as far as TCP goes. The code has none of the last
five fields nor `id`, which names the row among all that ever were: `stage` and
`held` say who has the row, `stream` is what `send` has accepted and `read` what
`recv` has returned on this connection, and `slip` tells that its sequence
numbers were set over bytes that were still to be resent. -/
structure Sock where
  id : Nat
  kind : Kind
  tcpSt : TcpSt
  bound : Bool
  l2 : Int
  laddr : Addr
  lport : Port
  raddr : Addr
  rport : Port
  sndNxt : Seq
  sndUna : Seq
  sndWnd : Nat
  rcvNxt : Seq
  iss : Seq
  rexmit : Bytes
  rexmitCap : Nat
  rexmitLen : Nat
  rexmitSeq : Seq
  rexmitFlags : Flags
  rexmitTries : Nat
  rexmitEnd : Seq
  rexmitAt : Nat
  wndStallAt : Nat
  appClosed : Bool
  finSent : Bool
  tcpError : Bool
  rx : Bytes
  rxCap : Nat
  peerFin : Bool
  waiter : Option Nat
  listenFd : Option Fd
  acceptQ : List Fd
  acceptCap : Nat
  stage : Stage
  held : Bool
  stream : Bytes
  read : Bytes
  slip : Bool

structure Caps where
  rx : Nat
  tx : Nat
  rxPos : 0 < rx
  rxMax : rx ≤ 1048576
  txPos : 0 < tx
  txMax : tx ≤ 65536

def Sock.new (id : Nat) (kind : Kind) (caps : Caps) : Sock where
  id := id
  kind := kind
  tcpSt := .closed
  bound := false
  l2 := -1
  laddr := 0
  lport := 0
  raddr := 0
  rport := 0
  sndNxt := 0
  sndUna := 0
  sndWnd := if kind = .tcp then caps.rx else 0
  rcvNxt := 0
  iss := 0
  rexmit := List.replicate caps.tx 0
  rexmitCap := caps.tx
  rexmitLen := 0
  rexmitSeq := 0
  rexmitFlags := .none
  rexmitTries := 0
  rexmitEnd := 0
  rexmitAt := 0
  wndStallAt := 0
  appClosed := false
  finSent := false
  tcpError := false
  rx := []
  rxCap := caps.rx
  peerFin := false
  waiter := none
  listenFd := none
  acceptQ := []
  acceptCap := 0
  stage := .own
  held := false
  stream := []
  read := []
  slip := false

/-- What becomes of a frame that is given to a device: it goes out, the ring is
full, the device fails, or the driver hands the frame straight back to the
stack, as a tunnel to ourselves does. -/
inductive Wire
  | sent
  | wait
  | error
  | looped

/-- `PM_METAL_NET_TX_*` -/
inductive Tx
  | ok
  | wait
  | error
  deriving DecidableEq

/-- What the stack learns from outside during one call: the clock, the current
task, the answers of the devices and the arena in the order they are asked for,
and the tables of interfaces and routes. `room` answers `sock_new` with the
sizes of the two buffers, `grow` the growth of the table with the number of new
slots past the first. -/
structure Env where
  now : Nat
  task : Option Nat
  wire : List Wire
  room : List (Option Caps)
  grow : List (Option Nat)
  queueRoom : Bool
  backlogSoft : Nat
  backlogDflt : Nat
  srcRoute : Addr → Addr
  l2Addr : Int → Addr
  l2For : Addr → Int
  l2Has : Int → Bool
  frameMax : Option Nat
  ours : Addr → Bool

/-- The stack. The last seven fields are not in the code: `nextId` names the
next row, `sent` logs the segments that went out by a device, `queued` and
`taken` the listeners and rows of every completed handshake and every accept,
`handed` the rows that accept returned and the application has not closed,
`fault` whether a row was touched after it was dropped, and `deep` whether
nested deliveries went deeper than the model follows them. -/
structure Stack where
  sk : Fd → Option Sock
  skCap : Nat
  eph : UInt16
  loUp : Bool
  rxL2 : Int
  env : Env
  nextId : Nat
  sent : List Segment
  queued : List (Nat × Nat)
  taken : List (Nat × Nat)
  handed : List (Fd × Nat)
  fault : Bool
  deep : Bool

/-- A pointer to a row: its slot, and which of the rows in that slot it is. -/
structure Ref where
  fd : Fd
  id : Nat
  deriving DecidableEq

namespace Stack

def row (st : Stack) (r : Ref) : Option Sock :=
  (st.sk r.fd).filter fun s => s.id = r.id

def setRow (st : Stack) (fd : Fd) (s : Option Sock) : Stack :=
  { st with sk := Function.update st.sk fd s }

def upd (r : Ref) (f : Sock → Sock) (st : Stack) : Stack :=
  match st.row r with
  | some s => st.setRow r.fd (some (f s))
  | none => { st with fault := true }

def drop (fd : Fd) (st : Stack) : Stack := st.setRow fd none

def dropRef (r : Ref) (st : Stack) : Stack :=
  match st.row r with
  | some _ => st.drop r.fd
  | none => { st with fault := true }

/-- `sock_new` in a free slot. -/
def sockNew (fd : Fd) (kind : Kind) (st : Stack) : Stack × Option Ref :=
  match st.env.room with
  | some caps :: room =>
      (({ st with env := { st.env with room }, nextId := st.nextId + 1 }).setRow
        fd (some (Sock.new st.nextId kind caps)), some ⟨fd, st.nextId⟩)
  | none :: room => ({ st with env := { st.env with room } }, none)
  | [] => (st, none)

/-- `pm_ip_table_grow` on the table of rows. -/
def tableGrow (st : Stack) : Option Stack :=
  match st.env.grow with
  | some more :: grow =>
      some { st with env := { st.env with grow }, skCap := st.skCap + 1 + more }
  | _ => none

def sockAlloc (kind : Kind) (st : Stack) : Stack × Option Ref :=
  match (List.range st.skCap).find? fun fd => (st.sk fd).isNone with
  | some fd => st.sockNew fd kind
  | none =>
      match st.tableGrow with
      | none => (st, none)
      | some grown => grown.sockNew st.skCap kind

variable {st : Stack} {r : Ref} {fd : Fd} {s : Sock}

theorem row_eq_some : st.row r = some s ↔ st.sk r.fd = some s ∧ s.id = r.id := by
  simp [row, Option.filter_eq_some_iff]

theorem row_mk (there : st.sk fd = some s) : st.row ⟨fd, s.id⟩ = some s :=
  row_eq_some.2 ⟨there, rfl⟩

theorem upd_of_row (there : st.row r = some s) (f : Sock → Sock) :
    st.upd r f = st.setRow r.fd (some (f s)) := by
  simp only [upd, there]

theorem upd_of_none (gone : st.row r = none) (f : Sock → Sock) :
    st.upd r f = { st with fault := true } := by
  simp only [upd, gone]

@[simp] theorem setRow_env (o : Option Sock) : (st.setRow fd o).env = st.env := rfl

@[simp] theorem setRow_sk_same (o : Option Sock) : (st.setRow fd o).sk fd = o := by
  simp [setRow]

theorem setRow_sk_of_ne {fd' : Fd} (differ : fd' ≠ fd) (o : Option Sock) :
    (st.setRow fd o).sk fd' = st.sk fd' := by
  simp [setRow, differ]

theorem setRow_sk (fd' : Fd) (o : Option Sock) :
    (st.setRow fd o).sk fd' = if fd' = fd then o else st.sk fd' := by
  simp [setRow, Function.update_apply]

theorem setRow_old {fd' : Fd} {s' : Sock}
    (there : (st.setRow fd (some s)).sk fd' = some s') :
    fd' = fd ∧ s' = s ∨ fd' ≠ fd ∧ st.sk fd' = some s' := by
  by_cases same : fd' = fd
  · subst same
    rw [setRow_sk_same] at there
    exact Or.inl ⟨rfl, (Option.some.inj there).symm⟩
  · exact Or.inr ⟨same, (setRow_sk_of_ne same _).symm.trans there⟩

theorem drop_old {fd' : Fd} {s' : Sock} (there : (st.drop fd).sk fd' = some s') :
    fd' ≠ fd ∧ st.sk fd' = some s' := by
  by_cases same : fd' = fd
  · subst same
    rw [drop, setRow_sk_same] at there
    exact absurd there nofun
  · exact ⟨same, (setRow_sk_of_ne same _).symm.trans there⟩

@[simp] theorem setRow_setRow (o o' : Option Sock) :
    (st.setRow fd o).setRow fd o' = st.setRow fd o' := by
  simp [setRow]

@[simp] theorem drop_setRow (o : Option Sock) :
    (st.setRow fd o).drop fd = st.drop fd := by
  simp [drop]

theorem setRow_self (there : st.sk fd = some s) : st.setRow fd (some s) = st := by
  have : Function.update st.sk fd (some s) = st.sk := by
    rw [← there, Function.update_eq_self]
  simp [setRow, this]

theorem row_setRow (same : s.id = r.id) :
    (st.setRow r.fd (some s)).row r = some s :=
  row_eq_some.2 ⟨setRow_sk_same _, same⟩

theorem row_upd (there : st.row r = some s) {f : Sock → Sock}
    (same : (f s).id = s.id) : (st.upd r f).row r = some (f s) := by
  rw [upd_of_row there]
  exact row_setRow (same.trans (row_eq_some.1 there).2)

theorem drop_upd (there : st.row r = some s) (f : Sock → Sock) :
    (st.upd r f).drop r.fd = st.drop r.fd := by
  rw [upd_of_row there, drop_setRow]

end Stack

end Metal.Net.Ip
