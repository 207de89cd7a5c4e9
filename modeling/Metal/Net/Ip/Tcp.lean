import Metal.Net.Ip.Sock

namespace Metal.Net.Ip

open Metal.Lib

/-! The TCP state machine. A segment to ourselves is delivered before the call
that emits it returns; `deliver` is that nested input. -/

def Sock.window (s : Sock) : UInt16 :=
  UInt16.ofNat (min 65535 (s.rxCap - s.rx.length))

def Sock.peer (s : Sock) : Addr := if s.raddr ≠ 0 then s.raddr else loAddr

namespace Stack

def srcFor (st : Stack) (s : Sock) (dst : Addr) : Addr :=
  if s.laddr ≠ 0 ∧ s.laddr ≠ 0xffffffff then s.laddr
  else if s.l2 ≥ 0 then st.env.l2Addr s.l2
  else if dst = loAddr then loAddr
  else st.env.srcRoute dst

def segment (st : Stack) (s : Sock) (flags : Flags) (data : Bytes) (seq : Seq) :
    Segment where
  src := st.srcFor s s.peer
  dst := s.peer
  sport := s.lport
  dport := s.rport
  seq := seq
  ack := s.rcvNxt
  flags := flags
  wnd := s.window
  data := data

end Stack

section Deliver

variable (deliver : Segment → Stack → Stack)

/-- `ip_input` for a TCP datagram. -/
def ipInput (seg : Segment) (st : Stack) : Stack :=
  if (st.loUp ∧ seg.dst = loAddr) ∨ st.env.ours seg.dst then deliver seg st
  else st

def nest (seg : Segment) (st : Stack) : Stack :=
  { ipInput deliver seg { st with rxL2 := -1 } with rxL2 := st.rxL2 }

def outputVia (seg : Segment) (st : Stack) : Stack × Tx :=
  if st.loUp ∧ (seg.dst = loAddr ∨ seg.dst &&& 0xf0000000 = 0xe0000000) then
    (nest deliver seg st, .ok)
  else
    match st.env.wire with
    | .wait :: wire => ({ st with env := { st.env with wire } }, .wait)
    | .error :: wire => ({ st with env := { st.env with wire } }, .error)
    | .looped :: wire =>
        (nest deliver seg { st with env := { st.env with wire } }, .ok)
    | .sent :: wire =>
        ({ st with env := { st.env with wire }, sent := st.sent ++ [seg] }, .ok)
    | [] => ({ st with sent := st.sent ++ [seg] }, .ok)

def tcpEmit (flags : Flags) (data : Bytes) (seq : Seq) (r : Ref) (st : Stack) :
    Stack × Tx :=
  match st.row r with
  | none => ({ st with fault := true }, .error)
  | some s =>
      if data.length > tcpMss then (st, .error)
      else outputVia deliver (st.segment s flags data seq) st

/-- The sequence space and the bytes that a segment takes, before it goes out. -/
def Sock.reserve (now : Nat) (flags : Flags) (data : Bytes) (s : Sock) : Sock :=
  let s :=
    if s.rexmitLen = 0 then
      { s with
        rexmitSeq := s.sndNxt, rexmitFlags := flags, rexmitAt := now + rtoUs
        rexmitTries := 0 }
    else s
  let consumes := data.length + flags.ctl
  { s with
    rexmit := s.rexmit.take s.rexmitLen ++ data ++
      s.rexmit.drop (s.rexmitLen + data.length)
    rexmitLen := s.rexmitLen + consumes
    rexmitEnd := s.rexmitSeq + UInt32.ofNat (s.rexmitLen + consumes)
    sndNxt := s.sndNxt + UInt32.ofNat consumes
    stream := s.stream ++ data }

def Sock.rollback (old s : Sock) : Sock :=
  { s with
    sndNxt := old.sndNxt
    rexmitLen := old.rexmitLen
    rexmitEnd := if old.rexmitLen ≠ 0 then
      s.rexmitSeq + UInt32.ofNat old.rexmitLen else 0
    stream := old.stream }

def tcpXmit (flags : Flags) (data : Bytes) (r : Ref) (st : Stack) : Stack × Tx :=
  match st.row r with
  | none => ({ st with fault := true }, .error)
  | some s =>
      let consumes := data.length + flags.ctl
      if consumes ≠ 0 ∧ s.rexmitLen + consumes > s.rexmitCap then (st, .wait)
      else
        let reserved :=
          if consumes ≠ 0 then st.upd r (Sock.reserve st.env.now flags data)
          else st
        match tcpEmit deliver flags data s.sndNxt r reserved with
        | (st, .ok) => (st, .ok)
        | (st, tx) =>
            -- a SYN that the ring refused stays registered for the clock
            if tx = .wait ∧ flags.syn ∧ data = [] ∧ s.rexmitLen = 0 then (st, tx)
            else (st.upd r (Sock.rollback s), tx)

def tcpClose (r : Ref) (st : Stack) : Stack × Int :=
  match st.row r with
  | none => ({ st with fault := true }, -1)
  | some s =>
      let st := st.upd r fun s => { s with waiter := none, appClosed := true }
      if s.tcpError then (st.drop r.fd, 1)
      else if s.tcpSt ≠ .estab ∧ s.tcpSt ≠ .closeWait ∧ s.tcpSt ≠ .finWait ∧
          s.tcpSt ≠ .lastAck then (st.drop r.fd, 1)
      else if s.finSent then (st, 0)
      else if s.sndUna ≠ s.sndNxt ∨ s.rexmitLen ≠ 0 then (st, 0)
      else
        let passive := s.peerFin ∧ st.loUp ∧ s.raddr = loAddr
        let st := st.upd r fun s =>
          { s with
            finSent := true
            tcpSt := if s.peerFin then .lastAck else .finWait }
        match tcpXmit deliver .finAck [] r st with
        | (st, .wait) => (st.upd r fun s => { s with finSent := false }, 0)
        | (st, .error) => (st.dropRef r, -1)
        | (st, .ok) =>
            (if passive ∧ (st.row r).isSome then st.drop r.fd else st, 0)

/-- `pm_ip_sock_wake`: the waiter is posted and forgotten. -/
def Stack.wake (r : Ref) (st : Stack) : Stack :=
  st.upd r fun s => { s with waiter := none }

def Stack.payloadMax (st : Stack) (s : Sock) : Nat :=
  if st.loUp ∧ s.peer = loAddr then tcpMss
  else
    match st.env.frameMax with
    | none => 0
    | some frameMax =>
        if frameMax ≤ 14 + 20 + 20 then 0
        else min (frameMax - 14 - 20 - 20) tcpMss

def resend (r : Ref) (s : Sock) (st : Stack) : Stack :=
  let dlen := min (s.rexmitLen - s.rexmitFlags.ctl) (st.payloadMax s)
  let (st, tx) :=
    tcpEmit deliver s.rexmitFlags (s.rexmit.take dlen) s.rexmitSeq r st
  let st := if tx = .ok then
      st.upd r fun s => { s with rexmitTries := s.rexmitTries + 1 } else st
  match st.row r with
  | none => { st with fault := true }
  | some s =>
      if s.rexmitTries ≥ rexmitTriesMax then
        if s.appClosed then st.drop r.fd
        else if s.tcpSt = .synRcvd then st.drop r.fd
        else
          (st.upd r fun s =>
            { s with tcpError := true, rexmitLen := 0, rexmitEnd := 0 }).wake r
      else st.upd r fun s => { s with rexmitAt := st.env.now + rtoUs }

def checkTimeout (fd : Fd) (st : Stack) : Stack :=
  match st.sk fd with
  | none => st
  | some s =>
      let r : Ref := ⟨fd, s.id⟩
      if s.kind ≠ .tcp then st
      else if s.appClosed ∧ ¬ s.finSent ∧ s.sndUna = s.sndNxt ∧
          s.rexmitLen = 0 then (tcpClose deliver r st).1
      else if s.rexmitLen = 0 ∨ st.env.now < s.rexmitAt then
        if s.rexmitLen = 0 ∧ s.waiter.isSome ∧
            (s.sndNxt - s.sndUna).toNat ≥ s.sndWnd ∧
            (s.peerFin ∨ (s.wndStallAt ≠ 0 ∧ st.env.now ≥ s.wndStallAt)) then
          (st.upd r fun s => { s with tcpError := true, wndStallAt := 0 }).wake r
        else st
      else resend deliver r s st

/-- The loop of `pm_ip_tcp_check_timeouts`; the table may grow while it runs. -/
def checkTimeoutsFrom : Nat → Fd → Stack → Stack
  | 0, _, st => { st with deep := true }
  | fuel + 1, fd, st =>
      if fd < st.skCap then
        checkTimeoutsFrom fuel (fd + 1) (checkTimeout deliver fd st)
      else st

def tcpQueueAccept (ls child : Ref) (st : Stack) : Stack :=
  match st.row ls with
  | none => { st with fault := true }
  | some l =>
      if l.acceptQ.length < l.acceptCap then
        let st := st.upd child fun c => { c with stage := .queued }
        let st := { st with queued := st.queued ++ [(ls.id, child.id)] }
        (st.upd ls fun l => { l with acceptQ := l.acceptQ ++ [child.fd] }).wake ls
      else
        let st := st.upd child fun c => { c with stage := .refused }
        (tcpXmit deliver .rstAck [] child st).1.drop child.fd

def Stack.matchesListen (st : Stack) (seg : Segment) (s : Sock) : Bool :=
  s.kind = .tcp ∧ s.tcpSt = .listen ∧ s.lport = seg.dport ∧
    (s.laddr = 0 ∨ s.laddr = 0xffffffff ∨ s.laddr = seg.dst) ∧
    (s.l2 < 0 ∨ st.rxL2 < 0 ∨ s.l2 = st.rxL2)

def Stack.matchesRow (st : Stack) (seg : Segment) (s : Sock) : Bool :=
  s.kind = .tcp ∧ ¬ s.tcpSt = .listen ∧ s.lport = seg.dport ∧
    s.rport = seg.sport ∧ s.raddr = seg.src ∧
    ¬ (s.l2 ≥ 0 ∧ st.rxL2 ≥ 0 ∧ s.l2 ≠ st.rxL2)

def Stack.rows (st : Stack) : List (Fd × Sock) :=
  (List.range st.skCap).filterMap fun fd => (st.sk fd).map fun s => (fd, s)

def Stack.tcpFind (st : Stack) (seg : Segment) : Option Ref :=
  match st.rows.find? fun (_, s) => st.matchesRow seg s with
  | some (fd, s) => some ⟨fd, s.id⟩
  | none =>
      ((st.rows.filter fun (_, s) => st.matchesListen seg s).getLast?).map
        fun (fd, s) => ⟨fd, s.id⟩

def Sock.trim (now : Nat) (ack : Seq) (s : Sock) : Sock :=
  let s := { s with sndUna := ack }
  if s.rexmitLen ≠ 0 ∧ s.sndUna > s.rexmitSeq then
    let acked := (s.sndUna - s.rexmitSeq).toNat
    let s :=
      if acked ≥ s.rexmitLen then { s with rexmitLen := 0, rexmitEnd := 0 }
      else
        { s with
          rexmit := (s.rexmit.drop acked).take (s.rexmitLen - acked) ++
            s.rexmit.drop (s.rexmitLen - acked)
          rexmitLen := s.rexmitLen - acked
          rexmitSeq := s.rexmitSeq + UInt32.ofNat acked
          rexmitEnd := s.rexmitSeq + UInt32.ofNat acked +
            UInt32.ofNat (s.rexmitLen - acked) }
    { s with rexmitTries := 0, rexmitAt := now + rtoUs }
  else s

def Sock.acked (now : Nat) (ack : Seq) (s : Sock) : Sock :=
  { s.trim now ack with wndStallAt := 0, waiter := none }

def inputReset (r : Ref) (s : Sock) (st : Stack) : Stack :=
  if s.tcpSt = .synRcvd then st.drop r.fd
  else
    let st := (st.upd r fun s =>
      { s with peerFin := true, tcpSt := .closeWait }).wake r
    if s.appClosed then st.drop r.fd else st

def inputAck (seg : Segment) (r : Ref) (s : Sock) (st : Stack) : Stack × Bool :=
  if seg.flags.ack ∧ seg.ack > s.sndUna ∧ seg.ack ≤ s.sndNxt then
    let trimmed := s.acked st.env.now seg.ack
    let st := st.upd r fun _ => trimmed
    if trimmed.finSent ∧ trimmed.sndUna = trimmed.sndNxt ∧
        (trimmed.tcpSt = .finWait ∨ trimmed.tcpSt = .lastAck) ∧
        ¬ seg.flags.fin then (st.drop r.fd, true)
    else if trimmed.appClosed ∧ trimmed.sndUna = trimmed.sndNxt then
      ((tcpClose deliver r st).1, true)
    else (st, false)
  else (st, false)

def inputWindow (seg : Segment) (r : Ref) (s : Sock) (st : Stack) : Stack :=
  if seg.flags.ack then
    if seg.wnd.toNat > s.sndWnd then
      (st.upd r fun s => { s with sndWnd := seg.wnd.toNat }).wake r
    else st.upd r fun s => { s with sndWnd := seg.wnd.toNat }
  else st

def inputListen (seg : Segment) (r : Ref) (s : Sock) (st : Stack) : Stack :=
  match st.sockAlloc .tcp with
  | (st, none) => st
  | (st, some c) =>
      let st := st.upd c fun c =>
        { c with
          bound := true, l2 := s.l2, laddr := s.laddr, lport := s.lport
          raddr := seg.src, rport := seg.sport, iss := 1000, sndNxt := 1000
          sndUna := 1000, rcvNxt := seg.seq + 1, tcpSt := .synRcvd
          listenFd := some r.fd, stage := .half }
      (tcpXmit deliver .synAck [] c st).1

def inputComplete (r : Ref) (s : Sock) (st : Stack) : Stack :=
  let st := st.upd r fun s =>
    { s with
      tcpSt := .estab, sndUna := s.sndNxt, stage := .orphan
      slip := s.slip ∨ s.rexmitLen ≠ 0 }
  match s.listenFd with
  | none => st
  | some fd =>
      match st.sk fd with
      | none => st
      | some ls => tcpQueueAccept deliver ⟨fd, ls.id⟩ r st

def Sock.receive (data : Bytes) (s : Sock) : Sock :=
  let taken := data.take (s.rxCap - s.rx.length)
  { s with
    rx := s.rx ++ taken, rcvNxt := s.rcvNxt + UInt32.ofNat taken.length }

def Sock.receiveFin (s : Sock) : Sock :=
  { s with
    rcvNxt := s.rcvNxt + 1
    peerFin := true
    tcpSt := if s.tcpSt = .estab then .closeWait else s.tcpSt }

def inputFin (seg : Segment) (r : Ref) (st : Stack) : Stack :=
  match st.row r with
  | none => { st with fault := true }
  | some s =>
      if seg.seq + UInt32.ofNat seg.data.length ≠ s.rcvNxt then
        (tcpXmit deliver .ackOnly [] r st).1
      else
        let st := st.upd r Sock.receiveFin
        let st := ((tcpXmit deliver .ackOnly [] r st).1).wake r
        match st.row r with
        | none => { st with fault := true }
        | some s =>
            if s.appClosed ∧ s.finSent ∧ s.sndUna = s.sndNxt then st.drop r.fd
            else if s.appClosed ∧ ¬ s.finSent then (tcpClose deliver r st).1
            else st

def inputData (seg : Segment) (r : Ref) (s : Sock) (st : Stack) : Stack :=
  if seg.data ≠ [] then
    if seg.seq ≠ s.rcvNxt then (tcpXmit deliver .ackOnly [] r st).1
    else
      let st := st.upd r (Sock.receive seg.data)
      let st := ((tcpXmit deliver .ackOnly [] r st).1).wake r
      if seg.flags.fin then inputFin deliver seg r st else st
  else if seg.flags.fin then inputFin deliver seg r st
  else st

def Sock.establish (seq : Seq) (s : Sock) : Sock :=
  { s with
    rcvNxt := seq + 1, tcpSt := .estab, sndUna := s.sndNxt
    slip := s.slip ∨ s.rexmitLen ≠ 0 }

def inputState (seg : Segment) (r : Ref) (s : Sock) (st : Stack) : Stack :=
  if s.tcpSt = .synRcvd ∧ seg.flags.syn ∧ ¬ seg.flags.ack then
    if s.rexmitLen ≠ 0 then
      (tcpEmit deliver s.rexmitFlags
        (s.rexmit.take (s.rexmitLen - s.rexmitFlags.ctl)) s.rexmitSeq r st).1
    else st
  else if s.tcpSt = .listen ∧ seg.flags.syn ∧ ¬ seg.flags.ack then
    inputListen deliver seg r s st
  else if s.tcpSt = .synSent ∧ seg.flags.syn ∧ seg.flags.ack then
    let st := st.upd r (Sock.establish seg.seq)
    ((tcpXmit deliver .ackOnly [] r st).1).wake r
  else if s.tcpSt = .synRcvd ∧ seg.flags.ack then inputComplete deliver r s st
  else if s.tcpSt = .estab ∨ s.tcpSt = .finWait ∨ s.tcpSt = .closeWait then
    inputData deliver seg r s st
  else st

def tcpInput (seg : Segment) (st : Stack) : Stack :=
  match st.tcpFind seg with
  | none => st
  | some r =>
      match st.row r with
      | none => st
      | some s =>
          if seg.flags.rst ∧ s.tcpSt ≠ .listen then inputReset r s st
          else
            match inputAck deliver seg r s st with
            | (st, true) => st
            | (st, false) =>
                let st := inputWindow seg r s st
                match st.row r with
                | none => st
                | some s => inputState deliver seg r s st

end Deliver

def inputWithin : Nat → Segment → Stack → Stack
  | 0, _, st => { st with deep := true }
  | depth + 1, seg, st => tcpInput (inputWithin depth) seg st

end Metal.Net.Ip
