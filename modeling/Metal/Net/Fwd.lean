import Metal.Lib.CString
import Metal.Lib.Program
import Metal.Lib.Table

namespace Metal.Net.Fwd

open Metal.Lib

/-! A mirror of `net/fwd`: one thread accepts host connections, opens a guest
connection for each, and carries bytes both ways.  Its operations are the calls
of the two socket layers, whose answers are the environment's. -/

inductive Errno
  | again | wouldblock | intr | badf | connreset | notconn | other

/-- One entry of the poll set: the descriptor, and whether POLLOUT is asked for
beside POLLIN. -/
structure PollFd where
  fd : Int
  out : Bool
  deriving DecidableEq

abbrev Revents := UInt16

def pollIn : Revents := 1

def pollErr : Revents := 8

def pollHup : Revents := 16

structure Conn where
  hostFd : Int
  guestFd : Int
  connecting : Bool
  pend : Bytes
  pendOff : Nat

structure Ep where
  port : UInt16
  listenFd : Int
  conn : List Conn
  chunk : Nat

def fwdEpNew (port : UInt16) (listenFd : Int) (conns chunk : Nat) : Ep where
  port
  listenFd
  conn := List.replicate conns ⟨-1, -1, false, [], 0⟩
  chunk

inductive Call
  | running
  | ipPump
  | ppoll (waitNs : Nat) (set : List PollFd)
  | accept (fd : Int)
  | socket
  | connect (fd : Int) (port : UInt16)
  | established (fd : Int)
  | close (fd : Int)
  | ipClose (fd : Int)
  | recv (fd : Int) (len : Nat)
  | ipSend (fd : Int) (bytes : Bytes)
  | send (fd : Int) (bytes : Bytes)
  | ipRecv (fd : Int) (len : Nat)
  deriving DecidableEq

abbrev Call.Ret : Call → Type
  | .running => Bool
  | .ipPump | .close _ | .ipClose _ => Unit
  | .ppoll _ _ => Except Errno (List Revents)
  | .accept _ | .socket | .connect _ _ | .established _ | .ipSend _ _ => Int
  | .recv _ _ => Except Errno Bytes
  | .send _ _ => Except Errno Nat
  | .ipRecv _ _ => Except Int Bytes

inductive Proc
  | poll (waitNs : Nat) (set : List PollFd)
  | accept (e : Ep)
  | flush (c : Conn) (moved : Nat)
  | pump (e : Ep) (waitNs : Nat)

abbrev Proc.Res : Proc → Type
  | .poll _ _ => Option (List Revents)
  | .accept _ => Ep
  | .flush _ _ => Conn × Option Nat
  | .pump _ _ => Unit

abbrev Sockets : Signature where
  Op := Call
  Ret := Call.Ret
  Proc := Proc
  Res := Proc.Res

abbrev Prog := Program Sockets

def call (c : Call) : Prog c.Ret := .op c .done

def invoke (p : Proc) : Prog p.Res := .call p .done

def fwdGuestClose (e : Ep) (c : Conn) : Prog Conn :=
  if c.hostFd = e.listenFd then
    pure { c with guestFd := -1, hostFd := -1 }
  else do
    if c.guestFd ≥ 0 then call (.ipClose c.guestFd)
    pure { c with guestFd := -1, hostFd := -1, pend := [], pendOff := 0 }

def hangUp (e : Ep) (c : Conn) : Prog Conn := do
  call (.close c.hostFd)
  fwdGuestClose e c

def Conn.isFree (c : Conn) : Bool := c.hostFd < 0

def Ep.occupy (e : Ep) (hostFd guestFd : Int) (connecting : Bool) : Ep :=
  match modifyFirst Conn.isFree (fun c => { c with hostFd, guestFd, connecting })
      e.conn with
  | some (_, conn) => { e with conn }
  | none => e

def fwdAccept (e : Ep) : Prog Ep :=
  if e.conn.any Conn.isFree then do
    let h ← call (.accept e.listenFd)
    if h < 0 then pure e
    else do
      let g ← call .socket
      let crc ← if g < 0 then pure (-99) else call (.connect g e.port)
      if g < 0 ∨ crc < 0 then do
        if g ≥ 0 then call (.ipClose g)
        call (.close h)
        invoke (.accept e)
      else
        invoke (.accept (e.occupy h g (crc = 0)))
  else
    pure e

/-- `moved` is what this call has moved so far; no answer stands for -1. -/
def fwdFlush (c : Conn) (moved : Nat) : Prog (Conn × Option Nat) :=
  if c.pendOff < c.pend.length then do
    match ← call (.send c.hostFd (c.pend.drop c.pendOff)) with
    | .ok 0 => pure (c, none)
    | .ok w => invoke (.flush { c with pendOff := c.pendOff + w } (moved + w))
    | .error .again | .error .wouldblock | .error .intr => pure (c, some moved)
    | .error _ => pure (c, none)
  else
    pure ({ c with pend := [], pendOff := 0 }, some moved)

/-- Guest to host, until the host refuses, the guest has nothing more, or the
guard is used up. -/
def drain (e : Ep) : (guard : Nat) → Conn → (worked : Bool) → Prog (Conn × Bool)
  | 0, c, worked => pure (c, worked)
  | guard + 1, c, worked => do
      let (c, moved) ← invoke (.flush c 0)
      match moved with
      | none => do
          let c ← hangUp e c
          pure (c, worked)
      | some moved =>
          let worked := worked || moved > 0
          if c.pend.length ≠ 0 then pure (c, worked)
          else do
            match ← call (.ipRecv c.guestFd e.chunk) with
            | .ok [] => pure (c, worked)
            | .ok bytes => drain e guard { c with pend := bytes, pendOff := 0 } true
            | .error code =>
                if code = -2 then do
                  let c ← hangUp e c
                  pure (c, worked)
                else pure (c, worked)

def drainGuard : Nat := 64

def drainGuest (e : Ep) (c : Conn) (worked : Bool) : Prog (Conn × Bool) :=
  if c.guestFd ≥ 0 then drain e drainGuard c worked else pure (c, worked)

def shuttle (e : Ep) (ready : Bool) (c : Conn) : Prog (Conn × Bool) :=
  if ready then do
    match ← call (.recv c.hostFd e.chunk) with
    | .ok [] => do
        let c ← hangUp e c
        pure (c, false)
    | .ok bytes => do
        let _ ← call (.ipSend c.guestFd bytes)
        drainGuest e c true
    | .error .badf | .error .connreset | .error .notconn => do
        let c ← hangUp e c
        pure (c, false)
    | .error _ => drainGuest e c false
  else
    drainGuest e c false

/-- One slot's turn in a round; `ready` tells that poll saw its host socket
readable or closed. -/
def serve (e : Ep) (ready : Bool) (c : Conn) : Prog (Conn × Bool) :=
  if c.hostFd < 0 then pure (c, false)
  else if c.connecting then do
    let st ← call (.established c.guestFd)
    if st ≠ 1 then
      if st < 0 then do
        let c ← hangUp e c
        pure (c, false)
      else pure (c, false)
    else shuttle e ready { c with connecting := false }
  else shuttle e ready c

/-- The poll set is packed: `pfi` holds each slot's place in it. -/
def pfi : List Conn → (nfds : Nat) → List (Option Nat)
  | [], _ => []
  | c :: conns, nfds =>
      if c.hostFd ≥ 0 then some nfds :: pfi conns (nfds + 1)
      else none :: pfi conns nfds

def Conn.polled (c : Conn) : Option PollFd :=
  if c.hostFd ≥ 0 then some ⟨c.hostFd, c.pendOff < c.pend.length⟩ else none

def Ep.pollSet (e : Ep) : List PollFd :=
  ⟨e.listenFd, false⟩ :: e.conn.filterMap Conn.polled

def isReady (revents : List Revents) (idx : Option Nat) : Bool :=
  idx.any fun i => (revents[i]?.getD 0) &&& (pollIn ||| pollHup ||| pollErr) ≠ 0

def serveAll (e : Ep) (revents : List Revents) :
    List Conn → List (Option Nat) → Prog (List Conn × Bool)
  | [], _ => pure ([], false)
  | c :: conns, idx => do
      let (c, worked) ← serve e (isReady revents (idx.headD none)) c
      let (conns, others) ← serveAll e revents conns idx.tail
      pure (c :: conns, worked || others)

def nextWait (worked : Bool) (waitNs : Nat) : Nat :=
  if worked then 0
  else if waitNs = 0 then 200 * 1000
  else if waitNs < 50 * 1000 * 1000 then min (waitNs * 2) (50 * 1000 * 1000)
  else waitNs

def pollRetry (waitNs : Nat) (set : List PollFd) : Prog (Option (List Revents)) := do
  match ← call (.ppoll waitNs set) with
  | .ok revents => pure (some revents)
  | .error .intr => invoke (.poll waitNs set)
  | .error _ => pure none

def fwdPump (e : Ep) (waitNs : Nat) : Prog Unit := do
  if ← call .running then
    call .ipPump
    match ← invoke (.poll waitNs e.pollSet) with
    | none => pure ()
    | some revents =>
        let idx := pfi e.conn 1
        let e ← if revents.headD 0 ≠ 0 then invoke (.accept e) else pure e
        let (conn, worked) ← serveAll e revents e.conn idx
        invoke (.pump { e with conn } (nextWait worked waitNs))
  else pure ()

def body : (p : Proc) → Prog p.Res
  | .poll waitNs set => pollRetry waitNs set
  | .accept e => fwdAccept e
  | .flush c moved => fwdFlush c moved
  | .pump e waitNs => fwdPump e waitNs

structure Log where
  hostIn : Bytes
  guestOut : Bytes
  guestIn : Bytes
  hostOut : Bytes

/-- Connections are numbered by their accept, and the guest socket opened next
is the guest end of the latest.  A closed descriptor has no owner, so that its
number may come back. -/
structure World where
  accepts : Nat
  hosts : Int → Option Nat
  guests : Int → Option Nat
  log : Nat → Log

def World.boot : World := ⟨0, fun _ => none, fun _ => none, fun _ => ⟨[], [], [], []⟩⟩

def World.record (w : World) (owner : Option Nat) (change : Log → Log) : World :=
  match owner with
  | none => w
  | some id => { w with log := Function.update w.log id (change (w.log id)) }

def World.after (w : World) : (c : Call) → c.Ret → World
  | .accept _, h =>
      if h < 0 then w
      else { w with accepts := w.accepts + 1
                    hosts := Function.update w.hosts h (some (w.accepts + 1)) }
  | .socket, g =>
      if g < 0 then w
      else { w with guests := Function.update w.guests g (some w.accepts) }
  | .close fd, _ => { w with hosts := Function.update w.hosts fd none }
  | .ipClose fd, _ => { w with guests := Function.update w.guests fd none }
  | .recv fd _, .ok bytes =>
      w.record (w.hosts fd) fun log => { log with hostIn := log.hostIn ++ bytes }
  | .ipSend fd bytes, n =>
      w.record (w.guests fd) fun log =>
        { log with guestOut := log.guestOut ++ bytes.take n.toNat }
  | .send fd bytes, .ok n =>
      w.record (w.hosts fd) fun log => { log with hostOut := log.hostOut ++ bytes.take n }
  | .ipRecv fd _, .ok bytes =>
      w.record (w.guests fd) fun log => { log with guestIn := log.guestIn ++ bytes }
  | _, _ => w

/-- What the sockets may answer: a new descriptor is not one in use, and no more
is moved than there is room or bytes for. -/
def World.answers (w : World) : (c : Call) → c.Ret → Bool
  | .accept fd, h => h < 0 || (h ≠ fd && (w.hosts h).isNone)
  | .socket, g => g < 0 || (w.guests g).isNone
  | .ppoll _ set, .ok revents => revents.length = set.length
  | .recv _ len, .ok bytes => bytes.length ≤ len
  | .ipSend _ bytes, n => n ≤ bytes.length
  | .send _ bytes, .ok n => n ≤ bytes.length
  | .ipRecv _ len, .ok bytes => bytes.length ≤ len
  | _, _ => true

/-- The mirror with those answers of the sockets that `may` allows. -/
abbrev mirror (may : (c : Call) → c.Ret → Bool) : Machine Sockets where
  Thread := Unit
  State := World
  Choice := (c : Call) × c.Ret
  exec := fun _ c choice w =>
    if same : choice.1 = c then
      let answer : c.Ret := same ▸ choice.2
      if w.answers c answer && may c answer then some (answer, w.after c answer)
      else none
    else none
  body

def start (may : (c : Call) → c.Ret → Bool) (e : Ep) : (mirror may).Config where
  state := World.boot
  program := fun _ => fwdPump e 0

end Metal.Net.Fwd
