import Metal.Lib.Endian
import Metal.Lib.Memory

namespace Metal.Net.Zenoh

open Metal.Lib

/-! The accept border of `net/zenoh`: frames of a length and a body are read from a
socket that gives them in pieces. -/

def bufMax : Nat := 4096

structure Accept where
  lenKnown : Bool
  len : Nat
  miniOff : Nat
  bodyOff : Nat
  miniBuf : Bytes
  inBuf : Bytes

def Accept.boot : Accept := ⟨false, 0, 0, 0, [0, 0], List.replicate bufMax 0⟩

/-- What the socket has not given yet, and what each `recv` to come answers: an error,
or as many bytes as it may give at most. -/
structure Sock where
  rest : Bytes
  plan : List (Option Nat)

inductive Cause
  | recv
  | length
  | decode

inductive Status
  | error (cause : Cause)
  | park
  | done

/-- The loop of `accept_len_step`; a socket without plan would block. -/
def lenFrom (ac : Accept) (rest : Bytes) : List (Option Nat) → Status × Accept × Sock
  | [] => (if ac.miniOff < 2 then .park else .done, ac, ⟨rest, []⟩)
  | recv :: plan =>
      if ac.miniOff < 2 then
        match recv with
        | none => (.error .recv, ac, ⟨rest, plan⟩)
        | some n =>
            let got := rest.take (min n 2)
            if got.length = 0 then (.park, ac, ⟨rest, plan⟩)
            else
              lenFrom { ac with
                miniBuf := writeAt 0 got ac.miniBuf
                miniOff := ac.miniOff + got.length } (rest.drop got.length) plan
      else (.done, ac, ⟨rest, recv :: plan⟩)

def acceptLenStep (ac : Accept) (sock : Sock) : Status × Accept × Sock :=
  lenFrom ac sock.rest sock.plan

/-- The loop of `accept_body_step`. -/
def bodyFrom (ac : Accept) (rest : Bytes) : List (Option Nat) → Status × Accept × Sock
  | [] => (if ac.bodyOff < ac.len then .park else .done, ac, ⟨rest, []⟩)
  | recv :: plan =>
      if ac.bodyOff < ac.len then
        match recv with
        | none => (.error .recv, ac, ⟨rest, plan⟩)
        | some n =>
            let got := rest.take (min n (ac.len - ac.bodyOff))
            if got.length = 0 then (.park, ac, ⟨rest, plan⟩)
            else
              bodyFrom { ac with
                inBuf := writeAt ac.bodyOff got ac.inBuf
                bodyOff := ac.bodyOff + got.length } (rest.drop got.length) plan
      else (.done, ac, ⟨rest, recv :: plan⟩)

def acceptBodyStep (ac : Accept) (sock : Sock) : Status × Accept × Sock :=
  bodyFrom ac sock.rest sock.plan

/-- The rest of `accept_recv_tmsg` once the length is known, and what the decoder is
handed. -/
def recvBody (decode : Bytes → Bool) (ac : Accept) (sock : Sock) :
    Status × Accept × Sock × Option Bytes :=
  match acceptBodyStep ac sock with
  | (.done, ac, sock) =>
      let body := ac.inBuf.take ac.len
      if decode body then
        (.done, { ac with lenKnown := false, miniOff := 0, bodyOff := 0 }, sock, some body)
      else (.error .decode, ac, sock, some body)
  | (status, ac, sock) => (status, ac, sock, none)

/-- `decode` tells whether the decoder takes a body. -/
def acceptRecvTmsg (decode : Bytes → Bool) (ac : Accept) (sock : Sock) :
    Status × Accept × Sock × Option Bytes :=
  if ac.lenKnown then recvBody decode ac sock
  else
    match acceptLenStep ac sock with
    | (.done, ac, sock) =>
        let len := (ac.miniBuf.getD 0 0).toNat ||| (ac.miniBuf.getD 1 0).toNat <<< 8
        let ac := { ac with len }
        if len > bufMax then (.error .length, ac, sock, none)
        else recvBody decode { ac with lenKnown := true } sock
    | (status, ac, sock) => (status, ac, sock, none)

/-- Calls of `accept_recv_tmsg` until one is -1, and all that they handed to the
decoder. -/
structure Session where
  ac : Accept
  sock : Sock
  handed : List Bytes
  failed : Option Cause

def Session.start (sock : Sock) : Session := ⟨.boot, sock, [], none⟩

def Session.call (decode : Bytes → Bool) (s : Session) : Session :=
  if s.failed.isSome then s
  else
    let (status, ac, sock, body) := acceptRecvTmsg decode s.ac s.sock
    { ac, sock
      handed := s.handed ++ body.toList
      failed := match status with
        | .error cause => some cause
        | _ => none }

end Metal.Net.Zenoh
