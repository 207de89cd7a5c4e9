import Metal.Lib.CString
import Mathlib.Data.UInt

namespace Metal.Net.HttpClient

open Metal.Lib

/-! How a fetch of `net/http` takes its response: what it accumulates, where it finds
the end of the header and the length of the body, and when it is done. -/

def strstr (needle : Bytes) : Bytes → Option Bytes
  | [] => none
  | c :: hay =>
      if needle.isPrefixOf (c :: hay) then some (c :: hay) else strstr needle hay

/-- The loop of `scan_uint`, and whether there was a digit. -/
def scanFrom (v : UInt32) (any : Bool) : Bytes → Option UInt32
  | [] => if any then some v else none
  | c :: s =>
      if isDigit c then scanFrom (v * 10 + (c - 48).toUInt32) true s
      else if any then some v else none

def scanUint (s : Bytes) : Option UInt32 := scanFrom 0 false s

/-- `sscanf` with the format `%*[^:]: %u`; its space matches one space. -/
def sscanfClen (k : Bytes) : Option UInt32 :=
  match k.dropWhile (· ≠ 58) with
  | 58 :: 32 :: s => scanUint s
  | _ => none

def recvMax : Nat := 4096

def findHdrEnd : Bytes → Option Nat
  | 13 :: 10 :: 13 :: 10 :: _ => some 4
  | _ :: p => (findHdrEnd p).map (· + 1)
  | [] => none

def parseClen (hdr : Bytes) : Option UInt32 :=
  let tmp := (CString.ofBytes (hdr.take 255)).bytes
  match strstr (ascii "Content-Length:") tmp with
  | some k => sscanfClen k
  | none =>
      match strstr (ascii "content-length:") tmp with
      | some k => sscanfClen k
      | none => none

/-- `acc` with its length, and `acc_cap`. -/
structure Acc where
  bytes : Bytes
  cap : Nat

/-- The doubling of `acc_put`; a capacity that doubles to zero is doubled for ever. -/
def growCap (need cap : Nat) : Option Nat :=
  if need ≤ cap then some cap
  else if _over : cap = 0 ∨ 2 ^ 31 ≤ cap then none
  else growCap need (cap * 2)
  termination_by 2 ^ 31 - cap

inductive Put
  | stuck
  | refused
  | put (acc : Acc)

/-- `mem` tells whether a block of so many bytes is granted. -/
def accPut (mem : Nat → Bool) (acc : Acc) (p : Bytes) : Put :=
  if p.length = 0 then .put acc
  else
    let need := acc.bytes.length + p.length
    if need > acc.cap then
      match growCap need (if acc.cap = 0 then 256 else acc.cap) with
      | none => .stuck
      | some cap => if !mem cap then .refused else .put ⟨acc.bytes ++ p, cap⟩
    else .put { acc with bytes := acc.bytes ++ p }

/-- The results 0, -1 and 1 of `finish_body`. -/
inductive Finish
  | body (out : Bytes)
  | bad
  | short

def finishBody (mem : Nat → Bool) (acc : Bytes) : Finish :=
  match findHdrEnd acc with
  | none => .bad
  | some hdrEnd =>
      if acc.length < 12 ∨ acc.take 5 ≠ ascii "HTTP/" then .bad
      else if acc.getD 9 0 ≠ 50 then .bad
      else
        let have_ := acc.length - hdrEnd
        match parseClen (acc.take hdrEnd) with
        | some clen =>
            if have_ < clen.toNat then .short
            else if !mem (if clen.toNat ≠ 0 then clen.toNat else 1) then .bad
            else .body ((acc.drop hdrEnd).take clen.toNat)
        | none =>
            if !mem (if have_ ≠ 0 then have_ else 1) then .bad
            else .body (acc.drop hdrEnd)

inductive Recv
  | wait
  | got (chunk : Bytes)
  | closed
  | failed

/-- The state of the task after its last step; `stuck` does not return from it. -/
inductive Outcome
  | waiting
  | done (out : Bytes)
  | error
  | stuck

/-- The receive loop of `step_fetch`, resumed whenever it waits. -/
def receive (mem : Nat → Bool) (acc : Acc) : List Recv → Outcome
  | [] => .waiting
  | .wait :: more => receive mem acc more
  | .closed :: _ =>
      match finishBody mem acc.bytes with
      | .body out => .done out
      | _ => .error
  | .failed :: more =>
      match finishBody mem acc.bytes with
      | .body out => .done out
      | .bad => .error
      | .short => receive mem acc more
  | .got chunk :: more =>
      match accPut mem acc chunk with
      | .stuck => .stuck
      | .refused => .error
      | .put acc =>
          match findHdrEnd acc.bytes with
          | none => receive mem acc more
          | some hdrEnd =>
              match parseClen (acc.bytes.take hdrEnd) with
              | none => receive mem acc more
              | some clen =>
                  if acc.bytes.length - hdrEnd ≥ clen.toNat then
                    match finishBody mem acc.bytes with
                    | .body out => .done out
                    | _ => .error
                  else receive mem acc more

def fetch (mem : Nat → Bool) (recvs : List Recv) : Outcome := receive mem ⟨[], 0⟩ recvs

end Metal.Net.HttpClient
