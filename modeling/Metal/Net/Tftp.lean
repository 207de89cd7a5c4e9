import Metal.Lib.Words

namespace Metal.Net.Tftp

open Metal.Lib

/-! `net/tftp`: the server's one transfer slot, and a get that collects the
blocks of a file. -/

def nameMax : Nat := 40

def dataMax : Nat := 512

structure Endpoint where
  addr : UInt32
  port : UInt16
  deriving DecidableEq

structure Datagram where
  src : Endpoint
  dst : Endpoint
  bytes : Bytes
  deriving DecidableEq

structure File where
  used : Bool
  name : CString
  data : Bytes
  fits : data.length < 2 ^ 16

structure Xfer where
  live : Bool
  fi : Nat
  peer : Endpoint
  block : UInt16

/-- Names are shorter than `NAME_MAX`, so the loop reaches the end of one. -/
def nameEq (a b : CString) : Bool := a = b

def blocksOf (len : Nat) : Nat := len / dataMax + 1

def getU16 (bytes : Bytes) : UInt16 :=
  (bytes.getD 2 0).toUInt16 <<< 8 ||| (bytes.getD 3 0).toUInt16

def putU16 (v : UInt16) : Bytes := [(v >>> 8).toUInt8, v.toUInt8]

def sendBlock (file : File) (block : UInt16) : Bytes :=
  let off := ((block.toUInt32 - 1) * 512).toNat
  let dlen := min (file.data.length - off) dataMax
  [0, 3] ++ putU16 block ++ (file.data.drop off).take dlen

def sendError (code : UInt8) : Bytes := [0, 5, 0, code, 0]

def requested (bytes : Bytes) : CString :=
  (CString.ofBytes (bytes.drop 2)).strncpy (nameMax - 1)

section Server

variable (files : List File)

/-- One poll of the server with the packet it received, and what it sends
back. -/
def poll (xfer : Xfer) (src : Endpoint) (packet : Bytes) : Xfer × Option Bytes :=
  let buf := packet.take (dataMax + 4)
  if buf.length < 4 ∨ buf.getD 0 0 ≠ 0 then (xfer, none)
  else if buf.getD 1 0 = 4 then
    let acked := getU16 buf
    if ¬ xfer.live ∨ src ≠ xfer.peer ∨ acked ≠ xfer.block then (xfer, none)
    else
      match files[xfer.fi]? with
      | none => (xfer, none)
      | some file =>
          if acked.toNat ≥ blocksOf file.data.length then
            ({ xfer with live := false }, none)
          else
            ({ xfer with block := acked + 1 }, some (sendBlock file (acked + 1)))
  else if buf.getD 1 0 ≠ 1 then (xfer, none)
  else
    let name := requested buf
    match files.findIdx? fun file => file.used && nameEq file.name name with
    | none => (xfer, some (sendError 1))
    | some i => (⟨true, i, src, 1⟩, (files[i]?).map fun file => sendBlock file 1)

end Server

/-- A get that waits for `block`, with what it wrote to the caller's buffer, or
that has returned. -/
inductive Get
  | waiting (block tid : UInt16) (out : Bytes)
  | returned (value : Int) (out : Bytes)
  deriving DecidableEq

def Get.out : Get → Bytes
  | .waiting _ _ out => out
  | .returned _ out => out

def readRequest (name : CString) : Bytes :=
  [0, 1] ++ name.bytes.take (nameMax - 1) ++ [0] ++ ascii "octet" ++ [0]

/-- A packet that a waiting get receives, and the ACK with its destination.
`cap` is the caller's capacity. -/
def receive (cap : UInt32) (block tid : UInt16) (out : Bytes) (src : Endpoint)
    (packet : Bytes) : Get × Option (Endpoint × Bytes) :=
  let buf := packet.take (dataMax + 4)
  let n := buf.length
  if n = 0 then (.waiting block tid out, none)
  else if n < 4 ∨ buf.getD 0 0 ≠ 0 then (.returned (-1) out, none)
  else if buf.getD 1 0 = 5 then (.returned (-1) out, none)
  else if buf.getD 1 0 ≠ 3 ∨ getU16 buf ≠ block then (.waiting block tid out, none)
  else if block ≠ 1 ∧ src.port ≠ tid then (.waiting block tid out, none)
  else
    let tid := if block = 1 then src.port else tid
    let dlen := n - 4
    if (out.length + dlen) % 2 ^ 32 > cap.toNat then (.returned (-1) out, none)
    else
      let out := out ++ buf.drop 4
      let ack := [0, 4, buf.getD 2 0, buf.getD 3 0]
      (if dlen < dataMax then .returned 0 out else .waiting (block + 1) tid out,
        some (⟨src.addr, tid⟩, ack))

end Metal.Net.Tftp
