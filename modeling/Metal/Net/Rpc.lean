import Metal.Lib.CString
import Metal.Lib.Window

namespace Metal.Net.Rpc

open Metal.Lib

/-! The pending calls of `net/rpc`: a ring of call slots that `invoke` fills,
`deliver_result` answers and `poll` empties. -/

def callsMax : Nat := 32

def argMax : Nat := 4096

def resultMax : Nat := 4096

instance : NeZero callsMax := ⟨by decide⟩

abbrev CallId := UInt64

def pendingSentinel : Int32 := -100

structure PendingCall where
  valid : Bool
  callId : CallId
  status : Int32
  result : Bytes
  resultLen : Nat

structure State where
  calls : Fin callsMax → PendingCall
  pendingHead : Fin callsMax
  pendingCount : Nat
  nextCallId : CallId

def boot : State where
  calls _ := ⟨false, 0, 0, List.replicate resultMax 0, 0⟩
  pendingHead := 0
  pendingCount := 0
  nextCallId := 1

def compact (calls : Fin callsMax → PendingCall) : Fin callsMax → Nat → Fin callsMax
  | read, 0 => read
  | read, n + 1 => if (calls read).valid then read else compact calls (read + 1) n

def countValid (calls : Fin callsMax → PendingCall) : Fin callsMax → Nat → Nat
  | _, 0 => 0
  | pos, n + 1 => (calls pos).valid.toNat + countValid calls (pos + 1) n

def allocPending (s : State) : Option (Fin callsMax) × State :=
  let head := compact s.calls s.pendingHead s.pendingCount
  let count := countValid s.calls head s.pendingCount
  let s := { s with pendingHead := head, pendingCount := count }
  (if count ≥ callsMax then none else some (slotAfter head count), s)

/-- The call id as the `int64_t` that `invoke` returns. -/
def signed (callId : CallId) : Int :=
  if callId.toNat < 2 ^ 63 then callId.toNat else callId.toNat - 2 ^ 64

/-- What `invoke` checks of its arguments: the key, and the arguments. -/
def invokeArgs (key : Option CString) (args : Option Bytes) (argsLen : UInt32) : Bool :=
  (match key with
    | none => false
    | some key => 0 < key.length) &&
  !(argsLen ≠ 0 && args.isNone) && argsLen.toNat ≤ argMax

def invoke (key : Option CString) (args : Option Bytes) (argsLen : UInt32) (s : State) :
    Int × State :=
  if invokeArgs key args argsLen then
    match allocPending s with
    | (none, s) => (-1, s)
    | (some slot, s) =>
        (signed s.nextCallId,
          { s with
            calls := Function.update s.calls slot
              { s.calls slot with
                valid := true
                callId := s.nextCallId
                status := pendingSentinel
                resultLen := 0 }
            pendingCount := s.pendingCount + 1
            nextCallId := s.nextCallId + 1 })
  else
    (-1, s)

structure Result where
  callId : CallId
  status : Int32
  result : Bytes

def completed (call : PendingCall) : Bool :=
  call.valid && call.status ≠ pendingSentinel

/-- `out` says whether the caller passed a place for the result. -/
def poll (out : Bool) (s : State) : Int × Option Result × State :=
  if out then
    match scan completed s.calls s.pendingHead s.pendingCount with
    | none => (0, none, s)
    | some i =>
        let call := s.calls i
        (1, some ⟨call.callId, call.status,
            call.result.take (min call.resultLen resultMax)⟩,
          { s with
            calls := Function.update s.calls i { call with valid := false }
            pendingCount := s.pendingCount - 1 })
  else
    (-1, none, s)

/-- A slot that waits for the result of `callId`, or has it. -/
def awaits (callId : CallId) (call : PendingCall) : Bool :=
  call.valid && call.callId = callId

def deliverResult (callId : CallId) (status : Int32) (result : Option Bytes)
    (resultLen : Nat) (s : State) : Int × State :=
  match scan (awaits callId) s.calls s.pendingHead s.pendingCount with
  | none => (-1, s)
  | some i =>
      let call := s.calls i
      let len := min resultLen resultMax
      (0, { s with
        calls := Function.update s.calls i
          { call with
            status
            resultLen := len
            result := match result with
              | none => call.result
              | some bytes => memcpy call.result bytes len } })

end Metal.Net.Rpc
