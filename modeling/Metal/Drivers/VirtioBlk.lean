import Metal.Lib.Sectors
import Metal.Lib.Run

namespace Metal.Drivers.VirtioBlk

open Metal.Lib
open Sectors (Event Write Store Runs Accepts AcceptsWrite)

/-! Reading and writing in `drivers/blk/virtio`: the ram disk of the host, and the request
of the firmware with the device that serves it. -/

def virtioBlkSec : Nat := 512

/-- The arguments of `vb_read` or `vb_write`. -/
structure Call where
  wr : Bool
  lba : Nat
  nsec : Nat
  buffer : Bytes
  lbaWord : lba < 2 ^ 64
  nsecWord : nsec < 2 ^ 32
  whole : buffer.length = nsec * virtioBlkSec

namespace Call

/-- The tests of `vb_rw` and `fw_blk_io`: a sum of 64 bits against the capacity. -/
def passes (call : Call) (cap : Nat) : Bool :=
  decide (call.nsec ≠ 0) && decide ((call.lba + call.nsec) % 2 ^ 64 ≤ cap)

def bytes (call : Call) : Nat := call.nsec * virtioBlkSec % 2 ^ 32

def write (call : Call) : Write := ⟨call.lba, call.buffer⟩

/-- What a call comes to for its caller: whether it was accepted, what it returned and, for
a read, what is in the buffer. -/
def event (call : Call) (accepted : Bool) (result : Int) (buffer : Bytes) : Event :=
  if !accepted then .refused
  else if call.wr then
    if result = 0 then .wrote call.nsec call.write else .writeFailed call.nsec call.write
  else if result = 0 then .read call.lba call.nsec buffer
  else .readFailed call.lba call.nsec

end Call

structure Ram where
  nsec : Nat
  data : Bytes

def Ram.probe (nsec : Nat) : Ram := ⟨nsec, List.replicate (nsec * virtioBlkSec) 0⟩

/-- `memcpy` within two blocks; `none` when it leaves one of them. -/
def memcpy (target : Bytes) (at_ : Nat) (source : Bytes) (offset n : Nat) : Option Bytes :=
  (slice source offset n).bind fun moved =>
    if at_ + n ≤ target.length then some (writeAt at_ moved target) else none

/-- `vb_rw` without a device: the result, the caller's buffer and the disk. -/
def Ram.vbRw (ram : Ram) (call : Call) : Option (Int × Bytes × Ram) :=
  if !call.passes ram.nsec then some (-1, call.buffer, ram)
  else
    let off := call.lba * virtioBlkSec % 2 ^ 64
    if call.wr then
      (memcpy ram.data off call.buffer 0 call.bytes).map fun data =>
        (0, call.buffer, { ram with data := data })
    else
      (memcpy call.buffer 0 ram.data off call.bytes).map fun buffer => (0, buffer, ram)

def Ram.next (s : List Event × Ram) (call : Call) : Option (List Event × Ram) :=
  (s.2.vbRw call).map fun (result, buffer, after) =>
    (s.1 ++ [call.event (decide (result = 0)) result buffer], after)

def spinLimit : Nat := 10000000

/-- What `req` and the three descriptors say; `buf` is the number of the call whose buffer
they point at. -/
structure Request where
  wr : Bool
  lba : Nat
  len : Nat
  buf : Nat

/-- Where the driver is: outside, about to load the used index, or about to load the status
byte. -/
inductive Pc
  | away
  | polling (call : Call) (spins : Nat)
  | changed (call : Call)

def Pc.isAway : Pc → Bool
  | .away => true
  | _ => false

/-- `pending` are the published requests that the device has not completed, each with what
the device read of it if it has. From there on a record of what happened. -/
structure Fw where
  cap : Nat
  lastUsed : UInt16
  stbyte : UInt8
  table : Request
  availIdx : UInt16
  usedIdx : UInt16
  pc : Pc
  memory : Nat → Bytes
  disk : Bytes
  pending : List (Nat × Option Request)
  completed : List (Nat × UInt8)
  calls : Nat
  events : List Event
  succeeded : List Nat

/-- After `fw_blk_attach_pci`. -/
def Fw.attach (cap : Nat) (disk : Bytes) : Fw where
  cap := cap
  lastUsed := 0
  stbyte := 0
  table := ⟨false, 0, 0, 0⟩
  availIdx := 0
  usedIdx := 0
  pc := .away
  memory _ := []
  disk := disk
  pending := []
  completed := []
  calls := 0
  events := []
  succeeded := []

inductive Act
  | call (call : Call)
  | run
  | fetch (number : Nat)
  | complete (status : UInt8) (performed : Bool)

namespace Fw

def publish (s : Fw) (call : Call) : Fw :=
  { s with
    stbyte := 0xff
    table := ⟨call.wr, call.lba, call.bytes, s.calls⟩
    availIdx := s.availIdx + 1
    pc := .polling call 0
    memory := Function.update s.memory s.calls call.buffer
    pending := s.pending ++ [(s.calls, none)]
    calls := s.calls + 1 }

def start (s : Fw) (call : Call) : Fw :=
  match s.pc with
  | .away =>
      if call.passes s.cap then s.publish call
      else { s with events := s.events ++ [Event.refused] }
  | _ => s

def answer (s : Fw) (call : Call) (result : Int) : Fw :=
  { s with
    pc := .away
    events := s.events ++ [call.event true result (s.memory s.table.buf)]
    succeeded := if result = 0 then s.succeeded ++ [s.table.buf] else s.succeeded }

/-- The next load of `fw_blk_io`. -/
def run (s : Fw) : Fw :=
  match s.pc with
  | .away => s
  | .polling call spins =>
      if spins < spinLimit then
        if s.usedIdx ≠ s.lastUsed then { s with lastUsed := s.usedIdx, pc := .changed call }
        else { s with pc := .polling call (spins + 1) }
      else s.answer call (-1)
  | .changed call => s.answer call (if s.stbyte = 0 then 0 else -1)

def fetch (s : Fw) (number : Nat) : Fw :=
  { s with
    pending := s.pending.map fun p =>
      if p.1 = number then (p.1, some (p.2.getD s.table)) else p }

end Fw

def Request.inRange (request : Request) (disk : Bytes) : Bool :=
  decide (request.lba * virtioBlkSec + request.len ≤ disk.length)

namespace Fw

def perform (s : Fw) (request : Request) : Fw :=
  if request.wr then
    { s with
      disk := writeAt (request.lba * virtioBlkSec) ((s.memory request.buf).take request.len) s.disk }
  else
    { s with
      memory := Function.update s.memory request.buf
        (writeAt 0 ((s.disk.drop (request.lba * virtioBlkSec)).take request.len)
          (s.memory request.buf)) }

/-- The device completes its oldest request. One with status 0 it has performed, and it
performs none that leaves the disk. -/
def complete (s : Fw) (status : UInt8) (performed : Bool) : Fw :=
  match s.pending with
  | [] => s
  | (number, got) :: rest =>
      let request := got.getD s.table
      if (status = 0 → performed = true) ∧ (performed = true → request.inRange s.disk = true) then
        { (if performed then s.perform request else s) with
          stbyte := status
          usedIdx := s.usedIdx + 1
          pending := rest
          completed := s.completed ++ [(number, status)] }
      else s

def step (s : Fw) : Act → Fw
  | .call call => s.start call
  | .run => s.run
  | .fetch number => s.fetch number
  | .complete status performed => s.complete status performed

end Fw

/-- No call leaves the disk or a buffer, and the calls come to what the sectors allow. -/
def RamRefines (nsec : Nat) (calls : List Call) : Prop :=
  ∃ events ram, calls.foldlM Ram.next ([], Ram.probe nsec) = some (events, ram) ∧
    Runs virtioBlkSec ⟨(Ram.probe nsec).data, none⟩ events ⟨ram.data, none⟩

/-- The calls came to what the sectors allow, from the disk that was attached, and one that
returned 0 was completed with status 0. -/
def FwRefines (first : Bytes) (s : Fw) : Prop :=
  (∃ store, Runs virtioBlkSec ⟨first, none⟩ s.events store ∧
    (s.pc.isAway = true → store.disk = s.disk)) ∧
  ∀ n ∈ s.succeeded, (n, 0) ∈ s.completed

/-- A call that passes the tests names a sum of 64 bits and a byte count of 32. -/
def Call.Safe (call : Call) (cap : Nat) : Prop :=
  call.passes cap = true → call.lba + call.nsec < 2 ^ 64 ∧ call.nsec * virtioBlkSec < 2 ^ 32

def Fw.Meets (s : Fw) : Act → Prop
  | .call call => s.pc.isAway = true → call.Safe s.cap ∧ (call.passes s.cap = true → s.pending = [])
  | _ => True

section Call

variable {call : Call} {cap : Nat}

theorem accepts_of_passes {disk : Bytes} (size : disk.length = cap * virtioBlkSec)
    (safe : call.Safe cap) (passes : call.passes cap = true) :
    Accepts virtioBlkSec disk call.lba call.nsec := by
  have sum := (safe passes).1
  rw [Call.passes, Bool.and_eq_true, decide_eq_true_eq, decide_eq_true_eq, Nat.mod_eq_of_lt sum]
    at passes
  refine ⟨Nat.pos_of_ne_zero passes.1, ?_⟩
  rw [size]
  exact Nat.mul_le_mul_right _ passes.2

theorem bytes_of_passes (safe : call.Safe cap) (passes : call.passes cap = true) :
    call.bytes = call.nsec * virtioBlkSec :=
  Nat.mod_eq_of_lt (safe passes).2

end Call

section Ram

variable {ram : Ram} {call : Call}

theorem slice_all (block : Bytes) : slice block 0 block.length = some block := by
  rw [slice, if_pos (by omega), List.drop_zero, List.take_length]

theorem writeAt_all {new target : Bytes} (same : new.length = target.length) :
    writeAt 0 new target = new := by
  rw [writeAt, List.take_zero, Nat.zero_add, same, List.drop_length, List.nil_append,
    List.append_nil]

theorem slice_of_le {block : Bytes} {offset n : Nat} (fits : offset + n ≤ block.length) :
    ∃ found, slice block offset n = some found ∧ found.length = n := by
  refine ⟨_, if_pos fits, ?_⟩
  rw [List.length_take, List.length_drop]
  omega

theorem memcpy_eq {target source moved : Bytes} {at_ offset n : Nat}
    (found : slice source offset n = some moved) (fits : at_ + n ≤ target.length) :
    memcpy target at_ source offset n = some (writeAt at_ moved target) := by
  unfold memcpy
  rw [found, Option.bind_some, if_pos fits]

theorem vbRw_passes (size : ram.data.length = ram.nsec * virtioBlkSec) (word : ram.nsec < 2 ^ 32)
    (safe : call.Safe ram.nsec) (passes : call.passes ram.nsec = true) :
    (call.wr = true → ram.vbRw call =
      some (0, call.buffer, { ram with data := call.write.on virtioBlkSec ram.data })) ∧
    (call.wr = false → ∃ found,
      slice ram.data (call.lba * virtioBlkSec) (call.nsec * virtioBlkSec) = some found ∧
        ram.vbRw call = some (0, found, ram)) := by
  have accepts := accepts_of_passes size safe passes
  have bytes := bytes_of_passes safe passes
  have inside : call.lba * virtioBlkSec + call.nsec * virtioBlkSec ≤ ram.data.length := by
    rw [← Nat.add_mul]
    exact accepts.2
  have off : call.lba * virtioBlkSec % 2 ^ 64 = call.lba * virtioBlkSec := by
    refine Nat.mod_eq_of_lt ?_
    rw [size, virtioBlkSec] at inside
    rw [virtioBlkSec]
    omega
  constructor
  · intro wr
    have source : slice call.buffer 0 (call.nsec * virtioBlkSec) = some call.buffer :=
      call.whole ▸ slice_all call.buffer
    simp [-Nat.reducePow, Ram.vbRw, passes, wr, off, bytes, memcpy_eq source inside, Call.write,
      Write.on]
  · intro rd
    obtain ⟨found, there, long⟩ := slice_of_le inside
    refine ⟨found, there, ?_⟩
    have all : writeAt 0 found call.buffer = found := writeAt_all (long.trans call.whole.symm)
    have fits : 0 + call.nsec * virtioBlkSec ≤ call.buffer.length := by
      rw [Nat.zero_add, call.whole]
    simp [-Nat.reducePow, Ram.vbRw, passes, rd, off, bytes, memcpy_eq there fits, all]

structure RamInv (nsec : Nat) (s : List Event × Ram) : Prop where
  rows : s.2.nsec = nsec
  size : s.2.data.length = nsec * virtioBlkSec
  runs : Runs virtioBlkSec ⟨(Ram.probe nsec).data, none⟩ s.1 ⟨s.2.data, none⟩

theorem ram_next {nsec : Nat} {s : List Event × Ram} (word : nsec < 2 ^ 32)
    (inv : RamInv nsec s) (safe : call.Safe nsec) :
    ∃ s', Ram.next s call = some s' ∧ RamInv nsec s' := by
  obtain ⟨events, ram⟩ := s
  obtain ⟨rfl, size, runs⟩ := inv
  cases passes : call.passes ram.nsec with
  | false =>
      have refused : ram.vbRw call = some (-1, call.buffer, ram) := by
        rw [Ram.vbRw, passes]
        rfl
      exact ⟨(events ++ [Event.refused], ram), by rw [Ram.next, refused]; rfl, rfl, size,
        .refused runs⟩
  | true =>
      have accepts := accepts_of_passes size safe passes
      obtain ⟨writes, reads⟩ := vbRw_passes size word safe passes
      cases wr : call.wr with
      | true =>
          have whole : AcceptsWrite virtioBlkSec ram.data call.nsec call.write :=
            ⟨accepts, call.whole⟩
          refine ⟨(events ++ [Event.wrote call.nsec call.write],
            { ram with data := call.write.on virtioBlkSec ram.data }), ?_, rfl,
            (Write.length_on whole).trans size, .wrote runs whole⟩
          rw [Ram.next, writes wr]
          simp [Call.event, wr]
      | false =>
          obtain ⟨found, there, done⟩ := reads wr
          refine ⟨(events ++ [Event.read call.lba call.nsec found], ram), ?_, rfl, size,
            .read runs accepts there⟩
          rw [Ram.next, done]
          simp [Call.event, wr]

theorem ram_refines {nsec : Nat} (word : nsec < 2 ^ 32) {calls : List Call}
    (safe : ∀ call ∈ calls, call.Safe nsec) : RamRefines nsec calls := by
  suffices ends : ∃ s, calls.foldlM Ram.next ([], Ram.probe nsec) = some s ∧ RamInv nsec s by
    obtain ⟨⟨events, ram⟩, run, inv⟩ := ends
    exact ⟨events, ram, run, inv.runs⟩
  have start : RamInv nsec ([], Ram.probe nsec) := ⟨rfl, List.length_replicate, .start _⟩
  revert start
  generalize (([], Ram.probe nsec) : List Event × Ram) = s
  intro inv
  induction calls generalizing s with
  | nil => exact ⟨s, rfl, inv⟩
  | cons call rest ih =>
      obtain ⟨s', next, inv'⟩ := ram_next word inv (safe call List.mem_cons_self)
      obtain ⟨last, run, inv''⟩ :=
        ih (fun other among => safe other (List.mem_cons_of_mem call among)) s' inv'
      exact ⟨last, by rw [List.foldlM_cons, next]; exact run, inv''⟩

end Ram

structure Asked (s : Fw) (call : Call) : Prop where
  wr : s.table.wr = call.wr
  lba : s.table.lba = call.lba
  len : s.table.len = call.nsec * virtioBlkSec
  accepts : Accepts virtioBlkSec s.disk call.lba call.nsec

/-- The device has not completed this call's request, and no other is in the ring. -/
structure Waits (s : Fw) (call : Call) : Prop extends Asked s call where
  pending : ∃ got, s.pending = [(s.table.buf, got)] ∧ (got = none ∨ got = some s.table)
  buffer : s.memory s.table.buf = call.buffer

structure Finished (disk : Bytes) (s : Fw) (call : Call) : Prop where
  accepts : Accepts virtioBlkSec disk call.lba call.nsec
  size : s.disk.length = disk.length
  pending : s.pending = []
  completed : (s.table.buf, s.stbyte) ∈ s.completed
  wrote : call.wr = true →
    s.disk = call.write.on virtioBlkSec disk ∨ s.stbyte ≠ 0 ∧ s.disk = disk
  read : call.wr = false → s.disk = disk ∧ (s.stbyte = 0 →
    slice disk (call.lba * virtioBlkSec) (call.nsec * virtioBlkSec) =
      some (s.memory s.table.buf))

inductive Pc.Of (call : Call) : Pc → Prop
  | polling (spins : Nat) : Of call (.polling call spins)
  | changed : Of call (.changed call)

def Call.owed (call : Call) : Option Write := if call.wr then some call.write else none

inductive Stage (first : Bytes) (s : Fw) : Prop
  | idle (away : s.pc = .away) (pending : s.pending = [])
      (runs : Runs virtioBlkSec ⟨first, none⟩ s.events ⟨s.disk, none⟩)
  | left {call : Call} (away : s.pc = .away) (waits : Waits s call)
      (runs : Runs virtioBlkSec ⟨first, none⟩ s.events ⟨s.disk, call.owed⟩)
  | busy {call : Call} (inside : s.pc.Of call) (waits : Waits s call) (unset : s.stbyte = 0xff)
      (runs : Runs virtioBlkSec ⟨first, none⟩ s.events ⟨s.disk, none⟩)
  | done {call : Call} {disk : Bytes} (inside : s.pc.Of call) (finished : Finished disk s call)
      (runs : Runs virtioBlkSec ⟨first, none⟩ s.events ⟨disk, none⟩)

structure FwInv (first : Bytes) (s : Fw) : Prop where
  size : s.disk.length = s.cap * virtioBlkSec
  stage : Stage first s
  succeeded : ∀ n ∈ s.succeeded, (n, 0) ∈ s.completed

section Fw

variable {first disk : Bytes} {s : Fw} {call : Call}

variable {events : List Event}

theorem Runs.gaveUp (runs : Runs virtioBlkSec ⟨first, none⟩ events ⟨disk, none⟩)
    (accepts : Accepts virtioBlkSec disk call.lba call.nsec) (buffer : Bytes) :
    Runs virtioBlkSec ⟨first, none⟩ (events ++ [call.event true (-1) buffer])
      ⟨disk, call.owed⟩ := by
  cases wr : call.wr with
  | true =>
      have event : call.event true (-1) buffer = .writeFailed call.nsec call.write := by
        simp [Call.event, wr]
      rw [event, Call.owed, wr]
      exact .writeFailed runs ⟨accepts, call.whole⟩
  | false =>
      have event : call.event true (-1) buffer = .readFailed call.lba call.nsec := by
        simp [Call.event, wr]
      rw [event, Call.owed, wr]
      exact .readFailed runs accepts

theorem Runs.lapse (runs : Runs virtioBlkSec ⟨first, none⟩ events ⟨disk, call.owed⟩) :
    Runs virtioBlkSec ⟨first, none⟩ events ⟨disk, none⟩ := by
  unfold Call.owed at runs
  split at runs
  · exact .lapsed runs
  · exact runs

theorem Finished.settle (finished : Finished disk s call)
    (runs : Runs virtioBlkSec ⟨first, none⟩ events ⟨disk, call.owed⟩) :
    Runs virtioBlkSec ⟨first, none⟩ events ⟨s.disk, none⟩ := by
  cases wr : call.wr with
  | true =>
      rcases finished.wrote wr with happened | ⟨_, same⟩
      · rw [Call.owed, wr] at runs
        rw [happened]
        exact .late runs
      · rw [same]
        exact Runs.lapse runs
  | false =>
      rw [(finished.read wr).1]
      exact Runs.lapse runs

theorem Finished.succeeded (finished : Finished disk s call) (zero : s.stbyte = 0)
    (runs : Runs virtioBlkSec ⟨first, none⟩ s.events ⟨disk, none⟩) :
    Runs virtioBlkSec ⟨first, none⟩
      (s.events ++ [call.event true 0 (s.memory s.table.buf)]) ⟨s.disk, none⟩ := by
  cases wr : call.wr with
  | true =>
      have event (buffer : Bytes) : call.event true 0 buffer = .wrote call.nsec call.write := by
        simp [Call.event, wr]
      rcases finished.wrote wr with happened | ⟨other, _⟩
      · rw [event, happened]
        exact .wrote runs ⟨finished.accepts, call.whole⟩
      · exact absurd zero other
  | false =>
      have event (buffer : Bytes) :
          call.event true 0 buffer = .read call.lba call.nsec buffer := by
        simp [Call.event, wr]
      obtain ⟨same, found⟩ := finished.read wr
      rw [event, same]
      exact .read runs finished.accepts (found zero)

section FwInv

variable (inv : FwInv first s)
include inv

theorem FwInv.start (meets : s.Meets (.call call)) : FwInv first (s.start call) := by
  unfold Fw.start
  split
  · rename_i away
    obtain ⟨safe, idle⟩ := meets (by rw [away]; rfl)
    cases passes : call.passes s.cap with
    | false =>
        rw [if_neg (by decide)]
        refine ⟨inv.size, ?_, inv.succeeded⟩
        cases inv.stage with
        | idle away pending runs => exact .idle away pending (.refused runs)
        | left away waits runs =>
            exact .left away ⟨⟨waits.wr, waits.lba, waits.len, waits.accepts⟩, waits.pending,
              waits.buffer⟩ (.refused runs)
        | busy inside | done inside => rw [away] at inside; cases inside
    | true =>
        rw [if_pos rfl]
        have empty := idle passes
        have accepts := accepts_of_passes inv.size safe passes
        have waits : Waits (s.publish call) call :=
          { wr := rfl
            lba := rfl
            len := bytes_of_passes safe passes
            accepts := accepts
            pending := ⟨none, by simp [Fw.publish, empty], .inl rfl⟩
            buffer := Function.update_self _ _ _ }
        refine ⟨inv.size, ?_, inv.succeeded⟩
        cases inv.stage with
        | idle _ _ runs => exact .busy (.polling 0) waits rfl runs
        | left _ waits _ =>
            obtain ⟨_, pending, _⟩ := waits.pending
            rw [empty] at pending
            cases pending
        | busy inside | done inside => rw [away] at inside; cases inside
  · exact inv

theorem answer_unset (waits : Waits s call)
    (runs : Runs virtioBlkSec ⟨first, none⟩ s.events ⟨s.disk, none⟩) :
    FwInv first (s.answer call (-1)) :=
  ⟨inv.size, .left rfl ⟨⟨waits.wr, waits.lba, waits.len, waits.accepts⟩, waits.pending,
    waits.buffer⟩ (Runs.gaveUp runs waits.accepts _), inv.succeeded⟩

theorem answer_failed (finished : Finished disk s call)
    (runs : Runs virtioBlkSec ⟨first, none⟩ s.events ⟨disk, none⟩) :
    FwInv first (s.answer call (-1)) :=
  ⟨inv.size, .idle rfl finished.pending
    (finished.settle (Runs.gaveUp runs finished.accepts _)), inv.succeeded⟩

theorem answer_succeeded (finished : Finished disk s call)
    (runs : Runs virtioBlkSec ⟨first, none⟩ s.events ⟨disk, none⟩) (zero : s.stbyte = 0) :
    FwInv first (s.answer call 0) := by
  refine ⟨inv.size, .idle rfl finished.pending (finished.succeeded zero runs), ?_⟩
  intro n among
  rcases List.mem_append.mp among with old | new
  · exact inv.succeeded n old
  · rw [List.mem_singleton.mp new]
    exact zero ▸ finished.completed

theorem FwInv.goto {pc : Pc} {lastUsed : UInt16} (within : s.pc.Of call)
    (next : pc.Of call) (only : ∀ other, s.pc.Of other → other = call) :
    FwInv first { s with lastUsed := lastUsed, pc := pc } := by
  refine ⟨inv.size, ?_, inv.succeeded⟩
  cases inv.stage with
  | idle away => rw [away] at within; cases within
  | left away => rw [away] at within; cases within
  | busy inside waits unset runs =>
      obtain rfl := only _ inside
      exact .busy next ⟨⟨waits.wr, waits.lba, waits.len, waits.accepts⟩, waits.pending,
        waits.buffer⟩ unset runs
  | done inside finished runs =>
      obtain rfl := only _ inside
      exact .done next ⟨finished.accepts, finished.size, finished.pending, finished.completed,
        finished.wrote, finished.read⟩ runs

theorem FwInv.run : FwInv first s.run := by
  unfold Fw.run
  split
  · exact inv
  · rename_i call spins here
    have within : s.pc.Of call := here ▸ .polling spins
    have only (other : Call) (inside : s.pc.Of other) : other = call := by
      rw [here] at inside
      cases inside
      rfl
    split
    · split
      · exact inv.goto within .changed only
      · exact inv.goto within (.polling _) only
    · cases inv.stage with
      | idle away | left away => rw [away] at within; cases within
      | busy inside waits _ runs =>
          obtain rfl := only _ inside
          exact answer_unset inv waits runs
      | done inside finished runs =>
          obtain rfl := only _ inside
          exact answer_failed inv finished runs
  · rename_i call here
    have within : s.pc.Of call := here ▸ .changed
    have only (other : Call) (inside : s.pc.Of other) : other = call := by
      rw [here] at inside
      cases inside
      rfl
    cases inv.stage with
    | idle away | left away => rw [away] at within; cases within
    | busy inside waits unset runs =>
        obtain rfl := only _ inside
        rw [unset, if_neg (by decide)]
        exact answer_unset inv waits runs
    | done inside finished runs =>
        obtain rfl := only _ inside
        split
        · rename_i zero
          exact answer_succeeded inv finished runs zero
        · exact answer_failed inv finished runs

end FwInv

theorem Waits.fetch (waits : Waits s call) (number : Nat) : Waits (s.fetch number) call := by
  refine ⟨⟨waits.wr, waits.lba, waits.len, waits.accepts⟩, ?_, waits.buffer⟩
  obtain ⟨got, pending, known⟩ := waits.pending
  simp only [Fw.fetch, pending, List.map_cons, List.map_nil]
  split
  · refine ⟨_, rfl, .inr ?_⟩
    rcases known with rfl | rfl <;> rfl
  · exact ⟨got, rfl, known⟩

theorem FwInv.fetch (inv : FwInv first s) (number : Nat) : FwInv first (s.fetch number) := by
  refine ⟨inv.size, ?_, inv.succeeded⟩
  cases inv.stage with
  | idle away pending runs =>
      exact .idle away (by rw [Fw.fetch, pending]; rfl) runs
  | left away waits runs => exact .left away (waits.fetch number) runs
  | busy inside waits unset runs => exact .busy inside (waits.fetch number) unset runs
  | done inside finished runs =>
      exact .done inside ⟨finished.accepts, finished.size, by rw [Fw.fetch, finished.pending]; rfl,
        finished.completed, finished.wrote, finished.read⟩ runs

theorem Waits.perform (waits : Waits s call) :
    (call.wr = true → (s.perform s.table).disk = call.write.on virtioBlkSec s.disk) ∧
    (call.wr = false → (s.perform s.table).disk = s.disk ∧
      slice s.disk (call.lba * virtioBlkSec) (call.nsec * virtioBlkSec) =
        some ((s.perform s.table).memory s.table.buf)) := by
  have inside : call.lba * virtioBlkSec + call.nsec * virtioBlkSec ≤ s.disk.length := by
    rw [← Nat.add_mul]
    exact waits.accepts.2
  constructor
  · intro wr
    have all : (s.memory s.table.buf).take s.table.len = call.buffer := by
      rw [waits.buffer, waits.len, ← call.whole, List.take_length]
    rw [Fw.perform, waits.wr, wr, if_pos rfl, all, waits.lba]
    rfl
  · intro rd
    obtain ⟨found, there, long⟩ := slice_of_le inside
    have moved : (s.disk.drop (s.table.lba * virtioBlkSec)).take s.table.len = found := by
      rw [slice, if_pos inside] at there
      rw [waits.lba, waits.len]
      exact Option.some.inj there
    have same : found.length = (s.memory s.table.buf).length := by
      rw [long, waits.buffer, call.whole]
    rw [Fw.perform, waits.wr, rd, if_neg (by decide)]
    refine ⟨rfl, ?_⟩
    rw [there, moved, writeAt_all same]
    simp

/-- The device completes the request that it has, which it performs or not. -/
def completed (s : Fw) (status : UInt8) (performed : Bool) : Fw :=
  { (if performed then s.perform s.table else s) with
    stbyte := status
    usedIdx := s.usedIdx + 1
    pending := []
    completed := s.completed ++ [(s.table.buf, status)] }

theorem Waits.complete (waits : Waits s call) (status : UInt8) (performed : Bool) :
    s.complete status performed = s ∨
      (status = 0 → performed = true) ∧
        s.complete status performed = completed s status performed := by
  obtain ⟨got, pending, known⟩ := waits.pending
  have request : got.getD s.table = s.table := by
    rcases known with rfl | rfl <;> rfl
  unfold Fw.complete
  rw [pending]
  dsimp only
  rw [request]
  split
  · rename_i allowed
    exact .inr ⟨allowed.1, rfl⟩
  · exact .inl rfl

theorem disk_completed (status : UInt8) (performed : Bool) :
    (completed s status performed).disk =
      if performed = true then (s.perform s.table).disk else s.disk := by
  unfold completed
  split <;> rfl

theorem length_completed (waits : Waits s call) (status : UInt8) (performed : Bool) :
    (completed s status performed).disk.length = s.disk.length := by
  obtain ⟨writes, reads⟩ := waits.perform
  rw [disk_completed]
  split
  · cases wr : call.wr with
    | true => rw [writes wr, Write.length_on ⟨waits.accepts, call.whole⟩]
    | false => rw [(reads wr).1]
  · rfl

theorem Waits.finished (waits : Waits s call) {status : UInt8} {performed : Bool}
    (ok : status = 0 → performed = true) :
    Finished s.disk (completed s status performed) call := by
  obtain ⟨writes, reads⟩ := waits.perform
  have table : (completed s status performed).table = s.table := by
    unfold completed Fw.perform
    split
    · split <;> rfl
    · rfl
  refine ⟨waits.accepts, length_completed waits status performed, rfl, ?_, fun wr => ?_,
    fun rd => ⟨?_, fun zero => ?_⟩⟩
  · rw [table]
    exact List.mem_append_right _ (List.mem_singleton.mpr rfl)
  · rw [disk_completed]
    cases performed with
    | true => exact .inl (writes wr)
    | false => exact .inr ⟨fun zero => Bool.false_ne_true (ok zero), rfl⟩
  · rw [disk_completed]
    split
    · exact (reads rd).1
    · rfl
  · obtain rfl : performed = true := ok zero
    rw [table]
    exact (reads rd).2

theorem FwInv.complete (inv : FwInv first s) (status : UInt8) (performed : Bool) :
    FwInv first (s.complete status performed) := by
  have nothing (pending : s.pending = []) : s.complete status performed = s := by
    rw [Fw.complete, pending]
  have keeps : (completed s status performed).cap = s.cap ∧
      (completed s status performed).succeeded = s.succeeded ∧
      (completed s status performed).events = s.events ∧
      (completed s status performed).pc = s.pc := by
    unfold completed Fw.perform
    split
    · split <;> exact ⟨rfl, rfl, rfl, rfl⟩
    · exact ⟨rfl, rfl, rfl, rfl⟩
  obtain ⟨cap, succeeded, events, pc⟩ := keeps
  have moved {call : Call} (waits : Waits s call)
      (stage : Stage first (completed s status performed)) :
      FwInv first (completed s status performed) := by
    refine ⟨?_, stage, fun n among => ?_⟩
    · rw [length_completed waits, cap, inv.size]
    · exact List.mem_append_left _ (inv.succeeded n (succeeded ▸ among))
  cases inv.stage with
  | idle _ pending _ =>
      rw [nothing pending]
      exact inv
  | done _ finished _ =>
      rw [nothing finished.pending]
      exact inv
  | busy inside waits _ runs =>
      rcases waits.complete status performed with same | ⟨ok, completes⟩
      · rw [same]
        exact inv
      · rw [completes]
        exact moved waits (.done (pc ▸ inside) (waits.finished ok) (events ▸ runs))
  | left away waits runs =>
      rcases waits.complete status performed with same | ⟨ok, completes⟩
      · rw [same]
        exact inv
      · rw [completes]
        exact moved waits (.idle (pc.trans away) rfl ((waits.finished ok).settle (events ▸ runs)))

theorem FwInv.step {act : Act} (inv : FwInv first s) (meets : s.Meets act) :
    FwInv first (s.step act) := by
  cases act with
  | call call => exact inv.start meets
  | run => exact inv.run
  | fetch number => exact inv.fetch number
  | complete status performed => exact inv.complete status performed

theorem fwInv_of_run {cap : Nat} {acts : List Act} (size : disk.length = cap * virtioBlkSec)
    (along : Along Fw.step Fw.Meets (Fw.attach cap disk) acts) :
    FwInv disk (acts.foldl Fw.step (Fw.attach cap disk)) :=
  along.invariant (fun _ _ inv meets => inv.step meets)
    ⟨size, .idle rfl rfl (.start _), nofun⟩

theorem FwInv.refines (inv : FwInv first s) : FwRefines first s := by
  refine ⟨?_, inv.succeeded⟩
  cases inv.stage with
  | idle _ _ runs | left _ _ runs | busy _ _ _ runs => exact ⟨_, runs, fun _ => rfl⟩
  | done inside _ runs =>
      refine ⟨_, runs, fun away => ?_⟩
      cases pc : s.pc with
      | away => rw [pc] at inside; cases inside
      | polling call spins => rw [pc] at away; cases away
      | changed call => rw [pc] at away; cases away

end Fw

/-- Both kinds of disk, in runs whose calls all meet the condition. -/
theorem blk_refines {nsec cap : Nat} (word : nsec < 2 ^ 32) (calls : List Call)
    {disk : Bytes} (size : disk.length = cap * virtioBlkSec) (acts : List Act) :
    ((∀ call ∈ calls, call.Safe nsec) → RamRefines nsec calls) ∧
      (Along Fw.step Fw.Meets (Fw.attach cap disk) acts →
        FwRefines disk (acts.foldl Fw.step (Fw.attach cap disk))) :=
  ⟨fun safe => ram_refines word safe, fun along => (fwInv_of_run size along).refines⟩

def sectorCall (wr : Bool) (lba : Nat) (fill : UInt8) (lbaWord : lba < 2 ^ 64) : Call where
  wr := wr
  lba := lba
  nsec := 1
  buffer := List.replicate virtioBlkSec fill
  lbaWord := lbaWord
  nsecWord := by decide
  whole := by rw [List.length_replicate, Nat.one_mul]

def twoSectors : Bytes := List.replicate 1024 0

def wroteCall : Call := sectorCall true 1 7 (by decide)

def readCall : Call := sectorCall false 1 0 (by decide)

def writeThenRead : List Act :=
  [.call wroteCall, .complete 0 true, .run, .run,
    .call readCall, .fetch 1, .complete 0 true, .run, .run]

/-- A sector is written and read back. -/
theorem blk_refines_two :
    RamRefines 2 [wroteCall, readCall] ∧
      FwRefines twoSectors (writeThenRead.foldl Fw.step (Fw.attach 2 twoSectors)) ∧
      (writeThenRead.foldl Fw.step (Fw.attach 2 twoSectors)).events =
        [.wrote 1 wroteCall.write, .read 1 1 (List.replicate virtioBlkSec 7)] := by
  have safe (call : Call) (among : call ∈ [wroteCall, readCall]) : call.Safe 2 := by
    intro _
    simp only [List.mem_cons, List.not_mem_nil, or_false] at among
    rcases among with rfl | rfl <;> decide
  have meets (call : Call) (among : call ∈ [wroteCall, readCall]) (s : Fw)
      (left : s.cap = 2 ∧ s.pending.isEmpty = true) : s.Meets (.call call) :=
    fun _ => ⟨left.1.symm ▸ safe call among, fun _ => List.isEmpty_iff.mp left.2⟩
  have size : twoSectors.length = 2 * virtioBlkSec := by
    rw [twoSectors, List.length_replicate]
    rfl
  have two : 2 < 2 ^ 32 := by decide
  have both := blk_refines two [wroteCall, readCall] size writeThenRead
  refine ⟨both.1 safe, both.2 ⟨meets wroteCall List.mem_cons_self _ (by decide +kernel), trivial,
    trivial, trivial, ?_, trivial, trivial, trivial, trivial, trivial⟩, by decide +kernel⟩
  exact meets readCall (List.mem_cons_of_mem _ List.mem_cons_self) _ (by decide +kernel)

theorem polls (s : Fw) (call : Call) (same : s.usedIdx = s.lastUsed) (k n : Nat)
    (within : k + n ≤ spinLimit) :
    (List.replicate n Act.run).foldl Fw.step { s with pc := .polling call k } =
      { s with pc := .polling call (k + n) } := by
  induction n generalizing k with
  | zero => rfl
  | succ n ih =>
      have next : Fw.step { s with pc := .polling call k } .run =
          { s with pc := .polling call (k + 1) } := by
        rw [Fw.step, Fw.run]
        dsimp only
        rw [if_pos (by omega), if_neg (not_not.mpr same)]
      rw [List.replicate_succ, List.foldl_cons, next, ih (k + 1) (by omega),
        Nat.add_right_comm, Nat.add_assoc]

/-- The device reads the request of a call and completes it in the next call. -/
def firstRead : Fw :=
  [.call (sectorCall false 0 7 (by decide)), .fetch 0].foldl Fw.step (Fw.attach 2 twoSectors)

def lateRun : List Act :=
  [Act.call (sectorCall false 0 7 (by decide)), .fetch 0] ++ List.replicate spinLimit Act.run ++
    [Act.run, .call (sectorCall false 1 7 (by decide)), .complete 0 true, .run, .run]

theorem lateRun_succeeds :
    (lateRun.foldl Fw.step (Fw.attach 2 twoSectors)).succeeded = [1] ∧
      (lateRun.foldl Fw.step (Fw.attach 2 twoSectors)).completed = [(0, 0)] := by
  have polled : (List.replicate spinLimit Act.run).foldl Fw.step firstRead =
      { firstRead with pc := .polling (sectorCall false 0 7 (by decide)) spinLimit } :=
    (polls firstRead _ rfl 0 spinLimit (by omega)).trans (by rw [Nat.zero_add])
  rw [lateRun, List.foldl_append, List.foldl_append]
  change (List.foldl Fw.step ((List.replicate spinLimit Act.run).foldl Fw.step firstRead) _).succeeded
    = [1] ∧ (List.foldl Fw.step ((List.replicate spinLimit Act.run).foldl Fw.step firstRead)
      _).completed = [(0, 0)]
  rw [polled]
  decide +kernel

/-- The sum wraps, and the ram disk is left; the completion of one call is another's. -/
theorem blk_refines_fails :
    (¬∀ nsec < 2 ^ 32, ∀ calls : List Call, RamRefines nsec calls) ∧
      ¬∀ (cap : Nat) (disk : Bytes) (acts : List Act), disk.length = cap * virtioBlkSec →
        FwRefines disk (acts.foldl Fw.step (Fw.attach cap disk)) := by
  constructor
  · intro claim
    obtain ⟨events, ram, run, _⟩ := claim 1 (by decide) [sectorCall true (2 ^ 64 - 1) 7 (by decide)]
    have faults : ([sectorCall true (2 ^ 64 - 1) 7 (by decide)].foldlM Ram.next
        ([], Ram.probe 1)).isNone = true := by decide +kernel
    rw [run] at faults
    cases faults
  · intro claim
    obtain ⟨succeeded, completed⟩ := lateRun_succeeds
    have answered := (claim 2 twoSectors lateRun (by rw [twoSectors, List.length_replicate]; rfl)).2
    rw [succeeded, completed] at answered
    exact absurd (answered 1 List.mem_cons_self) (by decide)

end Metal.Drivers.VirtioBlk
