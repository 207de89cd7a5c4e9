import Metal.Net.Tftp
import Mathlib.Logic.Relation

namespace Metal.Net.Tftp

open Metal.Lib

/-! One get against the server over a network that loses, duplicates, delays
and reorders: what arrives is what was sent at some time before. -/

section Runs

variable (files : List File) (server me : Endpoint) (cap : UInt32)

structure World where
  xfer : Xfer
  get : Get
  sent : List Datagram

/-- The get that asks for `name` has sent its request. -/
def World.start (xfer : Xfer) (name : CString) : World where
  xfer
  get := .waiting 1 server.port []
  sent := [⟨me, server, readRequest name⟩]

/-- The server polls and receives a datagram of the get, or of any other socket
that talks to it. -/
def World.serve (w : World) (d : Datagram) : World :=
  let (xfer, reply) := poll files w.xfer d.src d.bytes
  { w with
    xfer
    sent := w.sent ++ reply.toList.map fun bytes => ⟨server, d.src, bytes⟩ }

def World.deliver (w : World) (d : Datagram) : World :=
  match w.get with
  | .waiting block tid out =>
      let (get, ack) := receive cap block tid out d.src d.bytes
      { w with
        get
        sent := w.sent ++ ack.toList.map fun (dst, bytes) => ⟨me, dst, bytes⟩ }
  | .returned _ _ => w

def World.giveUp (w : World) : World :=
  match w.get with
  | .waiting _ _ out => { w with get := .returned (-1) out }
  | .returned _ _ => w

inductive Step : World → World → Prop
  | serve (w : World) (d : Datagram) (known : d ∈ w.sent ∨ d.src ≠ me)
      (here : d.dst = server) : Step w (w.serve files server d)
  | deliver (w : World) (d : Datagram) (known : d ∈ w.sent) (here : d.dst = me) :
      Step w (w.deliver me cap d)
  | giveUp (w : World) : Step w w.giveUp

def served (name : CString) : Option File :=
  files.find? fun file => file.used && nameEq file.name name

/-- A get that returned 0 wrote the file served under that name, and no get
writes past the capacity. -/
def Exact (name : CString) (get : Get) : Prop :=
  get.out.length ≤ cap.toNat ∧
    ∀ out, get = .returned 0 out →
      ∃ file, served files name = some file ∧ out = file.data

end Runs

theorem getU16_putU16 (head second : UInt8) (v : UInt16) (rest : Bytes) :
    getU16 ([head, second] ++ putU16 v ++ rest) = v :=
  beU16_beBytes16 v rest

def block (data : Bytes) (k : Nat) : Bytes := (data.drop (512 * k)).take 512

variable {number : UInt16}

theorem sendBlock_eq {file : File} (positive : 1 ≤ number.toNat)
    (inside : number.toNat ≤ blocksOf file.data.length) :
    sendBlock file number =
      [0, 3] ++ putU16 number ++ block file.data (number.toNat - 1) := by
  have few : blocksOf file.data.length ≤ 128 := by
    have := file.fits
    unfold blocksOf dataMax
    omega
  have off : ((number.toUInt32 - 1) * 512).toNat = 512 * (number.toNat - 1) := by
    rw [UInt32.toNat_mul, UInt32.toNat_sub_of_le _ _ (by
      rw [UInt32.le_iff_toNat_le]
      exact positive), UInt16.toNat_toUInt32]
    change (number.toNat - 1) * 512 % 2 ^ 32 = _
    omega
  unfold sendBlock block
  dsimp only
  rw [off, dataMax, ← List.length_drop, Nat.min_comm, ← List.take_take,
    List.take_length]

theorem length_block_le (data : Bytes) (k : Nat) : (block data k).length ≤ 512 :=
  List.length_take_le ..

theorem take_sendBlock {file : File} (positive : 1 ≤ number.toNat)
    (inside : number.toNat ≤ blocksOf file.data.length) :
    (sendBlock file number).take (dataMax + 4) =
      [0, 3] ++ putU16 number ++ block file.data (number.toNat - 1) := by
  have size := length_block_le file.data (number.toNat - 1)
  rw [sendBlock_eq positive inside]
  refine List.take_of_length_le ?_
  simp only [List.length_append, List.length_cons, List.length_nil, putU16, dataMax]
  omega

theorem take_append_block (data : Bytes) (k : Nat) :
    data.take (512 * k) ++ block data k = data.take (512 * (k + 1)) := by
  rw [block, Nat.mul_succ, List.take_add]

theorem length_readRequest_le (name : CString) :
    (readRequest name).length ≤ dataMax + 4 := by
  have cut := List.length_take_le (nameMax - 1) name.bytes
  have octet : (ascii "octet").length = 5 := by decide
  simp only [readRequest, List.length_append, List.length_cons, List.length_nil, octet]
  unfold nameMax at cut ⊢
  unfold dataMax
  omega

theorem requested_readRequest {name : CString} (short : name.length < nameMax) :
    requested ((readRequest name).take (dataMax + 4)) = name := by
  have whole : name.bytes.take (nameMax - 1) = name.bytes :=
    List.take_of_length_le (Nat.le_sub_one_of_lt short)
  have rest : (readRequest name).drop 2 =
      name.bytes ++ 0 :: (ascii "octet" ++ [0]) := by
    rw [readRequest, whole]
    simp
  rw [List.take_of_length_le (length_readRequest_le name), requested, rest,
    CString.ofBytes_append, CString.strncpy_of_length_le (Nat.le_sub_one_of_lt short)]

/-! ### What a poll and a received packet can do -/

/-- A poll changes nothing or ends the transfer, sends the next block to the
peer that acknowledged the last one, refuses a name, or starts a transfer. -/
inductive Polled (files : List File) (xfer : Xfer) (src : Endpoint) (packet : Bytes) :
    Xfer → Option Bytes → Prop
  | same : Polled files xfer src packet xfer none
  | ended : Polled files xfer src packet { xfer with live := false } none
  | next (file : File) (ack : packet.getD 1 0 = 4) (live : xfer.live = true)
      (peer : src = xfer.peer) (open_ : files[xfer.fi]? = some file)
      (more : xfer.block.toNat < blocksOf file.data.length) :
      Polled files xfer src packet { xfer with block := xfer.block + 1 }
        (some (sendBlock file (xfer.block + 1)))
  | refused : Polled files xfer src packet xfer (some (sendError 1))
  | started (i : Nat) (file : File) (read : packet.getD 1 0 = 1)
      (open_ : files[i]? = some file)
      (found : served files (requested (packet.take (dataMax + 4))) = some file) :
      Polled files xfer src packet ⟨true, i, src, 1⟩ (some (sendBlock file 1))

theorem poll_cases (files : List File) (xfer : Xfer) (src : Endpoint) (packet : Bytes) :
    Polled files xfer src packet (poll files xfer src packet).1
      (poll files xfer src packet).2 := by
  have second : (packet.take (dataMax + 4)).getD 1 0 = packet.getD 1 0 := by
    rw [List.getD_eq_getElem?_getD, List.getD_eq_getElem?_getD,
      List.getElem?_take_of_lt (by decide)]
  unfold poll
  simp only [second]
  split
  · exact .same
  · split
    · rename_i ack
      split
      · exact .same
      · rename_i matching
        simp only [not_or, not_not, Bool.not_eq_true, Bool.not_eq_false] at matching
        obtain ⟨live, peer, acked⟩ := matching
        split
        · exact .same
        · rename_i file open_
          split
          · exact .ended
          · rename_i more
            rw [acked] at more ⊢
            exact .next file ack live peer open_ (Nat.lt_of_not_le more)
    · split
      · exact .same
      · rename_i read
        split
        · exact .refused
        · rename_i i found
          obtain ⟨below, -⟩ := List.findIdx?_eq_some_iff_getElem.mp found
          rw [List.getElem?_eq_getElem below, Option.map_some]
          refine .started i files[i] (not_not.mp read)
            (List.getElem?_eq_getElem below) ?_
          rw [served, List.find?_eq_bind_findIdx?_getElem?, found]
          exact List.getElem?_eq_getElem below

/-- A received packet is passed over, makes the get fail, or is the block it
waits for: then the block is written and acknowledged. -/
inductive Received (cap : UInt32) (block : UInt16) (out : Bytes) (packet : Bytes) :
    Get → Option (Endpoint × Bytes) → Prop
  | passed (tid : UInt16) : Received cap block out packet (.waiting block tid out) none
  | failed : Received cap block out packet (.returned (-1) out) none
  | written (tid : UInt16) (dst : Endpoint) (ack : Bytes)
      (data : packet.getD 1 0 = 3)
      (number : getU16 (packet.take (dataMax + 4)) = block)
      (long : 4 ≤ packet.length)
      (room : (out.length + ((packet.take (dataMax + 4)).length - 4)) % 2 ^ 32 ≤
        cap.toNat) (acks : ack.getD 1 0 = 4) :
      Received cap block out packet
        (if (packet.take (dataMax + 4)).length - 4 < dataMax then
          .returned 0 (out ++ (packet.take (dataMax + 4)).drop 4)
        else
          .waiting (block + 1) tid (out ++ (packet.take (dataMax + 4)).drop 4))
        (some (dst, ack))

theorem receive_cases (cap : UInt32) (block tid : UInt16) (out : Bytes)
    (src : Endpoint) (packet : Bytes) :
    Received cap block out packet (receive cap block tid out src packet).1
      (receive cap block tid out src packet).2 := by
  have second : (packet.take (dataMax + 4)).getD 1 0 = packet.getD 1 0 := by
    rw [List.getD_eq_getElem?_getD, List.getD_eq_getElem?_getD,
      List.getElem?_take_of_lt (by decide)]
  unfold receive
  simp only [second]
  split
  · exact .passed tid
  · split
    · exact .failed
    · rename_i proper
      split
      · exact .failed
      · split
        · exact .passed tid
        · rename_i expected
          simp only [not_or, not_not] at expected proper
          split
          · exact .passed tid
          · split
            · exact .failed
            · rename_i room
              refine .written _ _ _ expected.1 expected.2 ?_ (Nat.le_of_not_lt room) rfl
              exact (Nat.le_of_not_lt proper.1).trans (List.length_take_le' ..)

section Invariant

variable (files : List File) (server me : Endpoint) (cap : UInt32) (name : CString)

def Answered (sent : List Datagram) : Prop :=
  ∃ d ∈ sent, d.dst = me ∧ d.bytes.getD 1 0 = 3

/-- What a waiting get wrote is the whole blocks before the one it waits for. -/
def Progress : Get → Prop
  | .waiting number _ out =>
      out.length ≤ cap.toNat ∧ 1 ≤ number.toNat ∧
        ∀ file, served files name = some file →
          512 * (number.toNat - 1) ≤ file.data.length ∧
            out = file.data.take (512 * (number.toNat - 1))
  | .returned value out => Exact files cap name (.returned value out)

structure Inv (w : World) : Prop where
  data : ∀ d ∈ w.sent, d.dst = me → d.bytes.getD 1 0 = 3 →
    ∃ file number, served files name = some file ∧ 1 ≤ number.toNat ∧
      number.toNat ≤ blocksOf file.data.length ∧ d.bytes = sendBlock file number
  request : ∀ d ∈ w.sent, d.src = me → d.bytes.getD 1 0 = 1 →
    d.bytes = readRequest name
  ack : ∀ d ∈ w.sent, d.src = me → d.bytes.getD 1 0 = 4 → Answered me w.sent
  xfer : Answered me w.sent → w.xfer.live = true → w.xfer.peer = me →
    ∃ file, served files name = some file ∧ files[w.xfer.fi]? = some file ∧
      1 ≤ w.xfer.block.toNat ∧ w.xfer.block.toNat ≤ blocksOf file.data.length
  progress : Progress files cap name w.get

end Invariant

section Steps

variable {files : List File} {server me : Endpoint} {cap : UInt32} {name : CString}

theorem Answered.append {sent more : List Datagram} (answered : Answered me sent) :
    Answered me (sent ++ more) := by
  obtain ⟨d, member, here⟩ := answered
  exact ⟨d, List.mem_append_left _ member, here⟩

theorem inv_start (xfer : Xfer) :
    Inv files me cap name (World.start server me xfer name) where
  data d member _ data := by
    rw [World.start, List.mem_singleton] at member
    subst member
    simp [readRequest] at data
  request d member _ _ := by
    rw [World.start, List.mem_singleton] at member
    rw [member]
  ack d member _ ack := by
    rw [World.start, List.mem_singleton] at member
    subst member
    simp [readRequest] at ack
  xfer := by
    rintro ⟨d, member, -, data⟩
    rw [World.start, List.mem_singleton] at member
    subst member
    simp [readRequest] at data
  progress := by
    refine ⟨Nat.zero_le _, le_rfl, fun file _ => ?_⟩
    exact ⟨Nat.zero_le _, rfl⟩

/-- What the server sends is a block of the file asked for, when it goes to the
get, and is neither a request nor an ACK. -/
structure Reply (files : List File) (me : Endpoint) (name : CString) (src : Endpoint)
    (bytes : Bytes) : Prop where
  kind : bytes.getD 1 0 ≠ 1 ∧ bytes.getD 1 0 ≠ 4
  block : src = me → bytes.getD 1 0 = 3 →
    ∃ file number, served files name = some file ∧ 1 ≤ number.toNat ∧
      number.toNat ≤ blocksOf file.data.length ∧ bytes = sendBlock file number

theorem Inv.reply {w : World} (inv : Inv files me cap name w) {src : Endpoint}
    {bytes : Bytes} (reply : Reply files me name src bytes) {xfer : Xfer}
    (slot : Answered me (w.sent ++ [⟨server, src, bytes⟩]) → xfer.live = true →
      xfer.peer = me →
        ∃ file, served files name = some file ∧ files[xfer.fi]? = some file ∧
          1 ≤ xfer.block.toNat ∧ xfer.block.toNat ≤ blocksOf file.data.length) :
    Inv files me cap name { w with xfer, sent := w.sent ++ [⟨server, src, bytes⟩] } where
  data d member here data := by
    rcases List.mem_append.mp member with old | new
    · exact inv.data d old here data
    · rw [List.mem_singleton] at new
      subst new
      exact reply.block here data
  request d member mine request := by
    rcases List.mem_append.mp member with old | new
    · exact inv.request d old mine request
    · rw [List.mem_singleton] at new
      subst new
      exact absurd request reply.kind.1
  ack d member mine ack := by
    rcases List.mem_append.mp member with old | new
    · exact (inv.ack d old mine ack).append
    · rw [List.mem_singleton] at new
      subst new
      exact absurd ack reply.kind.2
  xfer := slot
  progress := inv.progress

theorem Inv.serve {w : World} (inv : Inv files me cap name w)
    (short : name.length < nameMax) {d : Datagram} (known : d ∈ w.sent ∨ d.src ≠ me) :
    Inv files me cap name (w.serve files server d) := by
  have mine : d.src = me → d ∈ w.sent := fun here => known.resolve_right (absurd here)
  have polled := poll_cases files w.xfer d.src d.bytes
  unfold World.serve
  generalize poll files w.xfer d.src d.bytes = result at polled
  obtain ⟨xfer, reply⟩ := result
  dsimp only at polled ⊢
  cases polled with
  | same =>
      rw [Option.toList_none, List.map_nil, List.append_nil]
      exact inv
  | ended =>
      rw [Option.toList_none, List.map_nil, List.append_nil]
      exact ⟨inv.data, inv.request, inv.ack, by simp, inv.progress⟩
  | next file ack live peer open_ more =>
      have bigger : (w.xfer.block + 1).toNat = w.xfer.block.toNat + 1 := by
        have := file.fits
        unfold blocksOf dataMax at more
        rw [UInt16.toNat_add]
        exact Nat.mod_eq_of_lt (by simp; omega)
      have ours (here : d.src = me) : served files name = some file := by
        obtain ⟨same, found, open', -⟩ :=
          inv.xfer (inv.ack d (mine here) here ack) live (peer ▸ here)
        rw [open_] at open'
        rw [found, Option.some.inj open']
      refine inv.reply ⟨?_, fun here _ => ?_⟩ fun _ _ here => ?_
      · exact ⟨by simp [sendBlock], by simp [sendBlock]⟩
      · exact ⟨file, _, ours here, by omega, by omega, rfl⟩
      · exact ⟨file, ours (peer.trans here), open_, by dsimp only; omega, by dsimp only; omega⟩
  | refused =>
      refine inv.reply ⟨by decide, fun _ data => ?_⟩ fun answered => inv.xfer ?_
      · exact absurd data (by decide)
      · obtain ⟨other, member, here, data⟩ := answered
        rcases List.mem_append.mp member with old | new
        · exact ⟨other, old, here, data⟩
        · rw [List.mem_singleton] at new
          subst new
          exact absurd data (by simp [sendError])
  | started i file read open_ found =>
      have ours (here : d.src = me) : served files name = some file := by
        rw [inv.request d (mine here) here read, requested_readRequest short] at found
        exact found
      have one : (1 : UInt16).toNat = 1 := rfl
      have many : 1 ≤ blocksOf file.data.length := Nat.le_add_left ..
      refine inv.reply ⟨?_, fun here _ => ?_⟩ fun _ _ here => ?_
      · exact ⟨by simp [sendBlock], by simp [sendBlock]⟩
      · exact ⟨file, 1, ours here, le_rfl, many, rfl⟩
      · exact ⟨file, ours here, open_, le_rfl, many⟩

/-- Writing the block it waits for brings a get to the next block, or to the
end of the file. -/
theorem Progress.written {tid : UInt16} {out packet : Bytes} {file : File}
    (progress : Progress files cap name (.waiting number tid out))
    (found : served files name = some file) (inside : number.toNat ≤ blocksOf file.data.length)
    (same : packet = sendBlock file number) (tid' : UInt16)
    (room : (out.length + ((packet.take (dataMax + 4)).length - 4)) % 2 ^ 32 ≤
      cap.toNat) :
    Progress files cap name
      (if (packet.take (dataMax + 4)).length - 4 < dataMax then
        .returned 0 (out ++ (packet.take (dataMax + 4)).drop 4)
      else .waiting (number + 1) tid' (out ++ (packet.take (dataMax + 4)).drop 4)) := by
  obtain ⟨-, positive, blocks⟩ := progress
  obtain ⟨before, rfl⟩ := blocks file found
  have size := length_block_le file.data (number.toNat - 1)
  have payload : (packet.take (dataMax + 4)).drop 4 =
      block file.data (number.toNat - 1) := by
    rw [same, take_sendBlock positive inside]
    rfl
  have length : (packet.take (dataMax + 4)).length - 4 =
      (block file.data (number.toNat - 1)).length := by
    rw [← payload, List.length_drop]
  have next := take_append_block file.data (number.toNat - 1)
  rw [Nat.sub_add_cancel positive] at next
  have written := congrArg List.length next
  have fits := file.fits
  rw [List.length_append, List.length_take, List.length_take] at written
  rw [length, List.length_take] at room
  rw [length, payload, next, dataMax]
  split
  · rename_i last
    have all : file.data.take (512 * number.toNat) = file.data :=
      List.take_of_length_le (by omega)
    rw [all]
    refine ⟨?_, fun out same => ⟨file, found, ?_⟩⟩
    · rw [Get.out]
      omega
    · cases same
      rfl
  · rename_i full
    have few : number.toNat < 128 := by omega
    have bigger : (number + 1).toNat = number.toNat + 1 := by
      rw [UInt16.toNat_add]
      exact Nat.mod_eq_of_lt (by simp; omega)
    refine ⟨?_, by omega, fun file' found' => ?_⟩
    · rw [List.length_take]
      omega
    · rw [found] at found'
      obtain rfl := Option.some.inj found'
      rw [bigger, Nat.add_sub_cancel]
      exact ⟨by omega, rfl⟩

variable {w : World}

section Inv

variable (inv : Inv files me cap name w)
include inv

theorem Inv.deliver {d : Datagram} (known : d ∈ w.sent)
    (here : d.dst = me) : Inv files me cap name (w.deliver me cap d) := by
  unfold World.deliver
  cases get : w.get with
  | returned value out => exact inv
  | waiting number tid out =>
      have progress := inv.progress
      rw [get] at progress
      have received := receive_cases cap number tid out d.src d.bytes
      dsimp only
      generalize receive cap number tid out d.src d.bytes = result at received ⊢
      obtain ⟨next, ack⟩ := result
      dsimp only at received ⊢
      cases received with
      | passed tid =>
          rw [Option.toList_none, List.map_nil, List.append_nil]
          exact ⟨inv.data, inv.request, inv.ack, inv.xfer, progress⟩
      | failed =>
          rw [Option.toList_none, List.map_nil, List.append_nil]
          exact ⟨inv.data, inv.request, inv.ack, inv.xfer, progress.1, by simp⟩
      | written tid' dst bytes data same long room acks =>
          have answered : Answered me w.sent := ⟨d, known, here, data⟩
          obtain ⟨file, number', found, positive, inside, packet⟩ :=
            inv.data d known here data
          have numbers : number' = number := by
            rw [← same, packet, take_sendBlock positive inside, getU16_putU16]
          subst numbers
          refine ⟨?_, ?_, ?_, ?_, ?_⟩
          · intro other member there data
            rcases List.mem_append.mp member with old | new
            · exact inv.data other old there data
            · obtain rfl := List.mem_singleton.mp new
              exact absurd (acks.symm.trans data) (by decide)
          · intro other member mine request
            rcases List.mem_append.mp member with old | new
            · exact inv.request other old mine request
            · obtain rfl := List.mem_singleton.mp new
              exact absurd (acks.symm.trans request) (by decide)
          · exact fun _ _ _ _ => answered.append
          · exact fun _ => inv.xfer answered
          · exact progress.written found inside packet tid' room

theorem Inv.giveUp : Inv files me cap name w.giveUp := by
  unfold World.giveUp
  cases get : w.get with
  | returned value out => exact inv
  | waiting number tid out =>
      have progress := inv.progress
      rw [get] at progress
      exact ⟨inv.data, inv.request, inv.ack, inv.xfer, progress.1, by simp⟩

theorem Inv.step {w' : World} (short : name.length < nameMax)
    (step : Step files server me cap w w') : Inv files me cap name w' := by
  cases step with
  | serve d known here => exact inv.serve short known
  | deliver d known here => exact inv.deliver known here
  | giveUp => exact inv.giveUp

theorem Inv.exact : Exact files cap name w.get := by
  have progress := inv.progress
  cases get : w.get with
  | waiting number tid out =>
      rw [get] at progress
      exact ⟨progress.1, by simp⟩
  | returned value out =>
      rw [get] at progress
      exact progress

end Inv

end Steps

/-- Whatever the network does, a get that returns 0 has the file served under
the name it asked for, and no get writes past its capacity. -/
theorem get_exact (files : List File) (server me : Endpoint) (cap : UInt32)
    (name : CString) (short : name.length < nameMax) (xfer : Xfer) (w : World)
    (run : Relation.ReflTransGen (Step files server me cap)
      (World.start server me xfer name) w) :
    Exact files cap name w.get := by
  suffices inv : Inv files me cap name w from inv.exact
  induction run with
  | refl => exact inv_start xfer
  | tail _ step inv => exact inv.step short step

section Example

/-! A file of two blocks, of which the first comes twice. -/

def noteName : CString := ⟨ascii "note", by decide⟩

def noteFile : File := ⟨true, noteName, List.replicate 512 7 ++ [8, 9], by decide +kernel⟩

def box : Endpoint := ⟨1, 69⟩

def caller : Endpoint := ⟨2, 49701⟩

def request : Datagram := ⟨caller, box, readRequest noteName⟩

def part (number : UInt16) : Datagram := ⟨box, caller, sendBlock noteFile number⟩

def acked : Datagram := ⟨caller, box, [0, 4, 0, 1]⟩

def asked : World := World.start box caller ⟨false, 0, caller, 0⟩ noteName

def begun : World := (asked.serve [noteFile] box request).deliver caller 4096 (part 1)

def received : World :=
  ((begun.deliver caller 4096 (part 1)).serve [noteFile] box acked).deliver caller 4096 (part 2)

theorem get_exact_received :
    Exact [noteFile] 4096 noteName received.get ∧ received.get = .returned 0 noteFile.data := by
  refine ⟨get_exact [noteFile] box caller 4096 noteName (by decide)
    ⟨false, 0, caller, 0⟩ received ?_, by decide +kernel⟩
  have first : Step [noteFile] box caller 4096 (asked.serve [noteFile] box request) begun :=
    .deliver _ _ (by decide +kernel) rfl
  have again : Step [noteFile] box caller 4096 begun (begun.deliver caller 4096 (part 1)) :=
    .deliver _ _ (by decide +kernel) rfl
  have second : Step [noteFile] box caller 4096
      ((begun.deliver caller 4096 (part 1)).serve [noteFile] box acked) received :=
    .deliver _ _ (by decide +kernel) rfl
  exact .tail (.tail (.tail (.tail (.tail .refl (.serve asked request (.inl (by decide)) rfl))
    first) again) (.serve _ acked (.inl (by decide +kernel)) rfl)) second

end Example

end Metal.Net.Tftp
