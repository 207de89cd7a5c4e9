import Metal.Net.Ip.Csum
import Metal.Net.Ip.Reack

namespace Metal.Net.Ip

open Metal.Lib

/-! From the bytes of a packet to the buffer of a row. -/

def totalLen (pkt : Bytes) : Nat := (beU16 (pkt.drop 2)).toNat

/-- How much of the packet `ip_input` looks at. -/
def ipLen (pkt : Bytes) : Nat :=
  if ihl pkt ≤ totalLen pkt ∧ totalLen pkt ≤ pkt.length then totalLen pkt else pkt.length

/-- The tests that `ip_input` makes before it looks at the addresses. -/
def ipOk (pkt : Bytes) : Bool :=
  20 ≤ pkt.length ∧ pkt.getD 0 0 >>> 4 = 4 ∧ 20 ≤ ihl pkt ∧ ihl pkt ≤ pkt.length ∧
    ipCsum (pkt.take (ihl pkt)) = 0 ∧ l4CsumOk pkt (ipLen pkt)

def l4 (pkt : Bytes) : Bytes := (pkt.take (ipLen pkt)).drop (ihl pkt)

def dataOff (th : Bytes) : Nat := (th.getD 12 0 >>> 4).toNat * 4

def tcpFlags (b : UInt8) : Flags where
  fin := b &&& 0x01 ≠ 0
  syn := b &&& 0x02 ≠ 0
  rst := b &&& 0x04 ≠ 0
  psh := b &&& 0x08 ≠ 0
  ack := b &&& 0x10 ≠ 0

/-- What `pm_ip_tcp_input` reads from a segment of at least 20 bytes. -/
def tcpSegment (src dst : Addr) (th : Bytes) : Segment where
  src := src
  dst := dst
  sport := beU16 th
  dport := beU16 (th.drop 2)
  seq := beU32 (th.drop 4)
  ack := beU32 (th.drop 8)
  flags := tcpFlags (th.getD 13 0)
  wnd := beU16 (th.drop 14)
  data := th.drop (dataOff th)

def segmentOf (pkt : Bytes) : Segment :=
  tcpSegment (beU32 (pkt.drop 12)) (beU32 (pkt.drop 16)) (l4 pkt)

/-- `ip_input` hands the packet to `pm_ip_tcp_input`, and that finds a header in it. -/
def IsTcp (pkt : Bytes) : Prop := ipOk pkt ∧ pkt.getD 9 0 = 6 ∧ 20 ≤ (l4 pkt).length

instance (pkt : Bytes) : Decidable (IsTcp pkt) := inferInstanceAs (Decidable (_ ∧ _))

/-- `ip_input` as far as TCP goes. -/
def packetInput (deliver : Segment → Stack → Stack) (pkt : Bytes) (st : Stack) : Stack :=
  if IsTcp pkt then ipInput deliver (segmentOf pkt) st else st

def Stack.rxOf (st : Stack) (r : Ref) : Bytes := ((st.row r).map Sock.rx).getD []

/-- What comes into a buffer is a run of the packet's bytes behind a header of at least 20
bytes and inside the claimed length; a segment whose data would begin inside such a header
or behind its end changes no row. -/
structure Contained (pkt : Bytes) (st st' : Stack) : Prop where
  run : ∀ fd s', st'.sk fd = some s' → ∃ a n,
    s'.rx = st.rxOf ⟨fd, s'.id⟩ ++ (pkt.drop a).take n ∧
      (n = 0 ∨ ihl pkt + 20 ≤ a ∧ ihl pkt + dataOff (l4 pkt) ≤ a ∧
        a + n ≤ totalLen pkt ∧ a + n ≤ pkt.length)
  still : IsTcp pkt → dataOff (l4 pkt) < 20 ∨ (l4 pkt).length < dataOff (l4 pkt) →
    st'.sk = st.sk

/-- The packets whose segments are cut as they should be: the data begins behind the header
and not behind the end, with a claimed length that has room for the header unless there is
no data to take; or it begins behind the end of a segment without FIN, SYN, RST and ACK. -/
def CutRight (pkt : Bytes) : Prop :=
  IsTcp pkt →
    20 ≤ dataOff (l4 pkt) ∧ dataOff (l4 pkt) ≤ (l4 pkt).length ∧
        (ihl pkt ≤ totalLen pkt ∨ dataOff (l4 pkt) = (l4 pkt).length ∨
          (segmentOf pkt).flags.rst) ∨
      (l4 pkt).length < dataOff (l4 pkt) ∧ (segmentOf pkt).flags.fin = false ∧
        (segmentOf pkt).flags.syn = false ∧ (segmentOf pkt).flags.rst = false ∧
        (segmentOf pkt).flags.ack = false

variable {pkt : Bytes} {st st' : Stack} {r : Ref} {s : Sock} {seg : Segment}

theorem ipLen_le (pkt : Bytes) : ipLen pkt ≤ pkt.length := by
  unfold ipLen
  split
  · case isTrue cut => exact cut.2
  · exact Nat.le_refl _

theorem length_l4 (pkt : Bytes) : (l4 pkt).length = ipLen pkt - ihl pkt := by
  rw [l4, List.length_drop, List.length_take, Nat.min_eq_left (ipLen_le pkt)]

theorem take_data (pkt : Bytes) (n : Nat) :
    (segmentOf pkt).data.take n =
      (pkt.drop (ihl pkt + dataOff (l4 pkt))).take
        (min n (ipLen pkt - (ihl pkt + dataOff (l4 pkt)))) := by
  change ((l4 pkt).drop (dataOff (l4 pkt))).take n = _
  generalize dataOff (l4 pkt) = off
  rw [l4, List.drop_drop, List.drop_take, List.take_take]

theorem Contained.of_sk (pkt : Bytes) (same : st'.sk = st.sk) : Contained pkt st st' where
  run := by
    intro fd s' there
    rw [same] at there
    refine ⟨0, 0, ?_, .inl rfl⟩
    simp [Stack.rxOf, Stack.row_mk there]
  still := fun _ _ => same

theorem tcpInput_idle (fin : seg.flags.fin = false) (syn : seg.flags.syn = false)
    (rst : seg.flags.rst = false) (ack : seg.flags.ack = false) (data : seg.data = []) :
    tcpInput heldBack seg st = st := by
  cases found : st.tcpFind seg with
  | none => simp [tcpInput, found]
  | some r =>
      obtain ⟨s, row, _⟩ := tcpFind_spec found
      simp [tcpInput, found, row, rst, ack, inputAck, inputWindow, inputState, syn, inputData,
        data, fin]

theorem Beside.rxOf (beside : Beside r st st') {fd : Fd} {s' : Sock} (other : fd ≠ r.fd)
    (there : st'.sk fd = some s') : s'.rx = st.rxOf ⟨fd, s'.id⟩ := by
  cases old : st.sk fd with
  | none =>
      have gone : st.row ⟨fd, s'.id⟩ = none := by simp [Stack.row, old]
      simp [Stack.rxOf, gone, beside.born fd s' other old there]
  | some s =>
      obtain ⟨t, there', id, _, rx⟩ := beside.kept fd s other old
      obtain rfl := Option.some.inj (there'.symm.trans there)
      simp [Stack.rxOf, id, Stack.row_mk old, rx]

theorem take_contained (header : 20 ≤ dataOff (l4 pkt))
    (claimed : ihl pkt ≤ totalLen pkt ∨ dataOff (l4 pkt) = (l4 pkt).length) (n : Nat) :
    ∃ a m, (segmentOf pkt).data.take n = (pkt.drop a).take m ∧
      (m = 0 ∨ ihl pkt + 20 ≤ a ∧ ihl pkt + dataOff (l4 pkt) ≤ a ∧
        a + m ≤ totalLen pkt ∧ a + m ≤ pkt.length) := by
  have short := ipLen_le pkt
  have length := length_l4 pkt
  have total : ihl pkt ≤ totalLen pkt → ipLen pkt ≤ totalLen pkt := by
    intro room
    unfold ipLen
    split <;> omega
  refine ⟨_, _, take_data pkt n, ?_⟩
  rcases claimed with room | none_
  · have := total room
    omega
  · omega

theorem tcpInput_contained (table : Table st) (found : st.tcpFind (segmentOf pkt) = some r)
    (header : 20 ≤ dataOff (l4 pkt)) (inside : dataOff (l4 pkt) ≤ (l4 pkt).length)
    (claimed : ihl pkt ≤ totalLen pkt ∨ dataOff (l4 pkt) = (l4 pkt).length ∨
      (segmentOf pkt).flags.rst) :
    Contained pkt st (tcpInput heldBack (segmentOf pkt) st) := by
  have beside := tcpInput_beside table found
  have ⟨takes, reset⟩ := tcpInput_takes table found
  refine ⟨fun fd s' there => ?_, fun _ bad => by omega⟩
  by_cases own : fd = r.fd
  · subst own
    have before {s : Sock} (old : st.sk r.fd = some s) (id : s'.id = s.id) :
        st.rxOf ⟨r.fd, s'.id⟩ = s.rx := by
      simp [Stack.rxOf, id, Stack.row_mk old]
    by_cases rst : (segmentOf pkt).flags.rst
    · obtain ⟨s, old, id, rx⟩ := reset rst s' there
      exact ⟨0, 0, by simp [before old id, rx], .inl rfl⟩
    · obtain ⟨s, n, old, id, rx⟩ := takes s' there
      have claimed := claimed.imp_right fun none_ => none_.resolve_right rst
      obtain ⟨a, m, same, where_⟩ := take_contained header claimed n
      exact ⟨a, m, by rw [rx, same, before old id], where_⟩
  · exact ⟨0, 0, by simp [beside.rxOf own there], .inl rfl⟩

theorem packetInput_contained (cut : CutRight pkt) (table : Table st) :
    Contained pkt st (packetInput (tcpInput heldBack) pkt st) := by
  unfold packetInput
  by_cases tcp : IsTcp pkt
  · rw [if_pos tcp]
    unfold ipInput
    by_cases ours : (st.loUp ∧ (segmentOf pkt).dst = loAddr) ∨ st.env.ours (segmentOf pkt).dst
    · rw [if_pos ours]
      rcases cut tcp with ⟨header, inside, claimed⟩ | ⟨past, fin, syn, rst, ack⟩
      · cases found : st.tcpFind (segmentOf pkt) with
        | none =>
            have same : tcpInput heldBack (segmentOf pkt) st = st := by simp [tcpInput, found]
            rw [same]
            exact Contained.of_sk pkt rfl
        | some r => exact tcpInput_contained table found header inside claimed
      · have data : (segmentOf pkt).data = [] := List.drop_of_length_le (Nat.le_of_lt past)
        rw [tcpInput_idle fin syn rst ack data]
        exact Contained.of_sk pkt rfl
    · rw [if_neg ours]
      exact Contained.of_sk pkt rfl
  · rw [if_neg tcp]
    exact Contained.of_sk pkt rfl

/-- A stack whose device takes everything, and a row of it that the application has. -/
structure Bears (r : Ref) (rx : Bytes) (wnd : Nat) (fin : Prop) (st : Stack) : Prop where
  down : st.loUp = false
  free : st.env.wire = []
  row : ∃ s, st.row r = some s ∧ s.rx = rx ∧ s.sndWnd = wnd ∧ s.appClosed = false ∧
    (fin → s.peerFin)

variable {rx : Bytes} {wnd : Nat} {fin fin' : Prop}

section Bears

variable (bears : Bears r rx wnd fin st)
include bears

theorem Bears.upd {rx' : Bytes} {f : Sock → Sock}
    (id : ∀ s, (f s).id = s.id) (same : ∀ s, (f s).sndWnd = s.sndWnd)
    (held : ∀ s, (f s).appClosed = s.appClosed) (got : ∀ s, s.rx = rx → (f s).rx = rx')
    (closed : ∀ s, (fin → s.peerFin) → fin' → (f s).peerFin) :
    Bears r rx' wnd fin' (st.upd r f) := by
  obtain ⟨down, free, s, row, buffer, size, left, ended⟩ := bears
  refine ⟨?_, ?_, f s, Stack.row_upd row (id s), got s buffer, (same s).trans size,
    (held s).trans left, closed s ended⟩
  · rw [Stack.upd_of_row row]
    exact down
  · rw [Stack.upd_of_row row]
    exact free

theorem Bears.wake : Bears r rx wnd fin (st.wake r) :=
  bears.upd (fun _ => rfl) (fun _ => rfl) (fun _ => rfl) (fun _ same => same) fun _ ended => ended

theorem Bears.xmit : Bears r rx wnd fin (tcpXmit heldBack .ackOnly [] r st).1 := by
  obtain ⟨down, free, s, row, rest⟩ := bears
  have short : ¬ ([] : Bytes).length > tcpMss := by decide
  have out : ∃ sent, (tcpXmit heldBack .ackOnly [] r st).1 = { st with sent := sent } := by
    simp only [tcpXmit, row, tcpEmit]
    simp [Flags.ctl, Flags.ackOnly, Flags.none, row, tcpMss, outputVia, down, free]
  obtain ⟨sent, out⟩ := out
  rw [out]
  exact ⟨down, free, s, row, rest⟩

theorem inputFin_bears
    (last : fin' → ∀ s, st.row r = some s → seg.seq + UInt32.ofNat seg.data.length = s.rcvNxt) :
    Bears r rx wnd fin' (inputFin heldBack seg r st) := by
  obtain ⟨s, row, _⟩ := bears.row
  simp only [inputFin, row]
  by_cases here : seg.seq + UInt32.ofNat seg.data.length = s.rcvNxt
  · have counted : Bears r rx wnd fin' (st.upd r Sock.receiveFin) :=
      bears.upd (fun _ => rfl) (fun _ => rfl) (fun _ => rfl) (fun _ same => same)
        fun _ _ _ => rfl
    have answered := counted.xmit.wake
    rw [if_neg (not_not.2 here)]
    generalize (tcpXmit heldBack .ackOnly [] r (st.upd r Sock.receiveFin)).1.wake r = st₁
      at answered
    obtain ⟨s', row', _, _, left, _⟩ := answered.row
    simpa [row', left] using answered
  · rw [if_pos here]
    have acked := bears.xmit
    obtain ⟨s', row', buffer, size, left, _⟩ := acked.row
    exact ⟨acked.down, acked.free, s', row', buffer, size, left,
      fun ended => absurd (last ended s row) here⟩

end Bears

theorem inputData_bears (row : st.row r = some s) (here : seg.seq = s.rcvNxt)
    (bears : Bears r [] wnd False st) (empty : s.rx = []) :
    Bears r (seg.data.take s.rxCap) wnd (seg.flags.fin ∧ seg.data = [])
      (inputData heldBack seg r s st) := by
  unfold inputData
  by_cases data : seg.data = []
  · rw [if_neg (not_not.2 data), data, List.take_nil]
    by_cases fin : seg.flags.fin
    · rw [if_pos fin]
      refine inputFin_bears bears fun _ s' row' => ?_
      obtain rfl := Option.some.inj (row.symm.trans row')
      simpa [data] using here
    · rw [if_neg fin]
      obtain ⟨down, free, s', row', buffer, size, left, _⟩ := bears
      exact ⟨down, free, s', row', buffer, size, left, fun both => absurd both.1 fin⟩
  · rw [if_pos data, if_neg (not_not.2 here)]
    have taken : Bears r (seg.data.take s.rxCap) wnd (seg.flags.fin ∧ seg.data = [])
        (st.upd r (Sock.receive seg.data)) := by
      rw [Stack.upd_of_row row]
      obtain ⟨down, free, s', row', buffer, size, left, _⟩ := bears
      obtain rfl := Option.some.inj (row.symm.trans row')
      refine ⟨down, free, _, Stack.row_setRow (Stack.row_eq_some.1 row).2, ?_, size, left,
        fun both => absurd both.2 data⟩
      simp [Sock.receive, empty]
    have answered := taken.xmit.wake
    dsimp only
    split
    · exact inputFin_bears answered fun both => absurd both.2 data
    · exact answered

/-- A connection to which the segment is the next one; only the window differs. -/
def ready (seg : Segment) : Sock :=
  { Sock.new 0 .tcp .small with
    tcpSt := .estab, lport := seg.dport, raddr := seg.src, rport := seg.sport
    rcvNxt := seg.seq, sndWnd := seg.wnd.toNat + 1 }

def waiting (seg : Segment) : Sock :=
  { Sock.new 0 .tcp .small with
    tcpSt := .listen, lport := seg.dport }

def hosting (s : Sock) : Stack :=
  { Stack.init { Env.ample with ours := fun _ => true } with
    skCap := 1, nextId := 1 }.setRow 0 (some s)

theorem hosting_table (named : s.id = 0) : Table (hosting s) where
  named := by
    intro fd t there
    rcases Stack.setRow_old there with ⟨rfl, rfl⟩ | ⟨_, old⟩
    · change t.id < 1
      omega
    · cases old
  within := by
    intro fd t there
    rcases Stack.setRow_old there with ⟨rfl, rfl⟩ | ⟨_, old⟩
    · exact Nat.one_pos
    · cases old
  apart := by
    intro fd fd' t t' there there' _
    rcases Stack.setRow_old there with ⟨rfl, _⟩ | ⟨_, old⟩
    · rcases Stack.setRow_old there' with ⟨rfl, _⟩ | ⟨_, old⟩
      · rfl
      · cases old
    · cases old

theorem hosting_rows (s : Sock) : (hosting s).rows = [(0, s)] := by
  have slots : (hosting s).skCap = 1 := rfl
  have first : (hosting s).sk 0 = some s := Stack.setRow_sk_same _
  simp [Stack.rows, slots, first, List.range_succ]

theorem ready_found (seg : Segment) : (hosting (ready seg)).tcpFind seg = some ⟨0, 0⟩ := by
  have hit : (hosting (ready seg)).matchesRow seg (ready seg) = true := by
    simp [Stack.matchesRow, ready, Sock.new]
  simp [Stack.tcpFind, hosting_rows, hit]
  rfl

theorem waiting_found (seg : Segment) : (hosting (waiting seg)).tcpFind seg = some ⟨0, 0⟩ := by
  have miss : (hosting (waiting seg)).matchesRow seg (waiting seg) = false := by
    simp [Stack.matchesRow, waiting]
  have hit : (hosting (waiting seg)).matchesListen seg (waiting seg) = true := by
    simp [Stack.matchesListen, waiting, Sock.new]
  simp [Stack.tcpFind, hosting_rows, hit, miss]
  rfl

theorem ready_row (seg : Segment) : (hosting (ready seg)).row ⟨0, 0⟩ = some (ready seg) :=
  Stack.row_setRow rfl

theorem ready_accepts (seg : Segment) (ack : Seq) : ¬ (ready seg).Accepts ack := by
  rintro ⟨above, below⟩
  exact absurd (UInt32.lt_of_lt_of_le above below) (UInt32.lt_irrefl 0)

theorem ready_bears (plain : seg.flags.rst = false) :
    Bears ⟨0, 0⟩ (seg.data.take 64)
      (if seg.flags.ack then seg.wnd.toNat else seg.wnd.toNat + 1)
      (seg.flags.fin ∧ seg.data = []) (tcpInput heldBack seg (hosting (ready seg))) := by
  have goes : ¬ seg.Ends (ready seg) := fun ends => ready_accepts seg seg.ack ends.2.1
  have heard : (ready seg).heard (hosting (ready seg)).env.now seg =
      { ready seg with
        sndWnd := if seg.flags.ack then seg.wnd.toNat else seg.wnd.toNat + 1 } := by
    unfold Sock.heard Sock.ackedBy
    rw [if_neg (ready_accepts seg seg.ack)]
    split
    · have no : (ready seg).waiter = none := rfl
      simp [no]
    · rfl
  rw [tcpInput_state heldBack (ready_found seg) (ready_row seg) (by simp [plain]) goes, heard]
  generalize (if seg.flags.ack then seg.wnd.toNat else seg.wnd.toNat + 1) = wnd
  have row : ((hosting (ready seg)).setRow 0 (some { ready seg with sndWnd := wnd })).row
      ⟨0, 0⟩ = some { ready seg with sndWnd := wnd } := Stack.row_setRow rfl
  have bears : Bears ⟨0, 0⟩ [] wnd False
      ((hosting (ready seg)).setRow 0 (some { ready seg with sndWnd := wnd })) :=
    ⟨rfl, rfl, _, row, rfl, rfl, rfl, False.elim⟩
  exact inputData_bears row rfl bears rfl

theorem ready_reset (reset : seg.flags.rst) :
    ∃ s', (tcpInput heldBack seg (hosting (ready seg))).sk 0 = some s' ∧
      s'.tcpSt = .closeWait := by
  have ends : tcpInput heldBack seg (hosting (ready seg)) =
      inputReset ⟨0, 0⟩ (ready seg) (hosting (ready seg)) := by
    simp only [tcpInput, ready_found, ready_row]
    rw [if_pos ⟨reset, by simp [ready]⟩]
  rw [ends]
  have marked : (hosting (ready seg)).upd ⟨0, 0⟩ (fun s =>
      { s with peerFin := true, tcpSt := .closeWait }) =
        (hosting (ready seg)).setRow 0
          (some { ready seg with peerFin := true, tcpSt := .closeWait }) :=
    Stack.upd_of_row (ready_row seg) _
  have row : ((hosting (ready seg)).setRow 0
      (some { ready seg with peerFin := true, tcpSt := .closeWait })).row ⟨0, 0⟩ =
        some { ready seg with peerFin := true, tcpSt := .closeWait } := Stack.row_setRow rfl
  unfold inputReset
  rw [if_neg (by simp [ready]), marked, Stack.wake, Stack.upd_of_row row]
  exact ⟨_, Stack.setRow_sk_same _, rfl⟩

theorem waiting_opens (syn : seg.flags.syn) (ack : seg.flags.ack = false)
    (rst : seg.flags.rst = false) :
    ∃ c, (tcpInput heldBack seg (hosting (waiting seg))).sk 1 = some c := by
  have goes : ¬ seg.Ends (waiting seg) := fun ends => absurd (ack.symm.trans ends.1) (by decide)
  have row : (hosting (waiting seg)).row ⟨0, 0⟩ = some (waiting seg) := Stack.row_setRow rfl
  have heard : (waiting seg).heard (hosting (waiting seg)).env.now seg = waiting seg := by
    simp [Sock.heard, ack]
  have full : ((List.range (hosting (waiting seg)).skCap).find? fun fd =>
      ((hosting (waiting seg)).sk fd).isNone) = none := by
    have first : (hosting (waiting seg)).sk 0 = some (waiting seg) := Stack.setRow_sk_same _
    have slots : (hosting (waiting seg)).skCap = 1 := rfl
    simp [slots, first, List.range_succ]
  rw [tcpInput_state heldBack (waiting_found seg) row (by simp [rst]) goes, heard,
    Stack.setRow_self (Stack.row_eq_some.1 row).1]
  have listens : (waiting seg).tcpSt = .listen := rfl
  let grown : Stack :=
    { hosting (waiting seg) with
      env := { (hosting (waiting seg)).env with room := [], grow := [] }
      skCap := 5, nextId := 2 }
  let caps : Caps := ⟨8192, 8192, by decide, by decide, by decide, by decide⟩
  have alloc : (hosting (waiting seg)).sockAlloc .tcp =
      (grown.setRow 1 (some (Sock.new 1 .tcp caps)), some ⟨1, 1⟩) := by
    unfold Stack.sockAlloc
    rw [full]
    rfl
  have newRow : (grown.setRow 1 (some (Sock.new 1 .tcp caps))).row ⟨1, 1⟩ =
      some (Sock.new 1 .tcp caps) := Stack.row_setRow rfl
  have opens : inputState heldBack seg ⟨0, 0⟩ (waiting seg) (hosting (waiting seg)) =
      inputListen heldBack seg ⟨0, 0⟩ (waiting seg) (hosting (waiting seg)) := by
    simp [inputState, listens, syn, ack]
  rw [opens]
  unfold inputListen
  rw [alloc]
  dsimp only
  rw [Stack.upd_of_row newRow, Stack.setRow_setRow]
  generalize same : ({ Sock.new 1 .tcp caps with
      bound := true, l2 := (waiting seg).l2, laddr := (waiting seg).laddr
      lport := (waiting seg).lport, raddr := seg.src, rport := seg.sport, iss := 1000
      sndNxt := 1000, sndUna := 1000, rcvNxt := seg.seq + 1, tcpSt := .synRcvd
      listenFd := some 0, stage := .half } : Sock) = c
  have child : (grown.setRow 1 (some c)).row ⟨1, 1⟩ = some c := by
    refine Stack.row_setRow ?_
    rw [← same]
    rfl
  have room : c.rexmitLen + Flags.synAck.ctl ≤ c.rexmitCap := by
    rw [← same]
    change 0 + 1 ≤ 8192
    omega
  obtain ⟨goes, _⟩ := tcpXmit_sent child .synAck (.inr room)
  obtain ⟨_, ⟨c, row', _⟩, _⟩ := goes trivial
  exact ⟨c, (Stack.row_eq_some.1 row').1⟩

theorem packetInput_hosting (tcp : IsTcp pkt) (s : Sock) :
    packetInput (tcpInput heldBack) pkt (hosting s) =
      tcpInput heldBack (segmentOf pkt) (hosting s) := by
  have ours : (hosting s).env.ours (segmentOf pkt).dst = true := rfl
  unfold packetInput ipInput
  rw [if_pos tcp, if_pos (Or.inr ours)]

theorem packetInput_changes (tcp : IsTcp pkt)
    (speaks : (segmentOf pkt).data ≠ [] ∨ (segmentOf pkt).flags.fin ∨
      (segmentOf pkt).flags.syn ∨ (segmentOf pkt).flags.rst ∨ (segmentOf pkt).flags.ack) :
    ∃ st, Table st ∧ (packetInput (tcpInput heldBack) pkt st).sk ≠ st.sk := by
  have atReady : (hosting (ready (segmentOf pkt))).sk 0 = some (ready (segmentOf pkt)) :=
    Stack.setRow_sk_same _
  cases rst : (segmentOf pkt).flags.rst with
  | true =>
      refine ⟨_, hosting_table (s := ready (segmentOf pkt)) rfl, fun same => ?_⟩
      rw [packetInput_hosting tcp] at same
      obtain ⟨s', there, state⟩ := ready_reset rst
      rw [same, atReady] at there
      rw [← Option.some.inj there] at state
      cases state
  | false =>
      by_cases listens : (segmentOf pkt).flags.syn ∧ (segmentOf pkt).flags.ack = false
      · refine ⟨_, hosting_table (s := waiting (segmentOf pkt)) rfl, fun same => ?_⟩
        rw [packetInput_hosting tcp] at same
        obtain ⟨c, there⟩ := waiting_opens listens.1 listens.2 rst
        rw [same] at there
        cases there
      · refine ⟨_, hosting_table (s := ready (segmentOf pkt)) rfl, fun same => ?_⟩
        rw [packetInput_hosting tcp] at same
        obtain ⟨_, _, s', row, rx, wnd, _, fin⟩ := ready_bears rst
        have there := (Stack.row_eq_some.1 row).1
        rw [same, atReady] at there
        obtain rfl := Option.some.inj there
        have noData : (segmentOf pkt).data = [] := by
          have none_ : (segmentOf pkt).data.take 64 = [] := rx.symm
          simpa using none_
        have noFin : (segmentOf pkt).flags.fin = false := by
          by_contra some_
          have := fin ⟨by simpa using some_, noData⟩
          cases this
        have noAck : (segmentOf pkt).flags.ack = false := by
          by_contra some_
          rw [if_pos (by simpa using some_)] at wnd
          change (segmentOf pkt).wnd.toNat + 1 = _ at wnd
          omega
        rcases speaks with data | fin | syn | reset | ack
        · exact data noData
        · exact absurd (fin.symm.trans noFin) nofun
        · exact listens ⟨syn, noAck⟩
        · exact absurd (reset.symm.trans rst) nofun
        · exact absurd (ack.symm.trans noAck) nofun

/-- For every table exactly when it is cut right, a packet puts a run of its payload into a
buffer, and a segment with a bad data offset changes no row. -/
theorem contained_iff (pkt : Bytes) :
    (∀ st, Table st → Contained pkt st (packetInput (tcpInput heldBack) pkt st)) ↔
      CutRight pkt := by
  refine ⟨fun contained tcp => ?_, fun cut st table => packetInput_contained cut table⟩
  have header : 20 ≤ (l4 pkt).length := tcp.2.2
  have data : dataOff (l4 pkt) < (l4 pkt).length → (segmentOf pkt).data ≠ [] := by
    intro some_ none_
    have := List.drop_eq_nil_iff.1 none_
    omega
  have silent : dataOff (l4 pkt) < 20 ∨ (l4 pkt).length < dataOff (l4 pkt) →
      ¬ ((segmentOf pkt).data ≠ [] ∨ (segmentOf pkt).flags.fin ∨ (segmentOf pkt).flags.syn ∨
        (segmentOf pkt).flags.rst ∨ (segmentOf pkt).flags.ack) := by
    intro bad speaks
    obtain ⟨st, table, changed⟩ := packetInput_changes tcp speaks
    exact changed ((contained st table).still tcp bad)
  by_cases short : dataOff (l4 pkt) < 20
  · exact absurd (.inl (data (by omega))) (silent (.inl short))
  by_cases past : (l4 pkt).length < dataOff (l4 pkt)
  · have quiet := silent (.inr past)
    simp only [not_or, Bool.not_eq_true] at quiet
    exact .inr ⟨past, quiet.2.1, quiet.2.2.1, quiet.2.2.2.1, quiet.2.2.2.2⟩
  refine .inl ⟨by omega, by omega, ?_⟩
  by_contra wrong
  simp only [not_or, Bool.not_eq_true] at wrong
  obtain ⟨unclaimed, some_, plain⟩ := wrong
  obtain ⟨_, _, s', row, rx, _⟩ := ready_bears plain
  rw [← packetInput_hosting tcp] at row
  obtain ⟨there, named⟩ := Stack.row_eq_some.1 row
  have table := hosting_table (s := ready (segmentOf pkt)) rfl
  obtain ⟨a, n, run, where_⟩ := (contained _ table).run 0 s' there
  rcases where_ with none_ | ⟨behind, _, claimed, _⟩
  · have before : (hosting (ready (segmentOf pkt))).rxOf ⟨0, s'.id⟩ = [] := by
      simp [Stack.rxOf, named, ready_row]
      rfl
    rw [before, none_, List.take_zero, rx] at run
    exact data (by omega) (by simpa using run)
  · omega

def offsetZero : Bytes :=
  [69, 0, 0, 40, 0, 0, 0, 0, 64, 6, 102, 206, 10, 0, 0, 2, 10, 0, 0, 1,
    19, 136, 0, 80, 0, 0, 0, 8, 0, 0, 3, 233, 0, 16, 16, 0, 196, 9, 0, 0]

/-- The application is given the header itself. -/
theorem contained_fails :
    ¬ ∀ (depth : Nat) (env : Env) (run : List (Env × Call)) (pkt : Bytes),
      Contained pkt (run.foldl (act depth) (Stack.init env))
        (packetInput (tcpInput heldBack) pkt (run.foldl (act depth) (Stack.init env))) := by
  intro contained
  have same := (contained 4 Env.ample visited offsetZero).still (by decide +kernel)
    (.inl (by decide +kernel))
  have before : ((visited.foldl (act 4) (Stack.init Env.ample)).sk 1).map Sock.rx = some [] := by
    decide +kernel
  have after : ((packetInput (tcpInput heldBack) offsetZero
      (visited.foldl (act 4) (Stack.init Env.ample))).sk 1).map Sock.rx =
        some (offsetZero.drop 20) := by
    decide +kernel
  rw [same, before] at after
  exact absurd after (by decide)

end Metal.Net.Ip
