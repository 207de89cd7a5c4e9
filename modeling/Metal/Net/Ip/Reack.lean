import Metal.Net.Ip.Held
import Metal.Net.Ip.Queues

namespace Metal.Net.Ip

open Metal.Lib

/-! Whether a duplicate is answered. -/

variable {st st' : Stack} {r : Ref} {s : Sock} {seg : Segment}

/-- The sequence space that a segment takes: its SYN, its data and its FIN. -/
def Segment.span (seg : Segment) : Nat :=
  (if seg.flags.syn then 1 else 0) + seg.data.length + if seg.flags.fin then 1 else 0

/-- The segment takes sequence space, and all of it lies before `rcv_nxt`, going round:
within the half of the numbers that counts as behind. -/
structure Duplicate (seg : Segment) (s : Sock) : Prop where
  some_ : 0 < seg.span
  before : seg.span ≤ (s.rcvNxt - seg.seq).toNat
  behind : (s.rcvNxt - seg.seq).toNat < 2 ^ 31

def Sock.Synchronized (s : Sock) : Prop :=
  s.tcpSt = .estab ∨ s.tcpSt = .finWait ∨ s.tcpSt = .closeWait ∨ s.tcpSt = .lastAck

/-- What a row has received: how far, what is still to be read and what was read. -/
def Sock.received (s : Sock) : Seq × Bytes × Bytes := (s.rcvNxt, s.rx, s.read)

/-- The segment goes to the row's peer and carries `rcv_nxt`. -/
def Segment.Tells (seg : Segment) (s : Sock) : Prop :=
  seg.ack = s.rcvNxt ∧ seg.dst = s.peer ∧ seg.dport = s.rport ∧ seg.sport = s.lport

/-- What a duplicate is to come to: the row stays with what it has received, and one
segment goes to the peer that acknowledges `rcv_nxt`. -/
structure Reacked (r : Ref) (s : Sock) (st st' : Stack) : Prop where
  row : ∃ s', st'.row r = some s' ∧ s'.received = s.received
  answer : ∃ ack, st'.sent = st.sent ++ [ack] ∧ ack.flags.ack ∧ ack.Tells s

/-- A segment to this address goes out: a device takes it, or it comes back to us and is
ours. -/
def Stack.Leaves (st : Stack) (dst : Addr) : Prop :=
  if st.loUp ∧ (dst = loAddr ∨ dst &&& 0xf0000000 = 0xe0000000) then
    dst = loAddr ∨ st.env.ours dst
  else
    match st.env.wire with
    | [] => True
    | .sent :: _ => True
    | .looped :: _ => st.env.ours dst
    | .wait :: _ => False
    | .error :: _ => False

theorem nest_sent (seg : Segment) (st : Stack) :
    (nest heldBack seg st).sent =
      if (st.loUp ∧ seg.dst = loAddr) ∨ st.env.ours seg.dst then st.sent ++ [seg]
      else st.sent := by
  unfold nest ipInput
  split <;> rfl

theorem outputVia_sent (seg : Segment) (st : Stack) :
    (st.Leaves seg.dst → (outputVia heldBack seg st).1.sent = st.sent ++ [seg] ∧
      (outputVia heldBack seg st).2 = .ok) ∧
    (¬ st.Leaves seg.dst → (outputVia heldBack seg st).1.sent = st.sent) := by
  unfold outputVia Stack.Leaves
  split
  · case isTrue back =>
      have heard : (st.loUp ∧ seg.dst = loAddr) ∨ st.env.ours seg.dst ↔
          seg.dst = loAddr ∨ st.env.ours seg.dst := by
        simp [back.1]
      refine ⟨fun ours => ⟨?_, rfl⟩, fun stranger => ?_⟩
      · rw [nest_sent, if_pos (heard.2 ours)]
      · rw [nest_sent, if_neg (stranger ∘ heard.1)]
  · case isFalse out =>
      match st.env.wire with
      | [] => simp
      | .sent :: _ => simp
      | .wait :: _ => simp
      | .error :: _ => simp
      | .looped :: rest =>
          have heard : (st.loUp ∧ seg.dst = loAddr) ∨ st.env.ours seg.dst ↔
              st.env.ours seg.dst :=
            or_iff_right fun lo => out ⟨lo.1, .inl lo.2⟩
          refine ⟨fun ours => ⟨?_, rfl⟩, fun stranger => ?_⟩
          · exact (nest_sent seg _).trans (if_pos (heard.2 ours))
          · exact (nest_sent seg _).trans (if_neg (stranger ∘ heard.1))

theorem tcpEmit_sent (row : st.row r = some s) (flags : Flags) (seq : Seq) :
    (st.Leaves s.peer → (tcpEmit heldBack flags [] seq r st).2 = .ok ∧
      ∃ out, (tcpEmit heldBack flags [] seq r st).1.sent = st.sent ++ [out] ∧
        out.flags = flags ∧ out.Tells s) ∧
    (¬ st.Leaves s.peer → (tcpEmit heldBack flags [] seq r st).1.sent = st.sent) := by
  have short : ¬ ([] : Bytes).length > tcpMss := by decide
  have ⟨leaves, stays⟩ := outputVia_sent (st.segment s flags [] seq) st
  simp only [tcpEmit, row]
  rw [if_neg short]
  refine ⟨fun out => ?_, stays⟩
  obtain ⟨sent, ok⟩ := leaves out
  exact ⟨ok, _, sent, rfl, rfl, rfl, rfl, rfl⟩

theorem upd_sent (r : Ref) (f : Sock → Sock) (st : Stack) : (st.upd r f).sent = st.sent := by
  cases row : st.row r with
  | none => rw [Stack.upd_of_none row]
  | some s =>
      rw [Stack.upd_of_row row]
      rfl

theorem reserve_received (s : Sock) (now : Nat) (flags : Flags) (data : Bytes) :
    (s.reserve now flags data).received = s.received := by
  unfold Sock.reserve
  split <;> rfl

theorem reserve_tells (s : Sock) (now : Nat) (flags : Flags) (data : Bytes) :
    seg.Tells (s.reserve now flags data) ↔ seg.Tells s := by
  unfold Sock.reserve
  split <;> rfl

theorem reserve_peer (s : Sock) (now : Nat) (flags : Flags) (data : Bytes) :
    (s.reserve now flags data).peer = s.peer := by
  unfold Sock.reserve
  split <;> rfl

theorem tcpXmit_sent (row : st.row r = some s) (flags : Flags)
    (room : flags.ctl = 0 ∨ s.rexmitLen + flags.ctl ≤ s.rexmitCap) :
    (st.Leaves s.peer → (tcpXmit heldBack flags [] r st).2 = .ok ∧
      (∃ s', (tcpXmit heldBack flags [] r st).1.row r = some s' ∧
        s'.received = s.received) ∧
      ∃ out, (tcpXmit heldBack flags [] r st).1.sent = st.sent ++ [out] ∧
        out.flags = flags ∧ out.Tells s) ∧
    (¬ st.Leaves s.peer → (tcpXmit heldBack flags [] r st).1.sent = st.sent) := by
  have fits : ¬ (([] : Bytes).length + flags.ctl ≠ 0 ∧
      s.rexmitLen + (([] : Bytes).length + flags.ctl) > s.rexmitCap) := by
    simp only [List.length_nil]
    omega
  obtain ⟨st₁, s₁, reserved, row₁, kept, told, leaves⟩ : ∃ st₁ s₁,
      (if ([] : Bytes).length + flags.ctl ≠ 0 then
        st.upd r (Sock.reserve st.env.now flags []) else st) = st₁ ∧
      st₁.row r = some s₁ ∧ s₁.received = s.received ∧
      (∀ out : Segment, out.Tells s₁ ↔ out.Tells s) ∧
      (st₁.Leaves s₁.peer ↔ st.Leaves s.peer) ∧ st₁.sent = st.sent := by
    split
    · refine ⟨_, s.reserve st.env.now flags [], rfl, ?_, reserve_received .., ?_, ?_, ?_⟩
      · exact Stack.row_upd row (Frame.reserve s st.env.now flags []).id
      · exact fun out => reserve_tells ..
      · rw [reserve_peer, Stack.upd_of_row row]
        rfl
      · exact upd_sent ..
    · exact ⟨st, s, rfl, row, rfl, fun _ => Iff.rfl, Iff.rfl, rfl⟩
  obtain ⟨leaves, unsent⟩ := leaves
  simp only [tcpXmit, row]
  rw [if_neg fits, reserved]
  obtain ⟨goes, stays⟩ := tcpEmit_sent row₁ flags s.sndNxt
  have same := tcpEmit_held flags [] s.sndNxt r st₁
  rw [leaves] at goes stays
  rw [unsent] at goes stays
  generalize tcpEmit heldBack flags [] s.sndNxt r st₁ = emitted at goes stays same
  obtain ⟨st₂, tx⟩ := emitted
  constructor
  · intro leaving
    obtain ⟨rfl, out, sent, outFlags, tells⟩ := goes leaving
    refine ⟨rfl, ⟨s₁, ?_, kept⟩, out, sent, outFlags, (told out).1 tells⟩
    rw [← row₁]
    exact congrArg (fun o : Option Sock => o.filter fun s => s.id = r.id) (congrFun same r.fd)
  · intro staying
    have still := stays staying
    cases tx with
    | ok => exact still
    | wait | error =>
        dsimp only
        split
        · exact still
        · exact (upd_sent ..).trans still

theorem xmitAck_reacked (row : st.row r = some s) :
    Reacked r s st (tcpXmit heldBack .ackOnly [] r st).1 ↔ st.Leaves s.peer := by
  have ⟨goes, stays⟩ := tcpXmit_sent row .ackOnly (.inl rfl)
  constructor
  · rintro ⟨_, ack, sent, _⟩
    by_contra staying
    rw [stays staying] at sent
    simp at sent
  · intro leaving
    obtain ⟨_, kept, ack, sent, flags, tells⟩ := goes leaving
    exact ⟨kept, ack, sent, by rw [flags]; rfl, tells⟩

theorem Reacked.sent_ne (reacked : Reacked r s st st') : st'.sent ≠ st.sent := by
  obtain ⟨_, ack, sent, _⟩ := reacked
  simp [sent]

theorem Duplicate.seq_ne (dup : Duplicate seg s) : seg.seq ≠ s.rcvNxt := by
  rintro same
  have before := dup.before
  rw [same, UInt32.sub_self] at before
  exact absurd dup.some_ (Nat.not_lt.2 before)

theorem inputState_reacked (row : st.row r = some s) (opened : s.Synchronized)
    (dup : Duplicate seg s) :
    Reacked r s st (inputState heldBack seg r s st) ↔
      st.Leaves s.peer ∧ s.tcpSt ≠ .lastAck ∧ (seg.data ≠ [] ∨ seg.flags.fin) := by
  by_cases last : s.tcpSt = .lastAck
  · have quiet : inputState heldBack seg r s st = st := by simp [inputState, last]
    rw [quiet]
    exact ⟨fun reacked => absurd rfl reacked.sent_ne, fun answers => absurd last answers.2.1⟩
  · have connected : s.tcpSt = .estab ∨ s.tcpSt = .finWait ∨ s.tcpSt = .closeWait := by
      rcases opened with state | state | state | state
      · exact .inl state
      · exact .inr (.inl state)
      · exact .inr (.inr state)
      · exact absurd state last
    have looked : inputState heldBack seg r s st = inputData heldBack seg r s st := by
      rcases connected with state | state | state <;> simp [inputState, state]
    have differs := dup.seq_ne
    rw [looked]
    unfold inputData
    by_cases empty : seg.data = []
    · rw [if_neg (not_not.2 empty)]
      cases fin : seg.flags.fin with
      | true =>
          have early : seg.seq + UInt32.ofNat seg.data.length ≠ s.rcvNxt := by
            simpa [empty] using differs
          simp only [inputFin, row, if_true]
          rw [if_pos early, xmitAck_reacked row]
          exact ⟨fun leaves => ⟨leaves, last, .inr trivial⟩, And.left⟩
      | false =>
          refine ⟨fun reacked => absurd rfl reacked.sent_ne, fun answers => ?_⟩
          exact absurd answers.2.2 (not_or.2 ⟨not_not.2 empty, by simp⟩)
    · rw [if_pos empty, if_pos differs, xmitAck_reacked row]
      exact ⟨fun leaves => ⟨leaves, last, .inl empty⟩, And.left⟩

/-- A closed connection with nothing left to be acknowledged can still send its FIN. -/
structure Finishes (up : Bool) (s : Sock) : Prop where
  noError : s.tcpError = false
  unsent : s.finSent = false
  room : 0 < s.rexmitCap
  active : ¬ (s.peerFin ∧ up ∧ s.raddr = loAddr)

theorem drop_reacked {st : Stack} : ¬ Reacked r s st' (st.drop r.fd) := by
  rintro ⟨⟨s', row, _⟩, _⟩
  exact (Stack.drop_old (Stack.row_eq_some.1 row).1).1 rfl

/-- The end of `tcpClose`, after the answer to its FIN. -/
def closeSent (r : Ref) (s : Sock) (up : Bool) : Stack × Tx → Stack × Int
  | (st, .wait) => (st.upd r fun s => { s with finSent := false }, 0)
  | (st, .error) => (st.dropRef r, -1)
  | (st, .ok) => (if (s.peerFin ∧ up ∧ s.raddr = loAddr) ∧ (st.row r).isSome then
      st.drop r.fd else st, 0)

theorem tcpClose_reacked (row : st.row r = some s) (opened : s.Synchronized)
    (all : s.sndUna = s.sndNxt) :
    Reacked r s st (tcpClose heldBack r st).1 ↔
      st.Leaves s.peer ∧ Finishes st.loUp s ∧ s.rexmitLen = 0 := by
  have state : ¬ (s.tcpSt ≠ .estab ∧ s.tcpSt ≠ .closeWait ∧ s.tcpSt ≠ .finWait ∧
      s.tcpSt ≠ .lastAck) := by
    rcases opened with state | state | state | state <;> simp [state]
  simp only [tcpClose, row]
  by_cases error : s.tcpError
  · rw [if_pos error]
    exact ⟨fun reacked => absurd reacked drop_reacked,
      fun answers => absurd (error.symm.trans answers.2.1.noError) (by decide)⟩
  rw [if_neg error, if_neg state]
  have named := (Stack.row_eq_some.1 row).2
  rw [Stack.upd_of_row row]
  by_cases finSent : s.finSent
  · rw [if_pos finSent]
    exact ⟨fun reacked => absurd rfl reacked.sent_ne,
      fun answers => absurd (finSent.symm.trans answers.2.1.unsent) (by decide)⟩
  rw [if_neg finSent]
  by_cases waits : s.rexmitLen = 0
  · rw [if_neg (by simp [all, waits])]
    let closing : Sock := { s with waiter := none, appClosed := true }
    let finning : Sock :=
      { closing with
        finSent := true
        tcpSt := if s.peerFin then .lastAck else .finWait }
    have row₁ : (st.setRow r.fd (some closing)).row r = some closing :=
      Stack.row_setRow named
    rw [Stack.upd_of_row row₁, Stack.setRow_setRow]
    have row₂ : (st.setRow r.fd (some finning)).row r = some finning :=
      Stack.row_setRow named
    change Reacked r s st (closeSent r s st.loUp
      (tcpXmit heldBack .finAck [] r (st.setRow r.fd (some finning)))).1 ↔ _
    by_cases room : 0 < s.rexmitCap
    · obtain ⟨goes, stays⟩ := tcpXmit_sent row₂ .finAck (.inr (by
        change s.rexmitLen + 1 ≤ s.rexmitCap
        omega))
      generalize tcpXmit heldBack .finAck [] r (st.setRow r.fd (some finning)) = sent
        at goes stays
      obtain ⟨st₃, tx⟩ := sent
      change (st.Leaves s.peer → _) at goes
      change (¬ st.Leaves s.peer → st₃.sent = st.sent) at stays
      by_cases leaves : st.Leaves s.peer
      · obtain ⟨rfl, ⟨s', row', same⟩, out, sent, flags, tells⟩ := goes leaves
        dsimp only [closeSent]
        by_cases active : s.peerFin ∧ st.loUp ∧ s.raddr = loAddr
        · rw [if_pos ⟨active, by rw [row']; rfl⟩]
          exact ⟨fun reacked => absurd reacked drop_reacked,
            fun answers => absurd active answers.2.1.active⟩
        · rw [if_neg fun both => active both.1]
          refine iff_of_true ⟨⟨s', row', same⟩, out, sent, by rw [flags]; rfl, tells⟩ ?_
          exact ⟨leaves, ⟨by simpa using error, by simpa using finSent, room, active⟩, waits⟩
      · have still := stays leaves
        refine iff_of_false (fun reacked => reacked.sent_ne ?_) fun answers => leaves answers.1
        cases tx with
        | ok =>
            dsimp only [closeSent]
            split <;> exact still
        | wait => exact (upd_sent ..).trans still
        | error =>
            dsimp only [closeSent]
            unfold Stack.dropRef
            split <;> exact still
    · have full : tcpXmit heldBack .finAck [] r (st.setRow r.fd (some finning)) =
          (st.setRow r.fd (some finning), .wait) := by
        simp only [tcpXmit, row₂]
        rw [if_pos]
        change 0 + 1 ≠ 0 ∧ s.rexmitLen + (0 + 1) > s.rexmitCap
        omega
      rw [full]
      refine iff_of_false (fun reacked => reacked.sent_ne ?_)
        fun answers => room answers.2.1.room
      exact upd_sent ..
  · rw [if_pos (.inr waits)]
    exact ⟨fun reacked => absurd rfl reacked.sent_ne, fun answers => absurd answers.2.2 waits⟩

def Segment.Empties (seg : Segment) (s : Sock) : Prop :=
  s.rexmitLen = 0 ∨ s.rexmitSeq < seg.ack ∧ s.rexmitLen ≤ (seg.ack - s.rexmitSeq).toNat

/-- The duplicates that are answered: those with data or a FIN, except in LAST_ACK, and those
whose ACK lets a closed connection send its FIN. -/
def Answers (seg : Segment) (s : Sock) (st : Stack) : Prop :=
  st.Leaves s.peer ∧
    (¬ seg.Ends s ∧ s.tcpSt ≠ .lastAck ∧ (seg.data ≠ [] ∨ seg.flags.fin) ∨
      seg.Ends s ∧ Finishes st.loUp s ∧ seg.Empties s)

theorem Reacked.congr {s' : Sock} {st₁ : Stack} (received : s'.received = s.received)
    (tells : ∀ seg : Segment, seg.Tells s' ↔ seg.Tells s) (sent : st₁.sent = st.sent) :
    Reacked r s' st₁ st' ↔ Reacked r s st st' := by
  constructor
  · rintro ⟨⟨t, row, same⟩, ack, out, flag, told⟩
    exact ⟨⟨t, row, same.trans received⟩, ack, out.trans (by rw [sent]), flag, (tells ack).1 told⟩
  · rintro ⟨⟨t, row, same⟩, ack, out, flag, told⟩
    exact ⟨⟨t, row, same.trans received.symm⟩, ack, out.trans (by rw [sent]), flag,
      (tells ack).2 told⟩

theorem trim_empties (s : Sock) (now : Nat) (seg : Segment) :
    (s.acked now seg.ack).rexmitLen = 0 ↔ seg.Empties s := by
  change (s.trim now seg.ack).rexmitLen = 0 ↔ _
  rw [trim_len, Segment.Empties]
  split
  · case isTrue some_ => 
      have := some_.1
      have := some_.2
      simp only [gt_iff_lt] at this
      constructor
      · intro none_
        exact .inr ⟨this, by omega⟩
      · rintro (none_ | ⟨_, covered⟩)
        · omega
        · omega
  · case isFalse not =>
      constructor
      · exact .inl
      · rintro (none_ | ⟨above, _⟩)
        · exact none_
        · by_contra some_
          exact not ⟨some_, above⟩

structure Alike (s s' : Sock) : Prop where
  id : s'.id = s.id
  state : s'.tcpSt = s.tcpSt
  received : s'.received = s.received
  tells : ∀ seg : Segment, seg.Tells s' ↔ seg.Tells s
  peer : s'.peer = s.peer
  finishes : ∀ up, Finishes up s' ↔ Finishes up s

theorem alike_acked (s : Sock) (now : Nat) (ack : Seq) : Alike s (s.acked now ack) := by
  obtain ⟨_, _, _, _, _, _, same⟩ := acked_eq s now ack
  rw [same]
  exact ⟨rfl, rfl, rfl, fun _ => Iff.rfl, rfl, fun up =>
    ⟨fun ⟨error, fin, room, active⟩ => ⟨error, fin, room, active⟩,
      fun ⟨error, fin, room, active⟩ => ⟨error, fin, room, active⟩⟩⟩

theorem alike_heard (s : Sock) (now : Nat) (seg : Segment) : Alike s (s.heard now seg) := by
  obtain ⟨_, _, _, _, _, _, _, _, _, _, same⟩ := heard_eq s now seg
  rw [same]
  exact ⟨rfl, rfl, rfl, fun _ => Iff.rfl, rfl, fun up =>
    ⟨fun ⟨error, fin, room, active⟩ => ⟨error, fin, room, active⟩,
      fun ⟨error, fin, room, active⟩ => ⟨error, fin, room, active⟩⟩⟩

/-- A duplicate that comes to a connection is acknowledged, and changes nothing of what was
received, exactly when the code answers it. -/
theorem reacked_iff (found : st.tcpFind seg = some r) (row : st.row r = some s)
    (opened : s.Synchronized) (plain : seg.flags.rst = false) (dup : Duplicate seg s) :
    Reacked r s st (tcpInput heldBack seg st) ↔ Answers seg s st := by
  have named := (Stack.row_eq_some.1 row).2
  unfold Answers
  by_cases ends : seg.Ends s
  · rw [tcpInput_ends heldBack found row (by simp [plain]) ends]
    by_cases finished : s.finSent ∧ (s.tcpSt = .finWait ∨ s.tcpSt = .lastAck) ∧
        ¬ seg.flags.fin
    · rw [if_pos finished]
      refine iff_of_false drop_reacked ?_
      rintro ⟨_, ⟨goes, _⟩ | ⟨_, finishes, _⟩⟩
      · exact goes ends
      · exact absurd (finished.1.symm.trans finishes.unsent) nofun
    · have empties := trim_empties s st.env.now seg
      have all : (s.acked st.env.now seg.ack).sndUna = (s.acked st.env.now seg.ack).sndNxt := by
        obtain ⟨_, _, _, _, _, _, same⟩ := acked_eq s st.env.now seg.ack
        rw [same]
        exact ends.2.2.1
      obtain ⟨id, state, received, tells, peer, finishes⟩ :=
        alike_acked s st.env.now seg.ack
      generalize s.acked st.env.now seg.ack = s₁ at *
      have row₁ : (st.setRow r.fd (some s₁)).row r = some s₁ :=
        Stack.row_setRow (id.trans named)
      have opened₁ : s₁.Synchronized := by rwa [Sock.Synchronized, state]
      have still : (st.setRow r.fd (some s₁)).sent = st.sent := rfl
      rw [if_neg finished, ← Reacked.congr received tells still,
        tcpClose_reacked row₁ opened₁ all, empties, peer]
      change st.Leaves s.peer ∧ Finishes st.loUp s₁ ∧ _ ↔ _
      rw [finishes]
      constructor
      · rintro ⟨leaves, finish⟩
        exact ⟨leaves, .inr ⟨ends, finish⟩⟩
      · rintro ⟨leaves, ⟨goes, _⟩ | ⟨_, finish⟩⟩
        · exact absurd ends goes
        · exact ⟨leaves, finish⟩
  · rw [tcpInput_state heldBack found row (by simp [plain]) ends]
    obtain ⟨id, state, received, tells, peer, finishes⟩ := alike_heard s st.env.now seg
    generalize s.heard st.env.now seg = s₁ at *
    have row₁ : (st.setRow r.fd (some s₁)).row r = some s₁ :=
      Stack.row_setRow (id.trans named)
    have opened₁ : s₁.Synchronized := by rwa [Sock.Synchronized, state]
    have dup₁ : Duplicate seg s₁ := by
      have same : s₁.rcvNxt = s.rcvNxt := congrArg Prod.fst received
      exact ⟨dup.some_, by rw [same]; exact dup.before, by rw [same]; exact dup.behind⟩
    have still : (st.setRow r.fd (some s₁)).sent = st.sent := rfl
    rw [← Reacked.congr received tells still, inputState_reacked row₁ opened₁ dup₁, peer, state]
    constructor
    · rintro ⟨leaves, answers⟩
      exact ⟨leaves, .inl ⟨ends, answers⟩⟩
    · rintro ⟨leaves, ⟨_, answers⟩ | ⟨ends', _⟩⟩
      · exact ⟨leaves, answers⟩
      · exact absurd ends' ends

def again : Segment :=
  { acking 1000 with seq := 5, flags := { Flags.ackOnly with psh := true }, data := [1, 2] }

def upTo7 : Sock := { sending 1000 [] with rcvNxt := 7 }

theorem reacked_iff_again :
    Reacked ⟨0, 0⟩ upTo7 (alone upTo7) (tcpInput heldBack again (alone upTo7)) := by
  refine (reacked_iff (by decide +kernel) rfl (.inl rfl) rfl
    ⟨by decide +kernel, by decide +kernel, by decide +kernel⟩).mpr ⟨?_, .inl ⟨?_, ?_⟩⟩
  · rw [Stack.Leaves, if_neg (by decide +kernel)]
    exact trivial
  · decide +kernel
  · exact ⟨nofun, .inl nofun⟩

def strangerSynAck : Segment := { strangerSyn 49152 with ack := 2001, flags := .synAck }

def dialled : List (Env × Call) :=
  [.socket .tcp, .connect 0 0x0a000002 5000, .input 1 strangerSynAck].map
    fun call => (Env.ample, call)

/-- Our last segment of a handshake is lost, and the stranger's second comes again. -/
theorem reacked_fails :
    ¬ ∀ (depth : Nat) (env : Env) (run : List (Env × Call)) (r : Ref) (s : Sock)
      (seg : Segment),
      (run.foldl (act depth) (Stack.init env)).tcpFind seg = some r →
      (run.foldl (act depth) (Stack.init env)).row r = some s →
      s.Synchronized → seg.flags.rst = false → Duplicate seg s →
      Reacked r s (run.foldl (act depth) (Stack.init env))
        (tcpInput heldBack seg (run.foldl (act depth) (Stack.init env))) := by
  intro reacked
  have there : ((dialled.foldl (act 4) (Stack.init Env.ample)).row ⟨0, 0⟩).isSome := by
    decide +kernel
  have up : ∀ s ∈ (dialled.foldl (act 4) (Stack.init Env.ample)).row ⟨0, 0⟩,
      s.tcpSt = .estab ∧ s.rcvNxt = 8 := by
    decide +kernel
  obtain ⟨s, row⟩ := Option.isSome_iff_exists.1 there
  obtain ⟨state, next⟩ := up s row
  have dup : Duplicate strangerSynAck s := by
    refine ⟨by decide, ?_, ?_⟩ <;> rw [next] <;> decide
  have answered := reacked 4 Env.ample dialled ⟨0, 0⟩ s strangerSynAck (by decide +kernel) row
    (.inl state) rfl dup
  refine answered.sent_ne ?_
  decide +kernel

end Metal.Net.Ip
