import Metal.Net.Ip.Calls

namespace Metal.Net.Ip

open Metal.Lib

/-! The single moves that calls, inputs and the clock are made of: changes of one
row, and changes of the table. -/

def Local (addr : Addr) : Prop :=
  addr = loAddr ∨ addr &&& 0xf0000000 = 0xe0000000

/-- The segments that may come in, and whether a listener opens a row only for a
sender that has none. Either every segment may come in, or none that does comes
from ourselves. -/
structure World where
  admits : Segment → Prop
  strict : Prop
  far : (∀ seg, admits seg) ∨
    ∀ seg, admits seg → seg.src ≠ 0 ∧ ¬ Local seg.src

def Sock.Connected (s : Sock) : Prop :=
  s.kind = .tcp ∧ s.tcpSt ≠ .listen ∧ s.iss ≠ 0

instance (s : Sock) : Decidable s.Connected :=
  inferInstanceAs (Decidable (_ ∧ _))

def Sock.Owns (s : Sock) (seg : Segment) : Prop :=
  s.Connected ∧ s.lport = seg.dport ∧ s.raddr = seg.src ∧ s.rport = seg.sport

instance (s : Sock) (seg : Segment) : Decidable (s.Owns seg) :=
  inferInstanceAs (Decidable (_ ∧ _))

namespace Sock

structure Closing (s : Sock) : Prop where
  appClosed : s.appClosed = true
  finSent : s.finSent = false
  tcpError : s.tcpError = false
  acked : s.sndUna = s.sndNxt
  empty : s.rexmitLen = 0
  state : s.tcpSt = .estab ∨ s.tcpSt = .closeWait ∨ s.tcpSt = .finWait ∨
    s.tcpSt = .lastAck

def finning (s : Sock) : Sock :=
  { s with finSent := true, tcpSt := if s.peerFin then .lastAck else .finWait }

/-- The segments that take sequence numbers, and the rows they leave from. -/
inductive Launch : Sock → Flags → Bytes → Prop
  | syn {s : Sock} (state : s.tcpSt = .synSent) (nxt : s.sndNxt = s.iss)
      (una : s.sndUna = s.iss) (stream : s.stream = [])
      (clean : s.slip = true ∨ s.rexmitLen = 0) : Launch s .synOnly []
  | synAck {s : Sock} (state : s.tcpSt = .synRcvd) (nxt : s.sndNxt = s.iss)
      (una : s.sndUna = s.iss) (stream : s.stream = [])
      (clean : s.slip = true ∨ s.rexmitLen = 0) : Launch s .synAck []
  | fin {s : Sock} (closing : s.Closing) : Launch s.finning .finAck []
  | data {s : Sock} {data : Bytes} (state : s.tcpSt = .estab)
      (tcpError : s.tcpError = false) (some : data ≠ []) :
      Launch s .pshAck data

def complete (stage : Stage) (s : Sock) : Sock :=
  { s with
    tcpSt := .estab, sndUna := s.sndNxt, stage := stage
    slip := s.slip ∨ s.rexmitLen ≠ 0 }

def enqueue (fd : Fd) (l : Sock) : Sock :=
  { l with acceptQ := l.acceptQ ++ [fd], waiter := none }

def child (id : Nat) (caps : Caps) (l : Sock) (lfd : Fd) (seg : Segment) :
    Sock :=
  { Sock.new id .tcp caps with
    bound := true, l2 := l.l2, laddr := l.laddr, lport := l.lport
    raddr := seg.src, rport := seg.sport, iss := 1000, sndNxt := 1000
    sndUna := 1000, rcvNxt := seg.seq + 1, tcpSt := .synRcvd
    listenFd := some lfd, stage := .half }

end Sock

section World

variable (w : World)

inductive Change : Sock → Sock → Prop
  | quiet (s : Sock) (waiter : Option Nat) (stall wnd tries clock : Nat) :
      Change s
        { s with
          waiter := waiter, wndStallAt := stall, sndWnd := wnd
          rexmitTries := tries, rexmitAt := clock }
  | acked {s : Sock} (seg : Segment) (now : Nat) (admits : w.admits seg)
      (ack : seg.flags.ack = true) (above : seg.ack > s.sndUna)
      (below : seg.ack ≤ s.sndNxt) : Change s (s.acked now seg.ack)
  | reserve {s : Sock} {flags : Flags} {data : Bytes} (now : Nat)
      (launch : s.Launch flags data)
      (fits : s.rexmitLen + (data.length + flags.ctl) ≤ s.rexmitCap) :
      Change s (s.reserve now flags data)
  | refused {s : Sock} {flags : Flags} {data : Bytes} (now : Nat)
      (launch : s.Launch flags data)
      (fits : s.rexmitLen + (data.length + flags.ctl) ≤ s.rexmitCap) :
      Change s (Sock.rollback s (s.reserve now flags data))
  | ackRefused (s : Sock) : Change s (Sock.rollback s s)
  | shut {s : Sock} (letGo : s.appClosed = true ∨ s.stage = .left) :
      Change s { s with waiter := none, appClosed := true }
  | finning {s : Sock} (closing : s.Closing) : Change s s.finning
  | finRefused {s : Sock} (now : Nat) (closing : s.Closing) :
      Change s
        { Sock.rollback s.finning (s.finning.reserve now .finAck []) with
          finSent := false }
  | finNoRoom {s : Sock} (closing : s.Closing) :
      Change s { s.finning with finSent := false }
  | giveUp {s : Sock} (live : s.appClosed = false) (state : s.tcpSt ≠ .synRcvd) :
      Change s { s with tcpError := true, rexmitLen := 0, rexmitEnd := 0 }
  | stall {s : Sock} (empty : s.rexmitLen = 0) :
      Change s { s with tcpError := true, wndStallAt := 0 }
  | consumed (s : Sock) (len : Nat) : Change s (s.consume len)
  | reset {s : Sock} (seg : Segment) (admits : w.admits seg)
      (rst : seg.flags.rst = true) (notListen : s.tcpSt ≠ .listen)
      (notHalf : s.tcpSt ≠ .synRcvd) :
      Change s { s with peerFin := true, tcpSt := .closeWait }
  | established {s : Sock} (seg : Segment) (admits : w.admits seg)
      (syn : seg.flags.syn = true) (ack : seg.flags.ack = true)
      (state : s.tcpSt = .synSent) : Change s (s.establish seg.seq)
  | received {s : Sock} (seg : Segment) (admits : w.admits seg)
      (state : s.tcpSt = .estab ∨ s.tcpSt = .finWait ∨ s.tcpSt = .closeWait)
      (next : seg.seq = s.rcvNxt) : Change s (s.receive seg.data)
  | finIn {s : Sock} (seg : Segment) (admits : w.admits seg)
      (fin : seg.flags.fin = true)
      (next : seg.seq + UInt32.ofNat seg.data.length = s.rcvNxt) :
      Change s s.receiveFin

inductive Emits (st : Stack) (s : Sock) : Segment → Prop
  | plain (flags : Flags) (which : flags = .ackOnly ∨ flags = .rstAck) :
      Emits st s (st.segment s flags [] s.sndNxt)
  | resent (n : Nat) (some : s.rexmitLen ≠ 0)
      (within : n ≤ s.rexmitLen - s.rexmitFlags.ctl) :
      Emits st s (st.segment s s.rexmitFlags (s.rexmit.take n) s.rexmitSeq)
  | fresh {s₀ : Sock} {flags : Flags} {data : Bytes} (now : Nat)
      (launch : s₀.Launch flags data)
      (reserved : s = s₀.reserve now flags data) :
      Emits st s (st.segment s flags data s₀.sndNxt)

def Carries (st st' : Stack) : Prop :=
  ∀ i s', st'.sk i = some s' →
    ∃ s, st.sk i = some s ∧ s'.id = s.id ∧ s'.raddr = s.raddr

inductive Steps : Stack → Stack → Prop
  | refl (st : Stack) : Steps st st
  | trans {st₁ st₂ st₃ : Stack} : Steps st₁ st₂ → Steps st₂ st₃ → Steps st₁ st₃
  | fault (st : Stack) : Steps st { st with fault := true }
  | deep (st : Stack) : Steps st { st with deep := true }
  | via (st : Stack) (h : Int) : Steps st { st with rxL2 := h }
  | grow (st : Stack) (more : Nat) :
      Steps st { st with skCap := st.skCap + more }
  | spend (st : Stack) (wire : List Wire) (room : List (Option Caps))
      (growth : List (Option Nat)) (left : wire ⊆ st.env.wire) :
      Steps st
        { st with env := { st.env with wire := wire, room := room, grow := growth } }
  | sent {st : Stack} {fd : Fd} {s : Sock} {seg : Segment}
      (there : st.sk fd = some s) (emits : Emits st s seg) :
      Steps st { st with sent := st.sent ++ [seg] }
  | change {st : Stack} {fd : Fd} {s s' : Sock} (there : st.sk fd = some s)
      (change : Change w s s') : Steps st (st.setRow fd (some s'))
  | release {st : Stack} {fd : Fd} {s : Sock} (there : st.sk fd = some s)
      (let_go : s.appClosed = true ∨ s.tcpSt = .synRcvd) : Steps st (st.drop fd)
  | finished {st : Stack} {fd : Fd} {s : Sock} (there : st.sk fd = some s)
      (finSent : s.finSent = true) : Steps st (st.drop fd)
  | child {st : Stack} {lfd fd : Fd} {l : Sock} (caps : Caps) (seg : Segment)
      (there : st.sk lfd = some l) (kind : l.kind = .tcp)
      (listens : l.tcpSt = .listen) (admits : w.admits seg)
      (syn : seg.flags.syn = true) (notAck : seg.flags.ack = false)
      (port : l.lport = seg.dport) (free : st.sk fd = none) (room : fd < st.skCap)
      (single : w.strict → ∀ i s, st.sk i = some s → ¬ s.Owns seg) :
      Steps st
        (({ st with nextId := st.nextId + 1 }).setRow fd
          (some (Sock.child st.nextId caps l lfd seg)))
  | queue {st : Stack} {lfd fd : Fd} {s l : Sock} (seg : Segment)
      (there : st.sk fd = some s) (admits : w.admits seg)
      (ack : seg.flags.ack = true) (half : s.tcpSt = .synRcvd)
      (under : s.listenFd = some lfd)
      (listener : (st.setRow fd (some (s.complete .queued))).sk lfd = some l)
      (space : l.acceptQ.length < l.acceptCap) :
      Steps st
        (({ st with queued := st.queued ++ [(l.id, s.id)] }).setRow fd
            (some (s.complete .queued)) |>.setRow lfd (some (l.enqueue fd)))
  | orphan {st : Stack} {fd : Fd} {s : Sock} (seg : Segment)
      (there : st.sk fd = some s) (admits : w.admits seg)
      (ack : seg.flags.ack = true) (half : s.tcpSt = .synRcvd)
      (alone : ∀ lfd, s.listenFd = some lfd → st.sk lfd = none) :
      Steps st (st.setRow fd (some (s.complete .orphan)))
  | refuse {st st' : Stack} {lfd fd : Fd} {s l : Sock} (seg : Segment)
      (there : st.sk fd = some s) (admits : w.admits seg)
      (ack : seg.flags.ack = true) (half : s.tcpSt = .synRcvd)
      (under : s.listenFd = some lfd)
      (listener : (st.setRow fd (some (s.complete .refused))).sk lfd = some l)
      (full : l.acceptCap ≤ l.acceptQ.length)
      (reset : Steps (st.setRow fd (some (s.complete .refused))) st')
      (old : Carries (st.setRow fd (some (s.complete .refused))) st') :
      Steps st (st'.drop fd)

end World

structure Frame (s s' : Sock) : Prop where
  id : s'.id = s.id
  kind : s'.kind = s.kind
  l2 : s'.l2 = s.l2
  laddr : s'.laddr = s.laddr
  lport : s'.lport = s.lport
  raddr : s'.raddr = s.raddr
  rport : s'.rport = s.rport
  iss : s'.iss = s.iss
  listenFd : s'.listenFd = s.listenFd
  acceptQ : s'.acceptQ = s.acceptQ
  acceptCap : s'.acceptCap = s.acceptCap
  stage : s'.stage = s.stage
  held : s'.held = s.held
  appClosed : s.appClosed = true → s'.appClosed = true
  letGo : s'.appClosed = true → s.appClosed = true ∨ s.stage = .left
  listens : s'.tcpSt = .listen ↔ s.tcpSt = .listen
  half : s'.tcpSt = .synRcvd ↔ s.tcpSt = .synRcvd
  finSent : s'.finSent = true →
    s.finSent = true ∨ s.appClosed = true ∨ s.stage = .left

namespace Frame

theorem of_eq {s s' : Sock}
    (same : { s with
      waiter := s'.waiter, wndStallAt := s'.wndStallAt, sndWnd := s'.sndWnd
      rexmitTries := s'.rexmitTries, rexmitAt := s'.rexmitAt
      sndNxt := s'.sndNxt, sndUna := s'.sndUna, rcvNxt := s'.rcvNxt
      rexmit := s'.rexmit, rexmitLen := s'.rexmitLen
      rexmitSeq := s'.rexmitSeq, rexmitEnd := s'.rexmitEnd
      rexmitFlags := s'.rexmitFlags, tcpError := s'.tcpError, rx := s'.rx
      stream := s'.stream, read := s'.read, slip := s'.slip
      peerFin := s'.peerFin } = s') : Frame s s' := by
  rw [← same]
  exact ⟨rfl, rfl, rfl, rfl, rfl, rfl, rfl, rfl, rfl, rfl, rfl, rfl, rfl,
    fun closed => closed, Or.inl, Iff.rfl, Iff.rfl, Or.inl⟩

theorem trans {s₁ s₂ s₃ : Sock} (first : Frame s₁ s₂) (second : Frame s₂ s₃) :
    Frame s₁ s₃ where
  id := second.id.trans first.id
  kind := second.kind.trans first.kind
  l2 := second.l2.trans first.l2
  laddr := second.laddr.trans first.laddr
  lport := second.lport.trans first.lport
  raddr := second.raddr.trans first.raddr
  rport := second.rport.trans first.rport
  iss := second.iss.trans first.iss
  listenFd := second.listenFd.trans first.listenFd
  acceptQ := second.acceptQ.trans first.acceptQ
  acceptCap := second.acceptCap.trans first.acceptCap
  stage := second.stage.trans first.stage
  held := second.held.trans first.held
  appClosed closed := second.appClosed (first.appClosed closed)
  letGo closed := (second.letGo closed).elim first.letGo
    fun letGo => Or.inr (first.stage ▸ letGo)
  listens := second.listens.trans first.listens
  half := second.half.trans first.half
  finSent sent := (second.finSent sent).elim first.finSent fun gone =>
    Or.inr (gone.elim first.letGo fun letGo => Or.inr (first.stage ▸ letGo))

theorem reserve (s : Sock) (now : Nat) (flags : Flags) (data : Bytes) :
    Frame s (s.reserve now flags data) := by
  apply of_eq
  unfold Sock.reserve
  split <;> rfl

theorem rollback (s s' : Sock) : Frame s' (Sock.rollback s s') :=
  of_eq rfl

theorem acked (s : Sock) (now : Nat) (ack : Seq) : Frame s (s.acked now ack) := by
  apply of_eq
  unfold Sock.acked Sock.trim
  dsimp only
  split
  · split <;> rfl
  · rfl

theorem finning {s : Sock} (closing : s.Closing) : Frame s s.finning := by
  have ⟨notListen, notHalf⟩ : s.tcpSt ≠ .listen ∧ s.tcpSt ≠ .synRcvd := by
    rcases closing.state with same | same | same | same <;> rw [same] <;> decide
  have moved : s.finning.tcpSt ≠ .listen ∧ s.finning.tcpSt ≠ .synRcvd := by
    simp only [Sock.finning]
    split <;> decide
  exact ⟨rfl, rfl, rfl, rfl, rfl, rfl, rfl, rfl, rfl, rfl, rfl, rfl, rfl,
    fun closed => closed, Or.inl, iff_of_false moved.1 notListen,
    iff_of_false moved.2 notHalf, fun _ => Or.inr (Or.inl closing.appClosed)⟩

theorem unfin (s : Sock) : Frame s { s with finSent := false } :=
  ⟨rfl, rfl, rfl, rfl, rfl, rfl, rfl, rfl, rfl, rfl, rfl, rfl, rfl,
    fun closed => closed, Or.inl, Iff.rfl, Iff.rfl, nofun⟩

/-- Only the state differs, and it neither was nor is one that is bound up with
the other rows. -/
theorem state {s s' : Sock} (same : Frame { s with tcpSt := s'.tcpSt } s')
    (before : s.tcpSt ≠ .listen ∧ s.tcpSt ≠ .synRcvd)
    (after : s'.tcpSt ≠ .listen ∧ s'.tcpSt ≠ .synRcvd) : Frame s s' :=
  ⟨same.id, same.kind, same.l2, same.laddr, same.lport, same.raddr, same.rport,
    same.iss, same.listenFd, same.acceptQ, same.acceptCap, same.stage, same.held,
    same.appClosed, same.letGo, iff_of_false after.1 before.1,
    iff_of_false after.2 before.2, same.finSent⟩

end Frame

variable {s' s : Sock}

theorem Change.frame {w : World} (change : Change w s s') : Frame s s' := by
  cases change with
  | quiet => exact Frame.of_eq rfl
  | acked seg now => exact Frame.acked s now seg.ack
  | reserve now => exact Frame.reserve s now _ _
  | refused now => exact (Frame.reserve s now _ _).trans (Frame.rollback _ _)
  | ackRefused => exact Frame.rollback _ _
  | shut letGo =>
      exact ⟨rfl, rfl, rfl, rfl, rfl, rfl, rfl, rfl, rfl, rfl, rfl, rfl, rfl,
        fun _ => rfl, fun _ => letGo, Iff.rfl, Iff.rfl, Or.inl⟩
  | finning closing => exact Frame.finning closing
  | finRefused now closing =>
      have reserved := Frame.reserve s.finning now .finAck []
      have back := Frame.rollback s.finning (s.finning.reserve now .finAck [])
      exact (((Frame.finning closing).trans reserved).trans back).trans
        (Frame.unfin _)
  | finNoRoom closing => exact (Frame.finning closing).trans (Frame.unfin _)
  | giveUp | stall | consumed => exact Frame.of_eq rfl
  | reset seg _ _ notListen notHalf =>
      exact Frame.state (Frame.of_eq rfl) ⟨notListen, notHalf⟩ ⟨nofun, nofun⟩
  | established seg _ _ _ state =>
      refine Frame.state (Frame.of_eq rfl) ?_ ⟨nofun, nofun⟩
      rw [state]
      exact ⟨nofun, nofun⟩
  | received => exact Frame.of_eq rfl
  | finIn seg =>
      by_cases estab : s.tcpSt = .estab
      · refine Frame.state (Frame.of_eq rfl) ?_ ?_
        · rw [estab]
          exact ⟨nofun, nofun⟩
        · simp [Sock.receiveFin, estab]
      · simp only [Sock.receiveFin, if_neg estab]
        exact Frame.of_eq rfl

structure Table (st : Stack) : Prop where
  named : ∀ fd s, st.sk fd = some s → s.id < st.nextId
  within : ∀ fd s, st.sk fd = some s → fd < st.skCap
  apart : ∀ fd fd' s s', st.sk fd = some s → st.sk fd' = some s' →
    s.id = s'.id → fd = fd'

structure Far (st : Stack) : Prop where
  wire : Wire.looped ∉ st.env.wire
  rows : ∀ fd s, st.sk fd = some s → ¬ Local s.peer

structure Sound (w : World) (st : Stack) : Prop where
  table : Table st
  inside : (∀ seg, w.admits seg) ∨ Far st

namespace Carries

variable {st st' : Stack}

theorem refl (st : Stack) : Carries st st :=
  fun _ s there => ⟨s, there, rfl, rfl⟩

theorem trans {st'' : Stack} (first : Carries st st') (second : Carries st' st'') :
    Carries st st'' := by
  intro i s'' there
  obtain ⟨s', there', id', raddr'⟩ := second i s'' there
  obtain ⟨s, there, id, raddr⟩ := first i s' there'
  exact ⟨s, there, id'.trans id, raddr'.trans raddr⟩

theorem setRow {fd : Fd} (there : st.sk fd = some s) (id : s'.id = s.id)
    (raddr : s'.raddr = s.raddr) : Carries st (st.setRow fd (some s')) := by
  intro i t there'
  rw [Stack.setRow_sk] at there'
  split at there'
  · rename_i same
    obtain rfl := Option.some.inj there'
    exact ⟨s, same ▸ there, id, raddr⟩
  · exact ⟨t, there', rfl, rfl⟩

theorem upd (r : Ref) {f : Sock → Sock} (id : ∀ s, (f s).id = s.id)
    (raddr : ∀ s, (f s).raddr = s.raddr) : Carries st (st.upd r f) := by
  cases row : st.row r with
  | none =>
      rw [Stack.upd_of_none row]
      exact refl st
  | some s =>
      rw [Stack.upd_of_row row]
      exact setRow (Stack.row_eq_some.1 row).1 (id s) (raddr s)

theorem drop (st : Stack) (fd : Fd) : Carries st (st.drop fd) := by
  intro i s there
  rw [Stack.drop, Stack.setRow_sk] at there
  split at there
  · cases there
  · exact ⟨s, there, rfl, rfl⟩

end Carries

namespace Table

variable {st st' : Stack}

theorem of_names (table : Table st)
    (names : ∀ i s', st'.sk i = some s' → ∃ s, st.sk i = some s ∧ s'.id = s.id)
    (ids : st.nextId ≤ st'.nextId) (cap : st.skCap ≤ st'.skCap) : Table st' where
  named := fun fd s' there' => by
    obtain ⟨s, there, id⟩ := names fd s' there'
    have := table.named fd s there
    omega
  within := fun fd s' there' => by
    obtain ⟨s, there, -⟩ := names fd s' there'
    exact Nat.lt_of_lt_of_le (table.within fd s there) cap
  apart := fun fd₁ fd₂ s₁' s₂' there₁' there₂' same => by
    obtain ⟨s₁, there₁, id₁⟩ := names fd₁ s₁' there₁'
    obtain ⟨s₂, there₂, id₂⟩ := names fd₂ s₂' there₂'
    exact table.apart fd₁ fd₂ s₁ s₂ there₁ there₂
      (id₁.symm.trans (same.trans id₂))

theorem setRow (table : Table st) {fd : Fd} (s' : Sock) (there : st.sk fd = some s)
    (id : s'.id = s.id) : Table (st.setRow fd (some s')) := by
  refine table.of_names (fun i t there' => ?_) (Nat.le_refl _) (Nat.le_refl _)
  rw [Stack.setRow_sk] at there'
  split at there'
  · rename_i same
    obtain rfl := Option.some.inj there'
    exact ⟨s, same ▸ there, id⟩
  · exact ⟨t, there', rfl⟩

theorem insert (table : Table st) {fd : Fd} (id : s.id = st.nextId) (room : fd < st.skCap) :
    Table (({ st with nextId := st.nextId + 1 }).setRow fd (some s)) where
  named := fun i t there => by
    rw [Stack.setRow_sk] at there
    split at there
    · obtain rfl := Option.some.inj there
      exact Nat.lt_succ_of_le (Nat.le_of_eq id)
    · exact Nat.lt_succ_of_lt (table.named i t there)
  within := fun i t there => by
    rw [Stack.setRow_sk] at there
    split at there
    · rename_i same
      exact same ▸ room
    · exact table.within i t there
  apart := fun i j t u there there' same => by
    rw [Stack.setRow_sk] at there there'
    split at there <;> split at there'
    · rename_i same same'
      exact same.trans same'.symm
    · obtain rfl := Option.some.inj there
      exact absurd (table.named j u there') (by rw [← same, id]; exact Nat.lt_irrefl _)
    · obtain rfl := Option.some.inj there'
      exact absurd (table.named i t there) (by rw [same, id]; exact Nat.lt_irrefl _)
    · exact table.apart i j t u there there' same

end Table

namespace Sound

variable {w : World} {st st' : Stack}

theorem of_carries (sound : Sound w st) (carries : Carries st st')
    (ids : st.nextId ≤ st'.nextId) (cap : st.skCap ≤ st'.skCap)
    (wire : st'.env.wire ⊆ st.env.wire) : Sound w st' where
  table := by
    refine sound.table.of_names (fun i s' there' => ?_) ids cap
    obtain ⟨s, there, id, -⟩ := carries i s' there'
    exact ⟨s, there, id⟩
  inside := sound.inside.imp_right fun far =>
    { wire := fun looped => far.wire (wire looped)
      rows := fun fd s' there' => by
        obtain ⟨s, there, -, raddr⟩ := carries fd s' there'
        have := far.rows fd s there
        rwa [Sock.peer, raddr] }

theorem change (sound : Sound w st) {fd : Fd} (there : st.sk fd = some s) (change : Change w s s') :
    Sound w (st.setRow fd (some s')) :=
  sound.of_carries (Carries.setRow there change.frame.id change.frame.raddr)
    (Nat.le_refl _) (Nat.le_refl _) (List.Subset.refl _)

theorem complete (sound : Sound w st) {fd : Fd} (stage : Stage) (there : st.sk fd = some s) :
    Sound w (st.setRow fd (some (s.complete stage))) :=
  sound.of_carries (Carries.setRow there rfl rfl)
    (Nat.le_refl _) (Nat.le_refl _) (List.Subset.refl _)

theorem child (sound : Sound w st) {lfd fd : Fd} {l : Sock} (caps : Caps)
    (seg : Segment) (admits : w.admits seg) (room : fd < st.skCap) :
    Sound w (({ st with nextId := st.nextId + 1 }).setRow fd
      (some (Sock.child st.nextId caps l lfd seg))) where
  table := sound.table.insert rfl room
  inside := by
    rcases sound.inside with all | far
    · exact Or.inl all
    · refine w.far.imp_right fun comes => ⟨far.wire, fun i s there => ?_⟩
      rw [Stack.setRow_sk] at there
      split at there
      · obtain rfl := Option.some.inj there
        have ⟨addressed, notLocal⟩ := comes seg admits
        simpa [Sock.peer, Sock.child, addressed] using notLocal
      · exact far.rows i s there

end Sound

theorem Steps.sound {w : World} {st st' : Stack} (steps : Steps w st st')
    (sound : Sound w st) : Sound w st' := by
  have idle : ∀ {st st' : Stack}, Sound w st → st'.sk = st.sk →
      st'.nextId = st.nextId → st.skCap ≤ st'.skCap →
      st'.env.wire ⊆ st.env.wire → Sound w st' := by
    intro st st' sound sk ids cap wire
    refine sound.of_carries ?_ (Nat.le_of_eq ids.symm) cap wire
    exact fun i s there => ⟨s, sk ▸ there, rfl, rfl⟩
  induction steps with
  | refl => exact sound
  | trans _ _ first second => exact second (first sound)
  | fault | deep | via => exact idle sound rfl rfl (Nat.le_refl _) (List.Subset.refl _)
  | grow => exact idle sound rfl rfl (Nat.le_add_right _ _) (List.Subset.refl _)
  | spend st wire room growth left => exact idle sound rfl rfl (Nat.le_refl _) left
  | sent => exact idle sound rfl rfl (Nat.le_refl _) (List.Subset.refl _)
  | change there change => exact sound.change there change
  | release | finished =>
      exact sound.of_carries (Carries.drop _ _) (Nat.le_refl _) (Nat.le_refl _)
        (List.Subset.refl _)
  | child caps seg _ _ _ admits _ _ _ _ room =>
      exact sound.child caps seg admits room
  | queue seg there _ _ _ _ listener =>
      have done := sound.complete .queued there
      refine done.of_carries ?_ (Nat.le_refl _) (Nat.le_refl _)
        (List.Subset.refl _)
      exact Carries.setRow listener rfl rfl
  | orphan seg there => exact sound.complete .orphan there
  | refuse seg there _ _ _ _ _ _ _ _ reset =>
      exact (reset (sound.complete .refused there)).of_carries
        (Carries.drop _ _) (Nat.le_refl _) (Nat.le_refl _) (List.Subset.refl _)

/-- A row with a name from before is the row from before, changed by `rel`. -/
structure Descends (rel : Sock → Sock → Prop) (st st' : Stack) : Prop where
  ids : st.nextId ≤ st'.nextId
  rows : ∀ fd s', st'.sk fd = some s' → s'.id < st.nextId →
    ∃ s, st.sk fd = some s ∧ s.id = s'.id ∧ rel s s'

namespace Descends

variable {rel : Sock → Sock → Prop} {st st' : Stack}

theorem trans {st'' : Stack} (compose : ∀ s₁ s₂ s₃, rel s₁ s₂ → rel s₂ s₃ → rel s₁ s₃)
    (first : Descends rel st st') (second : Descends rel st' st'') :
    Descends rel st st'' where
  ids := Nat.le_trans first.ids second.ids
  rows := by
    intro fd s'' there'' old
    obtain ⟨s', there', id', rel'⟩ :=
      second.rows fd s'' there'' (Nat.lt_of_lt_of_le old first.ids)
    obtain ⟨s, there, id, rel⟩ := first.rows fd s' there' (id' ▸ old)
    exact ⟨s, there, id.trans id', compose s s' s'' rel rel'⟩

theorem of_sk (self : ∀ s, rel s s) (sk : st'.sk = st.sk)
    (ids : st'.nextId = st.nextId) : Descends rel st st' :=
  ⟨Nat.le_of_eq ids.symm, fun _ s there _ => ⟨s, sk ▸ there, rfl, self s⟩⟩

theorem setRow (self : ∀ s, rel s s) {fd : Fd} (there : st.sk fd = some s) (changed : rel s s')
    (id : s'.id = s.id) : Descends rel st (st.setRow fd (some s')) := by
  refine ⟨Nat.le_refl _, fun i t there' _ => ?_⟩
  rw [Stack.setRow_sk] at there'
  split at there'
  · rename_i same
    obtain rfl := Option.some.inj there'
    exact ⟨s, same ▸ there, id.symm, changed⟩
  · exact ⟨t, there', rfl, self t⟩

theorem drop (self : ∀ s, rel s s) (st : Stack) (fd : Fd) :
    Descends rel st (st.drop fd) := by
  refine ⟨Nat.le_refl _, fun i s there _ => ?_⟩
  rw [Stack.drop, Stack.setRow_sk] at there
  split at there
  · cases there
  · exact ⟨s, there, rfl, self s⟩

end Descends

/-- A relation that every change of a row keeps holds between a row and what
becomes of it. -/
theorem Steps.descends {w : World} {rel : Sock → Sock → Prop} {st st' : Stack}
    (self : ∀ s, rel s s)
    (compose : ∀ s₁ s₂ s₃, rel s₁ s₂ → rel s₂ s₃ → rel s₁ s₃)
    (change : ∀ s s', Change w s s' → rel s s')
    (complete : ∀ s stage, s.tcpSt = .synRcvd → rel s (s.complete stage))
    (queue : ∀ l fd, rel l (l.enqueue fd))
    (steps : Steps w st st') : Descends rel st st' := by
  induction steps with
  | refl => exact Descends.of_sk self rfl rfl
  | trans _ _ first second => exact first.trans compose second
  | fault | deep | via | grow | spend | sent => exact Descends.of_sk self rfl rfl
  | change there changed =>
      exact Descends.setRow self there (change _ _ changed) changed.frame.id
  | release => exact Descends.drop self _ _
  | finished => exact Descends.drop self _ _
  | child =>
      refine ⟨Nat.le_succ _, fun i s there old => ?_⟩
      rw [Stack.setRow_sk] at there
      split at there
      · obtain rfl := Option.some.inj there
        exact absurd old (Nat.lt_irrefl _)
      · exact ⟨s, there, rfl, self s⟩
  | @queue _ _ fd _ _ seg there _ _ half _ listener =>
      have done := Descends.setRow self there (complete _ .queued half) rfl
      have pushed := Descends.setRow self listener (queue _ fd) rfl
      exact done.trans compose ⟨pushed.ids, pushed.rows⟩
  | orphan seg there _ _ half =>
      exact Descends.setRow self there (complete _ .orphan half) rfl
  | refuse seg there _ _ half _ _ _ _ _ reset =>
      have done := Descends.setRow self there (complete _ .refused half) rfl
      exact (done.trans compose reset).trans compose (Descends.drop self _ _)

theorem Steps.appClosed {w : World} {st st' : Stack} (steps : Steps w st st') :
    Descends (fun s s' => s.appClosed = true → s'.appClosed = true) st st' := by
  refine steps.descends ?_ ?_ ?_ ?_ ?_
  · exact fun _ closed => closed
  · exact fun _ _ _ first second closed => second (first closed)
  · exact fun _ _ change => change.frame.appClosed
  · exact fun _ _ _ closed => closed
  · exact fun _ _ closed => closed

end Metal.Net.Ip
