import Metal.Net.Ip.Acks
import Metal.Net.Ip.Reach

namespace Metal.Net.Ip

open Metal.Lib

/-! One input on its own: what it does by itself to the rows. -/

/-- A segment to ourselves is held back. It is logged like one that goes out, and is an
input of its own. -/
def heldBack (seg : Segment) (st : Stack) : Stack := { st with sent := st.sent ++ [seg] }

variable {st st' st'' : Stack} {r : Ref} {s : Sock} {seg : Segment} {flags : Flags}
  {data : Bytes}

def Keeps {α : Type} (keep : Sock → α) (r : Ref) (st st' : Stack) : Prop :=
  ∀ s', st'.sk r.fd = some s' → ∃ s, st.sk r.fd = some s ∧ s'.id = s.id ∧ keep s' = keep s

namespace Keeps

variable {α : Type} {keep : Sock → α}

theorem refl (r : Ref) (st : Stack) : Keeps keep r st st := fun s there => ⟨s, there, rfl, rfl⟩

theorem trans (first : Keeps keep r st st') (second : Keeps keep r st' st'') :
    Keeps keep r st st'' := by
  intro s'' there''
  obtain ⟨s', there', id', same'⟩ := second s'' there''
  obtain ⟨s, there, id, same⟩ := first s' there'
  exact ⟨s, there, id'.trans id, same'.trans same⟩

theorem row (keeps : Keeps keep r st st') {s' : Sock} (there : st'.row r = some s') :
    ∃ s, st.row r = some s ∧ keep s' = keep s := by
  obtain ⟨there, named⟩ := Stack.row_eq_some.1 there
  obtain ⟨s, old, id, same⟩ := keeps s' there
  exact ⟨s, Stack.row_eq_some.2 ⟨old, id.symm.trans named⟩, same⟩

theorem upd (r ls : Ref) {f : Sock → Sock} (id : ∀ s, (f s).id = s.id)
    (same : ∀ s, keep (f s) = keep s) : Keeps keep r st (st.upd ls f) := by
  intro s' there'
  cases row : st.row ls with
  | none =>
      rw [Stack.upd_of_none row] at there'
      exact ⟨s', there', rfl, rfl⟩
  | some l =>
      rw [Stack.upd_of_row row] at there'
      rcases Stack.setRow_old there' with ⟨here, rfl⟩ | ⟨_, old⟩
      · exact ⟨l, here ▸ (Stack.row_eq_some.1 row).1, id l, same l⟩
      · exact ⟨s', old, rfl, rfl⟩

end Keeps

/-- The other slots stay as they are, and the row keeps something of what it is. -/
structure Within {α : Type} (keep : Sock → α) (r : Ref) (st st' : Stack) : Prop where
  others : ∀ i, i ≠ r.fd → st'.sk i = st.sk i
  own : Keeps keep r st st'

namespace Within

variable {α : Type} {keep : Sock → α}

theorem of_sk (r : Ref) (same : st'.sk = st.sk) : Within keep r st st' where
  others := fun i _ => congrFun same i
  own := fun s' there => ⟨s', same ▸ there, rfl, rfl⟩

theorem refl (r : Ref) (st : Stack) : Within keep r st st := of_sk r rfl

theorem trans (first : Within keep r st st') (second : Within keep r st' st'') :
    Within keep r st st'' where
  others := fun i other => (second.others i other).trans (first.others i other)
  own := first.own.trans second.own

theorem put {x : Sock} (row : st.row r = some s) (id : x.id = s.id) (same : keep x = keep s) :
    Within keep r st (st.setRow r.fd (some x)) := by
  refine ⟨fun i other => Stack.setRow_sk_of_ne other _, fun s' there => ?_⟩
  rw [Stack.setRow_sk_same] at there
  obtain rfl := Option.some.inj there
  exact ⟨s, (Stack.row_eq_some.1 row).1, id, same⟩

theorem upd (r : Ref) {f : Sock → Sock} (id : ∀ s, (f s).id = s.id)
    (same : ∀ s, keep (f s) = keep s) : Within keep r st (st.upd r f) where
  others := by
    intro i other
    cases row : st.row r with
    | none => rw [Stack.upd_of_none row]
    | some s => rw [Stack.upd_of_row row, Stack.setRow_sk_of_ne other]
  own := Keeps.upd r r id same

theorem drop (r : Ref) (st : Stack) : Within keep r st (st.drop r.fd) where
  others := fun _ other => Stack.setRow_sk_of_ne other _
  own := fun _ there => absurd rfl (Stack.drop_old there).1

theorem dropRef (r : Ref) (st : Stack) : Within keep r st (st.dropRef r) := by
  unfold Stack.dropRef
  split
  · exact drop r st
  · exact of_sk r rfl

theorem wake (r : Ref) : Within Sock.rx r st (st.wake r) := upd r (fun _ => rfl) fun _ => rfl

end Within

theorem nest_held (seg : Segment) (st : Stack) : (nest heldBack seg st).sk = st.sk := by
  unfold nest ipInput
  split <;> rfl

theorem outputVia_held (seg : Segment) (st : Stack) :
    (outputVia heldBack seg st).1.sk = st.sk := by
  unfold outputVia
  split
  · exact nest_held seg st
  · split
    · rfl
    · rfl
    · exact nest_held seg _
    · rfl
    · rfl

theorem tcpEmit_held (flags : Flags) (data : Bytes) (seq : Seq) (r : Ref) (st : Stack) :
    (tcpEmit heldBack flags data seq r st).1.sk = st.sk := by
  unfold tcpEmit
  split
  · rfl
  · split
    · rfl
    · exact outputVia_held _ st

theorem tcpXmit_keeps {α : Type} {keep : Sock → α}
    (reserve : ∀ s now flags data, keep (Sock.reserve now flags data s) = keep s)
    (rollback : ∀ s s', keep (Sock.rollback s s') = keep s') (flags : Flags) (data : Bytes)
    (r : Ref) (st : Stack) : Within keep r st (tcpXmit heldBack flags data r st).1 := by
  cases row : st.row r with
  | none =>
      simp only [tcpXmit, row]
      exact Within.of_sk r rfl
  | some s =>
      simp only [tcpXmit, row]
      split
      · exact Within.refl r st
      · have reserved : Within keep r st
            (if data.length + flags.ctl ≠ 0 then st.upd r (Sock.reserve st.env.now flags data)
              else st) := by
          split
          · exact Within.upd r (fun s => (Frame.reserve s st.env.now flags data).id)
              fun s => reserve s st.env.now flags data
          · exact Within.refl r st
        generalize (if data.length + flags.ctl ≠ 0 then
          st.upd r (Sock.reserve st.env.now flags data) else st) = st₁ at reserved
        have emitted : Within keep r st₁ (tcpEmit heldBack flags data s.sndNxt r st₁).1 :=
          Within.of_sk r (tcpEmit_held flags data s.sndNxt r st₁)
        generalize tcpEmit heldBack flags data s.sndNxt r st₁ = out at emitted
        obtain ⟨st₂, tx⟩ := out
        have sent := reserved.trans emitted
        have undone : Within keep r st (if tx = .wait ∧ flags.syn ∧ data = [] ∧ s.rexmitLen = 0
            then (st₂, tx) else (st₂.upd r (Sock.rollback s), tx)).1 := by
          split
          · exact sent
          · exact sent.trans (Within.upd r (fun _ => rfl) fun s' => rollback s s')
        cases tx with
        | ok => exact sent
        | wait => exact undone
        | error => exact undone

theorem reserve_rx (s : Sock) (now : Nat) (flags : Flags) (data : Bytes) :
    (s.reserve now flags data).rx = s.rx := by
  unfold Sock.reserve
  split <;> rfl

theorem tcpXmit_within (flags : Flags) (data : Bytes) (r : Ref) (st : Stack) :
    Within Sock.rx r st (tcpXmit heldBack flags data r st).1 :=
  tcpXmit_keeps reserve_rx (fun _ _ => rfl) flags data r st

theorem tcpClose_within (r : Ref) (st : Stack) :
    Within Sock.rx r st (tcpClose heldBack r st).1 := by
  cases row : st.row r with
  | none =>
      simp only [tcpClose, row]
      exact Within.of_sk r rfl
  | some s =>
      have shut :
          Within Sock.rx r st (st.upd r fun s => { s with waiter := none, appClosed := true }) :=
        Within.upd r (fun _ => rfl) fun _ => rfl
      simp only [tcpClose, row]
      generalize st.upd r (fun s => { s with waiter := none, appClosed := true }) = st₁ at shut
      have dropped := shut.trans (Within.drop r st₁)
      split
      · exact dropped
      · split
        · exact dropped
        · split
          · exact shut
          · split
            · exact shut
            · have marked : Within Sock.rx r st₁ (st₁.upd r fun s =>
                  { s with
                    finSent := true
                    tcpSt := if s.peerFin then .lastAck else .finWait }) :=
                Within.upd r (fun _ => rfl) fun _ => rfl
              replace marked := shut.trans marked
              generalize st₁.upd r _ = st₂ at marked
              have sent := marked.trans (tcpXmit_within .finAck [] r st₂)
              generalize tcpXmit heldBack .finAck [] r st₂ = out at sent
              obtain ⟨st₃, tx⟩ := out
              cases tx with
              | ok =>
                  dsimp only
                  split
                  · exact sent.trans (Within.drop r st₃)
                  · exact sent
              | wait => exact sent.trans (Within.upd r (fun _ => rfl) fun _ => rfl)
              | error => exact sent.trans (Within.dropRef r st₃)

theorem inputReset_within (r : Ref) (s : Sock) (st : Stack) :
    Within Sock.rx r st (inputReset r s st) := by
  unfold inputReset
  split
  · exact Within.drop r st
  · have marked : Within Sock.rx r st (st.upd r fun s =>
        { s with peerFin := true, tcpSt := .closeWait }) :=
      Within.upd r (fun _ => rfl) fun _ => rfl
    replace marked := marked.trans (Within.wake r)
    dsimp only
    split
    · exact marked.trans (Within.drop r _)
    · exact marked

theorem acked_rx (s : Sock) (now : Nat) (ack : Seq) : (s.acked now ack).rx = s.rx := by
  unfold Sock.acked Sock.trim
  dsimp only
  split
  · split <;> rfl
  · rfl

theorem inputAck_within (seg : Segment) (r : Ref) (row : st.row r = some s) :
    Within Sock.rx r st (inputAck heldBack seg r s st).1 := by
  unfold inputAck
  split
  · have acked : Within Sock.rx r st (st.upd r fun _ => s.acked st.env.now seg.ack) := by
      rw [Stack.upd_of_row row]
      exact Within.put row (Frame.acked s st.env.now seg.ack).id
        (acked_rx s st.env.now seg.ack)
    dsimp only
    split
    · exact acked.trans (Within.drop r _)
    · split
      · exact acked.trans (tcpClose_within r _)
      · exact acked
  · exact Within.refl r st

theorem inputWindow_within (seg : Segment) (r : Ref) (s : Sock) (st : Stack) :
    Within Sock.rx r st (inputWindow seg r s st) := by
  unfold inputWindow
  have sized : Within Sock.rx r st (st.upd r fun s => { s with sndWnd := seg.wnd.toNat }) :=
    Within.upd r (fun _ => rfl) fun _ => rfl
  split
  · split
    · exact sized.trans (Within.wake r)
    · exact sized
  · exact Within.refl r st

theorem inputFin_within (seg : Segment) (r : Ref) (st : Stack) :
    Within Sock.rx r st (inputFin heldBack seg r st) := by
  unfold inputFin
  split
  · exact Within.of_sk r rfl
  · split
    · exact tcpXmit_within .ackOnly [] r st
    · have counted : Within Sock.rx r st (st.upd r Sock.receiveFin) :=
        Within.upd r (fun _ => rfl) fun _ => rfl
      have answered := (counted.trans (tcpXmit_within .ackOnly [] r _)).trans (Within.wake r)
      dsimp only
      generalize (tcpXmit heldBack .ackOnly [] r (st.upd r Sock.receiveFin)).1.wake r = st₁
        at answered
      split
      · exact answered.trans (Within.of_sk r rfl)
      · split
        · exact answered.trans (Within.drop r st₁)
        · split
          · exact answered.trans (tcpClose_within r st₁)
          · exact answered

def Segment.Ends (seg : Segment) (s : Sock) : Prop :=
  seg.flags.ack ∧ s.Accepts seg.ack ∧ seg.ack = s.sndNxt ∧
    (s.finSent ∧ (s.tcpSt = .finWait ∨ s.tcpSt = .lastAck) ∧ ¬ seg.flags.fin ∨ s.appClosed)

instance (seg : Segment) (s : Sock) : Decidable (seg.Ends s) :=
  inferInstanceAs (Decidable (_ ∧ _))

def Sock.heard (now : Nat) (seg : Segment) (s : Sock) : Sock :=
  if seg.flags.ack then
    { s.ackedBy now seg.ack with
      sndWnd := seg.wnd.toNat
      waiter := if seg.wnd.toNat > s.sndWnd then none else (s.ackedBy now seg.ack).waiter }
  else s

theorem acked_eq (s : Sock) (now : Nat) (ack : Seq) :
    ∃ bytes len seq tries end_ at_, s.acked now ack =
      { s with
        sndUna := ack, rexmit := bytes, rexmitLen := len, rexmitSeq := seq
        rexmitTries := tries, rexmitEnd := end_, rexmitAt := at_, wndStallAt := 0
        waiter := none } := by
  unfold Sock.acked Sock.trim
  dsimp only
  split
  · split <;> exact ⟨_, _, _, _, _, _, rfl⟩
  · exact ⟨_, _, _, _, _, _, rfl⟩

theorem heard_eq (s : Sock) (now : Nat) (seg : Segment) :
    ∃ una wnd bytes len seq tries end_ at_ stall waiter, s.heard now seg =
      { s with
        sndUna := una, sndWnd := wnd, rexmit := bytes, rexmitLen := len, rexmitSeq := seq
        rexmitTries := tries, rexmitEnd := end_, rexmitAt := at_, wndStallAt := stall
        waiter := waiter } := by
  unfold Sock.heard Sock.ackedBy
  split
  · split
    · obtain ⟨bytes, len, seq, tries, end_, at_, same⟩ := acked_eq s now seg.ack
      rw [same]
      exact ⟨_, _, _, _, _, _, _, _, _, _, rfl⟩
    · exact ⟨_, _, _, _, _, _, _, _, _, _, rfl⟩
  · exact ⟨_, _, _, _, _, _, _, _, _, _, rfl⟩

section Deliver

variable (deliver : Segment → Stack → Stack)

theorem inputWindow_row {t : Sock} (row : st.row r = some t) (flag : seg.flags.ack) :
    inputWindow seg r s st = st.setRow r.fd
      (some { t with
        sndWnd := seg.wnd.toNat
        waiter := if seg.wnd.toNat > s.sndWnd then none else t.waiter }) := by
  unfold inputWindow
  rw [if_pos flag]
  split
  · have sized : (st.upd r fun s => { s with sndWnd := seg.wnd.toNat }).row r =
        some { t with sndWnd := seg.wnd.toNat } := Stack.row_upd row rfl
    rw [Stack.wake, Stack.upd_of_row sized, Stack.upd_of_row row, Stack.setRow_setRow]
  · rw [Stack.upd_of_row row]

section Find

variable (found : st.tcpFind seg = some r)
  (row : st.row r = some s)
  (plain : ¬ (seg.flags.rst ∧ s.tcpSt ≠ .listen))
include found row plain

theorem tcpInput_state (goes : ¬ seg.Ends s) :
    tcpInput deliver seg st = inputState deliver seg r (s.heard st.env.now seg)
      (st.setRow r.fd (some (s.heard st.env.now seg))) := by
  have named := (Stack.row_eq_some.1 row).2
  have acked : inputAck deliver seg r s st =
      (if seg.flags.ack then st.setRow r.fd (some (s.ackedBy st.env.now seg.ack)) else st,
        false) := by
    unfold inputAck Sock.ackedBy
    cases flag : seg.flags.ack with
    | false => simp
    | true =>
        by_cases accepts : s.Accepts seg.ack
        · obtain ⟨bytes, len, seq, tries, end_, at_, same⟩ := acked_eq s st.env.now seg.ack
          have stays (more : s.finSent ∧ (s.tcpSt = .finWait ∨ s.tcpSt = .lastAck) ∧
              ¬ seg.flags.fin ∨ s.appClosed) : seg.ack ≠ s.sndNxt :=
            fun all => goes ⟨flag, accepts, all, more⟩
          rw [if_pos ⟨rfl, accepts⟩, if_pos accepts, if_pos rfl]
          dsimp only
          rw [Stack.upd_of_row row, same]
          dsimp only
          rw [if_neg fun ends => stays (.inl ⟨ends.1, ends.2.2⟩) ends.2.1,
            if_neg fun ends => stays (.inr ends.1) ends.2]
        · rw [if_neg fun both => accepts both.2, if_neg accepts, if_pos rfl,
            Stack.setRow_self (Stack.row_eq_some.1 row).1]
  simp only [tcpInput, found, row]
  rw [if_neg plain, acked]
  dsimp only
  cases flag : seg.flags.ack with
  | false =>
      have quiet : inputWindow seg r s st = st := by simp [inputWindow, flag]
      have same : s.heard st.env.now seg = s := by simp [Sock.heard, flag]
      rw [if_neg (by simp), quiet, row, same, Stack.setRow_self (Stack.row_eq_some.1 row).1]
  | true =>
      have there : (st.setRow r.fd (some (s.ackedBy st.env.now seg.ack))).row r =
          some (s.ackedBy st.env.now seg.ack) := by
        refine Stack.row_setRow (Eq.trans ?_ named)
        unfold Sock.ackedBy
        split
        · exact (Frame.acked s st.env.now seg.ack).id
        · rfl
      rw [if_pos rfl, inputWindow_row there flag, Stack.setRow_setRow]
      have heard : s.heard st.env.now seg =
          { s.ackedBy st.env.now seg.ack with
            sndWnd := seg.wnd.toNat
            waiter := if seg.wnd.toNat > s.sndWnd then none
              else (s.ackedBy st.env.now seg.ack).waiter } := by
        rw [Sock.heard, if_pos flag]
      rw [← heard, Stack.row_setRow]
      rw [heard]
      exact (Stack.row_eq_some.1 there).2

theorem tcpInput_ends (ends : seg.Ends s) :
    tcpInput deliver seg st =
      if s.finSent ∧ (s.tcpSt = .finWait ∨ s.tcpSt = .lastAck) ∧ ¬ seg.flags.fin then
        (st.setRow r.fd (some (s.acked st.env.now seg.ack))).drop r.fd
      else (tcpClose deliver r (st.setRow r.fd (some (s.acked st.env.now seg.ack)))).1 := by
  obtain ⟨flag, accepts, all, more⟩ := ends
  obtain ⟨bytes, len, seq, tries, end_, at_, same⟩ := acked_eq s st.env.now seg.ack
  have acked : inputAck deliver seg r s st =
      (if s.finSent ∧ (s.tcpSt = .finWait ∨ s.tcpSt = .lastAck) ∧ ¬ seg.flags.fin then
        (st.setRow r.fd (some (s.acked st.env.now seg.ack))).drop r.fd
      else (tcpClose deliver r (st.setRow r.fd (some (s.acked st.env.now seg.ack)))).1,
        true) := by
    unfold inputAck
    rw [if_pos ⟨flag, accepts⟩]
    dsimp only
    rw [Stack.upd_of_row row, same]
    dsimp only
    by_cases finished : s.finSent ∧ (s.tcpSt = .finWait ∨ s.tcpSt = .lastAck) ∧
        ¬ seg.flags.fin
    · rw [if_pos ⟨finished.1, all, finished.2⟩, if_pos finished]
    · have closed : s.appClosed := more.resolve_left finished
      rw [if_neg fun ends => finished ⟨ends.1, ends.2.2⟩, if_pos ⟨closed, all⟩,
        if_neg finished]
  simp only [tcpInput, found, row]
  rw [if_neg plain, acked]

end Find

end Deliver

/-- The other rows stay, at most that a listener gets one more row to hand out; and what is
new has received nothing. -/
structure Beside (r : Ref) (st st' : Stack) : Prop where
  kept : ∀ i s, i ≠ r.fd → st.sk i = some s →
    ∃ s', st'.sk i = some s' ∧ s'.id = s.id ∧ s'.tcpSt = s.tcpSt ∧ s'.rx = s.rx
  born : ∀ i s', i ≠ r.fd → st.sk i = none → st'.sk i = some s' → s'.rx = []

namespace Beside

theorem of_others (others : ∀ i, i ≠ r.fd → st'.sk i = st.sk i) : Beside r st st' where
  kept := fun i s other there => ⟨s, (others i other).trans there, rfl, rfl, rfl⟩
  born := fun i _ other free there =>
    absurd (free.symm.trans ((others i other).symm.trans there)) nofun

theorem refl (r : Ref) (st : Stack) : Beside r st st := of_others fun _ _ => rfl

theorem trans (first : Beside r st st') (second : Beside r st' st'') : Beside r st st'' where
  kept := by
    intro i s other there
    obtain ⟨s', there', id', state', rx'⟩ := first.kept i s other there
    obtain ⟨s'', there'', id'', state'', rx''⟩ := second.kept i s' other there'
    exact ⟨s'', there'', id''.trans id', state''.trans state', rx''.trans rx'⟩
  born := by
    intro i s'' other free there''
    cases there' : st'.sk i with
    | none => exact second.born i s'' other there' there''
    | some s' =>
        obtain ⟨t, there, _, _, rx⟩ := second.kept i s' other there'
        obtain rfl := Option.some.inj (there.symm.trans there'')
        exact rx.trans (first.born i s' other free there')

theorem upd (r ls : Ref) {f : Sock → Sock} (id : ∀ s, (f s).id = s.id)
    (state : ∀ s, (f s).tcpSt = s.tcpSt) (rx : ∀ s, (f s).rx = s.rx) :
    Beside r st (st.upd ls f) := by
  cases row : st.row ls with
  | none =>
      rw [Stack.upd_of_none row]
      exact of_others fun _ _ => rfl
  | some l =>
      have there := (Stack.row_eq_some.1 row).1
      rw [Stack.upd_of_row row]
      constructor
      · intro i s _ thereS
        rw [Stack.setRow_sk]
        split
        · case isTrue same =>
            obtain rfl := Option.some.inj ((same ▸ thereS).symm.trans there)
            exact ⟨f s, rfl, id s, state s, rx s⟩
        · exact ⟨s, thereS, rfl, rfl, rfl⟩
      · intro i s' _ free there'
        rcases Stack.setRow_old there' with ⟨rfl, _⟩ | ⟨_, old⟩
        · exact absurd (free.symm.trans there) nofun
        · exact absurd (free.symm.trans old) nofun

end Beside

theorem Within.beside {α : Type} {keep : Sock → α} (within : Within keep r st st') :
    Beside r st st' := Beside.of_others within.others

theorem inputListen_beside (table : Table st) (seg : Segment) (r : Ref) (s : Sock) :
    (∀ i t, st.sk i = some t → (inputListen heldBack seg r s st).sk i = some t) ∧
      ∀ i t, st.sk i = none → (inputListen heldBack seg r s st).sk i = some t → t.rx = [] := by
  have allocates := sockAlloc_allocates .tcp table
  unfold inputListen
  generalize st.sockAlloc .tcp = out at allocates
  cases allocates with
  | failed prepares =>
      refine ⟨fun i t there => (congrFun prepares.sk i).trans there, fun i t free there => ?_⟩
      exact absurd (free.symm.trans ((congrFun prepares.sk i).symm.trans there)) nofun
  | @took st' fd caps prepares free room =>
      have newRow : (({ st' with nextId := st'.nextId + 1 }).setRow fd
          (some (Sock.new st'.nextId .tcp caps))).row ⟨fd, st'.nextId⟩ =
            some (Sock.new st'.nextId .tcp caps) :=
        Stack.row_eq_some.2 ⟨Stack.setRow_sk_same _, rfl⟩
      dsimp only
      rw [Stack.upd_of_row newRow, Stack.setRow_setRow]
      have within := tcpXmit_within .synAck [] ⟨fd, st'.nextId⟩
        (({ st' with nextId := st'.nextId + 1 }).setRow fd
          (some { Sock.new st'.nextId .tcp caps with
            bound := true, l2 := s.l2, laddr := s.laddr, lport := s.lport
            raddr := seg.src, rport := seg.sport, iss := 1000, sndNxt := 1000
            sndUna := 1000, rcvNxt := seg.seq + 1, tcpSt := .synRcvd
            listenFd := some r.fd, stage := .half }))
      have others (i : Fd) (apart : i ≠ fd) := (within.others i apart).trans
        ((Stack.setRow_sk_of_ne apart _).trans (congrFun prepares.sk i))
      constructor
      · intro i t there
        have apart : i ≠ fd := fun same => by
          rw [same, free] at there
          cases there
        exact (others i apart).trans there
      · intro i t none_ there
        by_cases apart : i = fd
        · subst apart
          obtain ⟨t', there', _, rx⟩ := within.own t there
          rw [Stack.setRow_sk_same] at there'
          rw [rx, ← Option.some.inj there']
          rfl
        · exact absurd (none_.symm.trans ((others i apart).symm.trans there)) nofun

theorem tcpQueueAccept_beside (ls r : Ref) (st : Stack) :
    Beside r st (tcpQueueAccept heldBack ls r st) := by
  unfold tcpQueueAccept
  split
  · exact Beside.of_others fun _ _ => rfl
  · split
    · have staged : Within Sock.rx r st (st.upd r fun c => { c with stage := .queued }) :=
        Within.upd r (fun _ => rfl) fun _ => rfl
      dsimp only
      generalize st.upd r (fun c => { c with stage := .queued }) = st₁ at staged
      let logged : Stack := { st₁ with queued := st₁.queued ++ [(ls.id, r.id)] }
      have entered : Beside r st logged := Beside.of_others staged.others
      have pushed : Beside r logged (logged.upd ls fun l =>
          { l with acceptQ := l.acceptQ ++ [r.fd] }) :=
        Beside.upd r ls (fun _ => rfl) (fun _ => rfl) fun _ => rfl
      exact (entered.trans pushed).trans
        (Beside.upd r ls (fun _ => rfl) (fun _ => rfl) fun _ => rfl)
    · have staged : Within Sock.rx r st (st.upd r fun c => { c with stage := .refused }) :=
        Within.upd r (fun _ => rfl) fun _ => rfl
      exact ((staged.trans (tcpXmit_within .rstAck [] r _)).trans (Within.drop r _)).beside

theorem tcpQueueAccept_keeps {α : Type} {keep : Sock → α}
    (staged : ∀ s stage, keep { s with stage := stage } = keep s)
    (queued : ∀ s queue, keep { s with acceptQ := queue } = keep s)
    (woken : ∀ s, keep { s with waiter := none } = keep s)
    (reserve : ∀ s now flags data, keep (Sock.reserve now flags data s) = keep s)
    (rollback : ∀ s s', keep (Sock.rollback s s') = keep s') (ls r : Ref) (st : Stack) :
    Keeps keep r st (tcpQueueAccept heldBack ls r st) := by
  unfold tcpQueueAccept
  split
  · exact Keeps.refl r st
  · split
    · have entered : Keeps keep r st (st.upd r fun c => { c with stage := .queued }) :=
        Keeps.upd r r (fun _ => rfl) fun s => staged s _
      dsimp only
      generalize st.upd r (fun c => { c with stage := .queued }) = st₁ at entered
      let logged : Stack := { st₁ with queued := st₁.queued ++ [(ls.id, r.id)] }
      have pushed : Keeps keep r logged (logged.upd ls fun l =>
          { l with acceptQ := l.acceptQ ++ [r.fd] }) :=
        Keeps.upd r ls (fun _ => rfl) fun s => queued s _
      have woke : Keeps keep r logged ((logged.upd ls fun l =>
          { l with acceptQ := l.acceptQ ++ [r.fd] }).wake ls) :=
        pushed.trans (Keeps.upd r ls (fun _ => rfl) fun s => woken s)
      exact entered.trans woke
    · have refused : Keeps keep r st (st.upd r fun c => { c with stage := .refused }) :=
        Keeps.upd r r (fun _ => rfl) fun s => staged s _
      have reset := tcpXmit_keeps reserve rollback .rstAck [] r
        (st.upd r fun c => { c with stage := .refused })
      exact (refused.trans reset.own).trans (Within.drop r _).own

theorem inputComplete_beside (r : Ref) (s : Sock) (st : Stack) :
    Beside r st (inputComplete heldBack r s st) := by
  have done : Within Sock.rx r st (st.upd r fun s =>
      { s with
        tcpSt := .estab, sndUna := s.sndNxt, stage := .orphan
        slip := s.slip ∨ s.rexmitLen ≠ 0 }) :=
    Within.upd r (fun _ => rfl) fun _ => rfl
  unfold inputComplete
  dsimp only
  split
  · exact done.beside
  · split
    · exact done.beside
    · exact done.beside.trans (tcpQueueAccept_beside _ r _)

theorem inputData_others (seg : Segment) (r : Ref) (s : Sock) (st : Stack) :
    ∀ i, i ≠ r.fd → (inputData heldBack seg r s st).sk i = st.sk i := by
  unfold inputData
  split
  · split
    · exact (tcpXmit_within .ackOnly [] r st).others
    · intro i other
      have taken : (st.upd r (Sock.receive seg.data)).sk i = st.sk i := by
        cases row : st.row r with
        | none => rw [Stack.upd_of_none row]
        | some s => rw [Stack.upd_of_row row, Stack.setRow_sk_of_ne other]
      have answered := (tcpXmit_within .ackOnly [] r (st.upd r (Sock.receive seg.data))).trans
        (Within.wake r)
      dsimp only
      split
      · exact ((answered.trans (inputFin_within seg r _)).others i other).trans taken
      · exact (answered.others i other).trans taken
  · split
    · exact (inputFin_within seg r st).others
    · exact fun _ _ => rfl

theorem inputState_beside (seg : Segment) (r : Ref) (s : Sock)
    (table : seg.flags.ack = false → Table st) :
    Beside r st (inputState heldBack seg r s st) := by
  unfold inputState
  split
  · split
    · exact Beside.of_others fun i _ => congrFun (tcpEmit_held _ _ _ r st) i
    · exact Beside.refl r st
  · split
    · case isTrue opens =>
        have ⟨kept, born⟩ := inputListen_beside (table (by simpa using opens.2.2)) seg r s
        exact ⟨fun i t _ there => ⟨t, kept i t there, rfl, rfl, rfl⟩,
          fun i t _ free there => born i t free there⟩
    · split
      · have up : Within Sock.rx r st (st.upd r (Sock.establish seg.seq)) :=
          Within.upd r (fun _ => rfl) fun _ => rfl
        exact ((up.trans (tcpXmit_within .ackOnly [] r _)).trans (Within.wake r)).beside
      · split
        · exact inputComplete_beside r s st
        · split
          · exact Beside.of_others (inputData_others seg r s st)
          · exact Beside.refl r st

theorem input_quiet (seg : Segment) (r : Ref) (s : Sock) (st : Stack)
    (notAck : seg.flags.ack = false) :
    inputAck heldBack seg r s st = (st, false) ∧ inputWindow seg r s st = st := by
  simp [inputAck, inputWindow, notAck]

theorem tcpInput_beside (table : Table st) (found : st.tcpFind seg = some r) :
    Beside r st (tcpInput heldBack seg st) := by
  obtain ⟨s, row, _⟩ := tcpFind_spec found
  simp only [tcpInput, found, row]
  split
  · exact (inputReset_within r s st).beside
  · have acked := (inputAck_within seg r row).beside
    have quiet := input_quiet seg r s st
    generalize inputAck heldBack seg r s st = out at acked quiet
    obtain ⟨st₁, ends⟩ := out
    cases ends with
    | true => exact acked
    | false =>
        have windowed := acked.trans (inputWindow_within seg r s st₁).beside
        have fresh : seg.flags.ack = false → Table (inputWindow seg r s st₁) := by
          intro notAck
          obtain ⟨same, still⟩ := quiet notAck
          obtain rfl : st₁ = st := congrArg Prod.fst same
          rw [still]
          exact table
        dsimp only
        split
        · exact windowed
        · exact windowed.trans (inputState_beside seg r _ fresh)


def Takes (seg : Segment) (r : Ref) (st st' : Stack) : Prop :=
  ∀ s', st'.sk r.fd = some s' →
    ∃ s n, st.sk r.fd = some s ∧ s'.id = s.id ∧ s'.rx = s.rx ++ seg.data.take n

theorem Keeps.takes (keeps : Keeps Sock.rx r st st') (seg : Segment) : Takes seg r st st' := by
  intro s' there'
  obtain ⟨s, there, id, same⟩ := keeps s' there'
  exact ⟨s, 0, there, id, by rw [same, List.take_zero, List.append_nil]⟩

theorem Takes.trans (takes : Takes seg r st st') (keeps : Keeps Sock.rx r st' st'') :
    Takes seg r st st'' := by
  intro s'' there''
  obtain ⟨s', there', id', same⟩ := keeps s'' there''
  obtain ⟨s, n, there, id, rx⟩ := takes s' there'
  exact ⟨s, n, there, id'.trans id, same.trans rx⟩

theorem Keeps.trans_takes (keeps : Keeps Sock.rx r st st') (takes : Takes seg r st' st'') :
    Takes seg r st st'' := by
  intro s'' there''
  obtain ⟨s', n, there', id', rx⟩ := takes s'' there''
  obtain ⟨s, there, id, same⟩ := keeps s' there'
  exact ⟨s, n, there, id'.trans id, by rw [rx, same]⟩

theorem takes_receive (seg : Segment) (r : Ref) (st : Stack) :
    Takes seg r st (st.upd r (Sock.receive seg.data)) := by
  cases row : st.row r with
  | none =>
      rw [Stack.upd_of_none row]
      exact (Keeps.refl r st).takes seg
  | some s =>
      intro s' there'
      rw [Stack.upd_of_row row, Stack.setRow_sk_same] at there'
      rw [← Option.some.inj there']
      exact ⟨s, _, (Stack.row_eq_some.1 row).1, rfl, rfl⟩

theorem inputData_takes (seg : Segment) (r : Ref) (s : Sock) (st : Stack) :
    Takes seg r st (inputData heldBack seg r s st) := by
  unfold inputData
  split
  · split
    · exact (tcpXmit_within .ackOnly [] r st).own.takes seg
    · have taken := takes_receive seg r st
      have answered := (tcpXmit_within .ackOnly [] r (st.upd r (Sock.receive seg.data))).trans
        (Within.wake r)
      dsimp only
      split
      · exact taken.trans (answered.trans (inputFin_within seg r _)).own
      · exact taken.trans answered.own
  · split
    · exact (inputFin_within seg r st).own.takes seg
    · exact (Keeps.refl r st).takes seg

theorem inputComplete_rx (r : Ref) (s : Sock) (st : Stack) :
    Keeps Sock.rx r st (inputComplete heldBack r s st) := by
  have done : Keeps Sock.rx r st (st.upd r fun s =>
      { s with
        tcpSt := .estab, sndUna := s.sndNxt, stage := .orphan
        slip := s.slip ∨ s.rexmitLen ≠ 0 }) :=
    Keeps.upd r r (fun _ => rfl) fun _ => rfl
  unfold inputComplete
  dsimp only
  split
  · exact done
  · split
    · exact done
    · exact done.trans (tcpQueueAccept_keeps (fun _ _ => rfl) (fun _ _ => rfl) (fun _ => rfl)
        reserve_rx (fun _ _ => rfl) _ r _)

theorem inputState_takes (seg : Segment) (row : st.row r = some s)
    (table : seg.flags.ack = false → Table st) :
    Takes seg r st (inputState heldBack seg r s st) ∧
      (s.tcpSt = .listen → Keeps Sock.rx r st (inputState heldBack seg r s st)) := by
  have still : Keeps Sock.rx r st st := Keeps.refl r st
  unfold inputState
  split
  · have again : Keeps Sock.rx r st (if s.rexmitLen ≠ 0 then
        (tcpEmit heldBack s.rexmitFlags
          (s.rexmit.take (s.rexmitLen - s.rexmitFlags.ctl)) s.rexmitSeq r st).1 else st) := by
      split
      · exact (Within.of_sk r (tcpEmit_held _ _ _ r st)).own
      · exact still
    exact ⟨again.takes seg, fun _ => again⟩
  · split
    · case isTrue opens =>
        have ⟨kept, _⟩ := inputListen_beside (table (by simpa using opens.2.2)) seg r s
        have same : Keeps Sock.rx r st (inputListen heldBack seg r s st) := by
          intro s' there'
          have there := (Stack.row_eq_some.1 row).1
          obtain rfl := Option.some.inj ((kept r.fd s there).symm.trans there')
          exact ⟨s, there, rfl, rfl⟩
        exact ⟨same.takes seg, fun _ => same⟩
    · split
      · have up : Within Sock.rx r st (st.upd r (Sock.establish seg.seq)) :=
          Within.upd r (fun _ => rfl) fun _ => rfl
        have up := (up.trans (tcpXmit_within .ackOnly [] r _)).trans (Within.wake r)
        exact ⟨up.own.takes seg, fun _ => up.own⟩
      · split
        · exact ⟨(inputComplete_rx r s st).takes seg, fun _ => inputComplete_rx r s st⟩
        · split
          · case isTrue open_ =>
              refine ⟨inputData_takes seg r s st, fun listens => ?_⟩
              rw [listens] at open_
              rcases open_ with state | state | state <;> cases state
          · exact ⟨still.takes seg, fun _ => still⟩

/-- An input puts the beginning of its data into the buffer of its row, or nothing; a reset
puts nothing there. -/
theorem tcpInput_takes (table : Table st) (found : st.tcpFind seg = some r) :
    Takes seg r st (tcpInput heldBack seg st) ∧
      (seg.flags.rst → Keeps Sock.rx r st (tcpInput heldBack seg st)) := by
  obtain ⟨s, row, _⟩ := tcpFind_spec found
  by_cases reset : seg.flags.rst ∧ s.tcpSt ≠ .listen
  · have reset_ : tcpInput heldBack seg st = inputReset r s st := by
      simp only [tcpInput, found, row]
      rw [if_pos reset]
    rw [reset_]
    exact ⟨(inputReset_within r s st).own.takes seg, fun _ => (inputReset_within r s st).own⟩
  · by_cases ends : seg.Ends s
    · have acked : Within Sock.rx r st
          (st.setRow r.fd (some (s.acked st.env.now seg.ack))) :=
        Within.put row (Frame.acked s st.env.now seg.ack).id (acked_rx s st.env.now seg.ack)
      have ended : Keeps Sock.rx r st (tcpInput heldBack seg st) := by
        rw [tcpInput_ends heldBack found row reset ends]
        split
        · exact (acked.trans (Within.drop r _)).own
        · exact (acked.trans (tcpClose_within r _)).own
      exact ⟨ended.takes seg, fun _ => ended⟩
    · obtain ⟨_, _, _, _, _, _, _, _, _, _, same⟩ := heard_eq s st.env.now seg
      have heard : Within Sock.rx r st
          (st.setRow r.fd (some (s.heard st.env.now seg))) :=
        Within.put row (by rw [same]) (by rw [same])
      have quiet : seg.flags.ack = false →
          st.setRow r.fd (some (s.heard st.env.now seg)) = st := by
        intro notAck
        have same : s.heard st.env.now seg = s := by simp [Sock.heard, notAck]
        rw [same, Stack.setRow_self (Stack.row_eq_some.1 row).1]
      have row₁ : (st.setRow r.fd (some (s.heard st.env.now seg))).row r =
          some (s.heard st.env.now seg) :=
        Stack.row_setRow (Eq.trans (by rw [same]) (Stack.row_eq_some.1 row).2)
      have ⟨takes, listening⟩ := inputState_takes seg row₁ fun notAck =>
        (quiet notAck).symm ▸ table
      rw [tcpInput_state heldBack found row reset ends]
      refine ⟨heard.own.trans_takes takes, fun rst => heard.own.trans (listening ?_)⟩
      have listens : s.tcpSt = .listen := by
        by_contra other
        exact reset ⟨rst, other⟩
      rw [same]
      exact listens

end Metal.Net.Ip
