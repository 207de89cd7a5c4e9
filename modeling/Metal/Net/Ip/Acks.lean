import Metal.Net.Ip.Calls

namespace Metal.Net.Ip

open Metal.Lib

/-! What an ACK does to `snd_una` and to the resend buffer, at every position of the
sequence space. -/

variable {s : Sock} {ack : Seq}

def Sock.inFlight (s : Sock) : Nat := (s.sndNxt - s.sndUna).toNat

def Sock.newly (s : Sock) (ack : Seq) : Nat := (ack - s.sndUna).toNat

/-- The ack lies behind `snd_una` and not behind `snd_nxt`, going round. -/
def Sock.Acks (s : Sock) (ack : Seq) : Prop := 0 < s.newly ack ∧ s.newly ack ≤ s.inFlight

structure AckExact (ack : Seq) (s now : Sock) : Prop where
  inside : s.Acks ack → now.sndUna = ack ∧ now.rexmitLen + s.newly ack = s.rexmitLen ∧
    now.rexmit.take now.rexmitLen = (s.rexmit.take s.rexmitLen).drop (s.newly ack)
  outside : ¬ s.Acks ack → now.sndUna = s.sndUna ∧ now.rexmitLen = s.rexmitLen ∧
    now.rexmit = s.rexmit ∧ now.rexmitSeq = s.rexmitSeq ∧ now.rexmitEnd = s.rexmitEnd

/-- The test of `pm_ip_tcp_input`. -/
def Sock.Accepts (s : Sock) (ack : Seq) : Prop := s.sndUna < ack ∧ ack ≤ s.sndNxt

instance (s : Sock) (ack : Seq) : Decidable (s.Accepts ack) :=
  inferInstanceAs (Decidable (_ ∧ _))

def Sock.ackedBy (now : Nat) (ack : Seq) (s : Sock) : Sock :=
  if s.Accepts ack then s.acked now ack else s

/-- The ack is not for us, or it is between the two numbers as they stand and the buffer
has the acknowledged bytes: from `snd_una` on, or these and no others. -/
def Sock.AckFits (s : Sock) (ack : Seq) : Prop :=
  ¬ s.Acks ack ∨ s.Accepts ack ∧
    (s.rexmitSeq = s.sndUna ∧ s.newly ack ≤ s.rexmitLen ∨
      s.newly ack = s.rexmitLen ∧ s.rexmitSeq < ack ∧
        s.rexmitLen ≤ (ack - s.rexmitSeq).toNat)

theorem toNat_sub_of_lt {a b : Seq} (less : a < b) : (b - a).toNat = b.toNat - a.toNat := by
  rw [UInt32.lt_iff_toNat_lt] at less
  have small := b.toNat_lt
  rw [UInt32.toNat_sub]
  omega

theorem Sock.Accepts.acks (accepts : s.Accepts ack) : s.Acks ack := by
  obtain ⟨above, below⟩ := accepts
  have behind : s.sndUna < s.sndNxt := by
    rw [UInt32.lt_iff_toNat_lt] at above ⊢
    rw [UInt32.le_iff_toNat_le] at below
    omega
  have newly := toNat_sub_of_lt above
  have flight := toNat_sub_of_lt behind
  rw [UInt32.lt_iff_toNat_lt] at above
  rw [UInt32.le_iff_toNat_le] at below
  unfold Sock.Acks Sock.newly Sock.inFlight
  omega

theorem Sock.newly_pos (accepts : s.Accepts ack) : 0 < s.newly ack := accepts.acks.1

theorem trim_len (now : Nat) (ack : Seq) (s : Sock) :
    (s.trim now ack).rexmitLen =
      if s.rexmitLen ≠ 0 ∧ ack > s.rexmitSeq then
        s.rexmitLen - (ack - s.rexmitSeq).toNat
      else s.rexmitLen := by
  unfold Sock.trim
  dsimp only
  split
  · split
    · rename_i all
      exact (Nat.sub_eq_zero_of_le all).symm
    · rfl
  · rfl

theorem trim_una (now : Nat) (ack : Seq) (s : Sock) : (s.trim now ack).sndUna = ack := by
  unfold Sock.trim
  dsimp only
  split
  · split <;> rfl
  · rfl

theorem trim_rexmit (now : Nat) {s : Sock} (room : s.rexmitLen ≤ s.rexmit.length)
    (there : s.rexmitLen ≠ 0) (above : ack > s.rexmitSeq) :
    (s.trim now ack).rexmit.take (s.rexmitLen - (ack - s.rexmitSeq).toNat) =
      (s.rexmit.take s.rexmitLen).drop (ack - s.rexmitSeq).toNat := by
  unfold Sock.trim
  dsimp only
  rw [if_pos ⟨there, above⟩, List.drop_take]
  split
  · rename_i all
    rw [Nat.sub_eq_zero_of_le all]
    rfl
  · have length : ((s.rexmit.drop (ack - s.rexmitSeq).toNat).take
        (s.rexmitLen - (ack - s.rexmitSeq).toNat)).length =
          s.rexmitLen - (ack - s.rexmitSeq).toNat := by
      rw [List.length_take, List.length_drop]
      omega
    dsimp only
    rw [List.take_append_of_le_length (Nat.le_of_eq length.symm),
      List.take_of_length_le (Nat.le_of_eq length)]

theorem ackedBy_exact_iff (now : Nat) (room : s.rexmitLen ≤ s.rexmit.length) :
    AckExact ack s (s.ackedBy now ack) ↔ s.AckFits ack := by
  unfold Sock.ackedBy
  by_cases accepts : s.Accepts ack
  · rw [if_pos accepts]
    have some_ := s.newly_pos accepts
    constructor
    · intro exact_
      obtain ⟨_, length, _⟩ := exact_.inside accepts.acks
      change (s.trim now ack).rexmitLen + _ = _ at length
      rw [trim_len] at length
      refine .inr ⟨accepts, ?_⟩
      split at length
      · rename_i trimmed
        by_cases all : s.rexmitLen ≤ (ack - s.rexmitSeq).toNat
        · exact .inr ⟨by omega, trimmed.2, all⟩
        · have newly : s.newly ack = (ack - s.rexmitSeq).toNat := by omega
          refine .inl ⟨?_, by omega⟩
          exact (UInt32.sub_right_inj ..).mp (UInt32.toNat_inj.mp newly.symm)
      · omega
    · rintro (none_ | ⟨_, fits⟩)
      · exact absurd accepts.acks none_
      · refine ⟨fun _ => ⟨trim_una now ack s, ?_⟩, fun none_ => absurd accepts.acks none_⟩
        change (s.trim now ack).rexmitLen + _ = _ ∧
          (s.trim now ack).rexmit.take (s.trim now ack).rexmitLen = _
        have there : s.rexmitLen ≠ 0 := by
          rcases fits with ⟨_, few⟩ | ⟨same, _⟩ <;> omega
        have above : ack > s.rexmitSeq := by
          rcases fits with ⟨first, _⟩ | ⟨_, above, _⟩
          · rw [first]
            exact accepts.1
          · exact above
        have bytes := trim_rexmit now room there above
        rw [trim_len, if_pos ⟨there, above⟩, bytes]
        rcases fits with ⟨first, few⟩ | ⟨same, _, all⟩
        · have newly : s.newly ack = (ack - s.rexmitSeq).toNat := by
            rw [first]
            rfl
          exact ⟨by omega, by rw [newly]⟩
        · refine ⟨by omega, ?_⟩
          rw [same, List.drop_of_length_le, List.drop_of_length_le]
          · exact List.length_take_le ..
          · exact (List.length_take_le ..).trans all
  · rw [if_neg accepts]
    constructor
    · intro exact_
      refine .inl fun acks => ?_
      obtain ⟨_, length, _⟩ := exact_.inside acks
      have := acks.1
      omega
    · rintro (none_ | ⟨accepts', _⟩)
      · exact ⟨fun acks => absurd acks none_, fun _ => ⟨rfl, rfl, rfl, rfl, rfl⟩⟩
      · exact absurd accepts' accepts

section Deliver

variable (deliver : Segment → Stack → Stack)

/-- What `pm_ip_tcp_input` goes on to do: drop the row, close it, or take the window and
the rest of the segment. -/
inductive GoesOn (seg : Segment) (r : Ref) (s : Sock) (st : Stack) : Stack → Prop
  | drops : GoesOn seg r s st (st.drop r.fd)
  | closes : GoesOn seg r s st (tcpClose deliver r st).1
  | rest : GoesOn seg r s st
      (let st := inputWindow seg r s st
      match st.row r with
      | none => st
      | some s => inputState deliver seg r s st)

theorem tcpInput_acked {seg : Segment} {r : Ref} {st : Stack}
    (found : st.tcpFind seg = some r) (row : st.row r = some s) (flag : seg.flags.ack)
    (plain : seg.flags.rst = false) :
    GoesOn deliver seg r s (st.upd r fun _ => s.ackedBy st.env.now seg.ack)
      (tcpInput deliver seg st) := by
  have same : st.upd r (fun _ => s) = st := by
    rw [Stack.upd_of_row row, Stack.setRow_self (Stack.row_eq_some.mp row).1]
  unfold tcpInput
  rw [found]
  dsimp only
  rw [row]
  dsimp only
  rw [if_neg (by simp [plain])]
  unfold inputAck Sock.ackedBy
  by_cases accepts : s.Accepts seg.ack
  · rw [if_pos accepts, if_pos ⟨flag, accepts⟩]
    dsimp only
    split
    · rename_i ends
      split at ends
      · cases ends
        exact .drops
      · split at ends
        · cases ends
          exact .closes
        · cases ends
    · rename_i ends
      split at ends
      · cases ends
      · split at ends
        · cases ends
        · cases ends
          exact .rest
  · rw [if_neg accepts, if_neg fun accepts' => accepts accepts'.2, same]
    exact .rest

theorem ack_exact_iff {seg : Segment} {r : Ref} {st : Stack}
    (found : st.tcpFind seg = some r) (row : st.row r = some s) (flag : seg.flags.ack)
    (plain : seg.flags.rst = false) (room : s.rexmitLen ≤ s.rexmit.length) :
    GoesOn deliver seg r s (st.upd r fun _ => s.ackedBy st.env.now seg.ack)
        (tcpInput deliver seg st) ∧
      (AckExact seg.ack s (s.ackedBy st.env.now seg.ack) ↔ s.AckFits seg.ack) :=
  ⟨tcpInput_acked deliver found row flag plain, ackedBy_exact_iff st.env.now room⟩

end Deliver

def Caps.small : Caps := ⟨64, 64, by decide, by decide, by decide, by decide⟩

def sending (una : Seq) (data : Bytes) : Sock :=
  { Sock.new 0 .tcp .small with
    tcpSt := .estab, lport := 80, raddr := 0x0a000002, rport := 5000
    sndUna := una, sndNxt := una + UInt32.ofNat data.length
    rexmit := data ++ List.replicate (64 - data.length) 0, rexmitLen := data.length
    rexmitSeq := una, rexmitFlags := .pshAck, rexmitEnd := una + UInt32.ofNat data.length }

def alone (s : Sock) : Stack := { Stack.init Env.ample with skCap := 1 }.setRow 0 (some s)

def acking (ack : Seq) : Segment where
  src := 0x0a000002
  dst := 0x0a000001
  sport := 5000
  dport := 80
  seq := 0
  ack := ack
  flags := .ackOnly
  wnd := 4096
  data := []

theorem ack_exact_iff_sending :
    GoesOn (inputWithin 4) (acking 1003) ⟨0, 0⟩ (sending 1000 [1, 2, 3, 4])
        ((alone (sending 1000 [1, 2, 3, 4])).upd ⟨0, 0⟩ fun _ =>
          (sending 1000 [1, 2, 3, 4]).ackedBy Env.ample.now 1003)
        (tcpInput (inputWithin 4) (acking 1003) (alone (sending 1000 [1, 2, 3, 4]))) ∧
      AckExact 1003 (sending 1000 [1, 2, 3, 4])
        ((sending 1000 [1, 2, 3, 4]).ackedBy Env.ample.now 1003) := by
  have found : (alone (sending 1000 [1, 2, 3, 4])).tcpFind (acking 1003) = some ⟨0, 0⟩ := by
    decide +kernel
  have room : (sending 1000 [1, 2, 3, 4]).rexmitLen ≤
      (sending 1000 [1, 2, 3, 4]).rexmit.length := by
    decide +kernel
  have fits : (sending 1000 [1, 2, 3, 4]).AckFits 1003 :=
    .inr ⟨by unfold Sock.Accepts; decide +kernel, .inl (by decide +kernel)⟩
  have acked := ack_exact_iff (inputWithin 4) found rfl rfl rfl room
  exact ⟨acked.1, acked.2.mpr fits⟩

/-- Three of four bytes are acknowledged, behind the wrap. -/
theorem ack_exact_fails :
    (sending 0xfffffffe [1, 2, 3, 4]).inFlight ≤ (sending 0xfffffffe [1, 2, 3, 4]).rexmitCap ∧
      ¬ ∀ now, (tcpInput (inputWithin 4) (acking 1)
          (alone (sending 0xfffffffe [1, 2, 3, 4]))).row ⟨0, 0⟩ = some now →
        AckExact 1 (sending 0xfffffffe [1, 2, 3, 4]) now := by
  refine ⟨by decide +kernel, fun exact_ => ?_⟩
  have unmoved : ((tcpInput (inputWithin 4) (acking 1)
      (alone (sending 0xfffffffe [1, 2, 3, 4]))).row ⟨0, 0⟩).map Sock.sndUna =
        some 0xfffffffe := by
    decide +kernel
  obtain ⟨now, row, una⟩ := Option.map_eq_some_iff.mp unmoved
  have acks : (sending 0xfffffffe [1, 2, 3, 4]).Acks 1 := by
    unfold Sock.Acks
    decide +kernel
  have moved := ((exact_ now row).inside acks).1
  rw [una] at moved
  cases moved

end Metal.Net.Ip
