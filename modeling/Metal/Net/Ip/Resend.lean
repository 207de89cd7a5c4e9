import Metal.Net.Ip.Acks
import Metal.Net.Ip.Acts

namespace Metal.Net.Ip

open Metal.Lib

/-! What a row keeps to resend. -/

variable {w : World} {st : Stack} {s s' : Sock} {flags : Flags} {data : Bytes} {ack : Seq}

/-- The buffer holds what was sent and is not acknowledged. The next byte that is
accepted takes the number `sndNxt`, so the bytes between `sndUna` and `sndNxt` are the
last ones of the stream. -/
structure Sock.Describes (s : Sock) : Prop where
  len : s.rexmitLen = (s.sndNxt - s.sndUna).toNat
  room : s.rexmitLen ≤ s.rexmitCap
  bounds : s.rexmitLen ≠ 0 → s.rexmitSeq = s.sndUna ∧ s.rexmitEnd = s.sndNxt
  alone : s.rexmitLen ≠ 0 → s.rexmitFlags.ctl ≠ 0 → s.rexmitLen = 1
  bytes : s.rexmitLen ≠ 0 → s.rexmitFlags.ctl = 0 →
    s.rexmitLen ≤ s.stream.length ∧
      s.rexmit.take s.rexmitLen = s.stream.drop (s.stream.length - s.rexmitLen)

/-- A row that has been given up: there is an error and nothing is left to resend. -/
def Sock.GivenUp (s : Sock) : Prop := s.tcpError = true ∧ s.rexmitLen = 0

structure Sock.Numbers (s : Sock) : Prop where
  seq : s.rexmitSeq = s.sndUna
  nxt : s.sndNxt = s.sndUna + UInt32.ofNat s.rexmitLen
  last : s.rexmitEnd = s.sndNxt

/-- What the buffer can hold: nothing, a SYN or FIN, or the end of the stream. -/
inductive Sock.Holds (s : Sock) : Prop
  | nothing (empty : s.rexmitLen = 0) (acked : s.sndUna = s.sndNxt ∨ s.tcpError = true)
  | control (one : s.rexmitLen = 1) (ctl : s.rexmitFlags.ctl ≠ 0) (state : s.tcpSt ≠ .estab)
      (numbers : s.Numbers)
  | data (some : s.rexmitLen ≠ 0) (ctl : s.rexmitFlags.ctl = 0) (before : Bytes)
      (bytes : s.stream = before ++ s.rexmit.take s.rexmitLen) (numbers : s.Numbers)

/-- The buffer as every row has it, and what it holds as long as the numbers were not set
over it. -/
structure Sock.Tracked (s : Sock) : Prop where
  size : s.rexmit.length = s.rexmitCap
  small : s.rexmitCap ≤ 65536
  room : s.rexmitLen ≤ s.rexmitCap
  holds : s.slip = false → s.Holds

theorem Sock.Tracked.describes (tracked : s.Tracked) (kept : s.slip = false) :
    s.Describes ∨ s.GivenUp := by
  have room := tracked.room
  have small := tracked.small
  have flight (numbers : s.Numbers) : s.rexmitLen = (s.sndNxt - s.sndUna).toNat := by
    rw [numbers.nxt, UInt32.add_comm, UInt32.add_sub_cancel]
    exact (UInt32.toNat_ofNat_of_lt' (Nat.lt_of_le_of_lt room
      (Nat.lt_of_le_of_lt small (by decide)))).symm
  cases tracked.holds kept with
  | nothing empty acked =>
      rcases acked with same | error
      · refine .inl ⟨?_, room, fun some_ => absurd empty some_, fun some_ => absurd empty some_,
          fun some_ => absurd empty some_⟩
        rw [empty, same, UInt32.sub_self]
        rfl
      · exact .inr ⟨error, empty⟩
  | control one ctl state numbers =>
      exact .inl ⟨flight numbers, room, fun _ => ⟨numbers.seq, numbers.last⟩, fun _ _ => one,
        fun _ plain => absurd plain ctl⟩
  | data some_ ctl before bytes numbers =>
      refine .inl ⟨flight numbers, room, fun _ => ⟨numbers.seq, numbers.last⟩,
        fun _ control => absurd ctl control, fun _ _ => ?_⟩
      have length : (s.rexmit.take s.rexmitLen).length = s.rexmitLen := by
        rw [List.length_take, tracked.size]
        omega
      have whole := congrArg List.length bytes
      rw [List.length_append, length] at whole
      refine ⟨by omega, ?_⟩
      have first : s.stream.length - s.rexmitLen = before.length := by omega
      rw [first, bytes, List.drop_left]

theorem Sock.Numbers.accepts (numbers : s.Numbers) (small : s.rexmitLen ≤ 65536)
    (accepts : s.Accepts ack) :
    ack > s.rexmitSeq ∧ 0 < (ack - s.rexmitSeq).toNat ∧
      (ack - s.rexmitSeq).toNat ≤ s.rexmitLen ∧
      s.rexmitSeq + UInt32.ofNat (ack - s.rexmitSeq).toNat = ack ∧
      s.sndNxt = ack + UInt32.ofNat (s.rexmitLen - (ack - s.rexmitSeq).toNat) := by
  obtain ⟨above, below⟩ := accepts
  have distance := toNat_sub_of_lt above
  rw [numbers.seq]
  have back : s.sndUna + (ack - s.sndUna) = ack := by
    rw [UInt32.add_comm, UInt32.sub_add_cancel]
  have len : (UInt32.ofNat s.rexmitLen).toNat = s.rexmitLen :=
    UInt32.toNat_ofNat_of_lt' (Nat.lt_of_le_of_lt small (by decide))
  have sum := congrArg UInt32.toNat numbers.nxt
  rw [UInt32.toNat_add, len] at sum
  have size := s.sndUna.toNat_lt
  have above' := UInt32.lt_iff_toNat_lt.1 above
  have below' := UInt32.le_iff_toNat_le.1 below
  refine ⟨above, by omega, by omega, by rw [UInt32.ofNat_toNat, back], ?_⟩
  apply UInt32.toNat_inj.1
  have rest : (UInt32.ofNat (s.rexmitLen - (ack - s.sndUna).toNat)).toNat =
      s.rexmitLen - (ack - s.sndUna).toNat :=
    UInt32.toNat_ofNat_of_lt' (Nat.lt_of_le_of_lt (Nat.sub_le _ _)
      (Nat.lt_of_le_of_lt small (by decide)))
  rw [UInt32.toNat_add, rest, distance]
  omega

theorem Sock.Tracked.trim (tracked : s.Tracked) (now : Nat) (accepts : s.Accepts ack) :
    (s.trim now ack).Tracked := by
  have room := tracked.room
  have size := tracked.size
  have small := tracked.small
  unfold Sock.trim
  dsimp only
  by_cases trims : s.rexmitLen ≠ 0 ∧ ack > s.rexmitSeq
  · rw [if_pos trims]
    split
    · -- everything was acknowledged
      rename_i all
      refine ⟨size, small, Nat.zero_le _, fun kept => .nothing rfl ?_⟩
      cases tracked.holds kept with
      | nothing empty => exact absurd empty trims.1
      | control one ctl state numbers | data some_ ctl before bytes numbers =>
          obtain ⟨_, _, within, _, nxt⟩ := numbers.accepts (Nat.le_trans room small) accepts
          rw [Nat.sub_eq_zero_of_le all] at nxt
          exact .inl (by rw [nxt]; exact (UInt32.add_zero ack).symm)
    · rename_i part
      generalize length : (ack - s.rexmitSeq).toNat = acked at part
      have cut : ((s.rexmit.drop acked).take (s.rexmitLen - acked)).length =
          s.rexmitLen - acked := by
        rw [List.length_take, List.length_drop]
        omega
      refine ⟨?_, small, ?_, fun kept => ?_⟩
      · change ((s.rexmit.drop acked).take (s.rexmitLen - acked) ++
          s.rexmit.drop (s.rexmitLen - acked)).length = s.rexmitCap
        rw [List.length_append, cut, List.length_drop]
        omega
      · exact Nat.le_trans (Nat.sub_le _ _) room
      · cases tracked.holds kept with
        | nothing empty => exact absurd empty trims.1
        | control one ctl state numbers =>
            obtain ⟨_, some_, _⟩ := numbers.accepts (Nat.le_trans room small) accepts
            omega
        | data some_ ctl before bytes numbers =>
            obtain ⟨_, _, within, seq, nxt⟩ :=
              numbers.accepts (Nat.le_trans room small) accepts
            rw [length] at seq nxt
            refine .data (by change s.rexmitLen - acked ≠ 0; omega) ctl
              (before ++ s.rexmit.take acked) ?_ ⟨seq, nxt, ?_⟩
            · change s.stream = before ++ s.rexmit.take acked ++
                ((s.rexmit.drop acked).take (s.rexmitLen - acked) ++
                  s.rexmit.drop (s.rexmitLen - acked)).take (s.rexmitLen - acked)
              rw [List.take_append_of_le_length (Nat.le_of_eq cut.symm),
                List.take_of_length_le (Nat.le_of_eq cut), List.append_assoc,
                ← List.take_add, Nat.add_sub_cancel' (Nat.le_of_not_le part)]
              exact bytes
            · change s.rexmitSeq + UInt32.ofNat acked + _ = s.sndNxt
              rw [seq, nxt]
  · rw [if_neg trims]
    refine ⟨size, small, room, fun kept => ?_⟩
    cases tracked.holds kept with
    | nothing empty acked =>
        refine .nothing empty (.inr ?_)
        rcases acked with same | error
        · obtain ⟨above, below⟩ := accepts
          rw [← same] at below
          exact absurd above (UInt32.not_lt.2 below)
        · exact error
    | control one ctl state numbers =>
        obtain ⟨above, _⟩ := numbers.accepts (Nat.le_trans room small) accepts
        exact absurd ⟨by omega, above⟩ trims
    | data some_ ctl before bytes numbers =>
        obtain ⟨above, _⟩ := numbers.accepts (Nat.le_trans room small) accepts
        exact absurd ⟨some_, above⟩ trims

theorem Sock.Tracked.of_eq (tracked : s.Tracked)
    (same : { s' with
      rexmit := s.rexmit, rexmitCap := s.rexmitCap, rexmitLen := s.rexmitLen
      rexmitFlags := s.rexmitFlags, rexmitSeq := s.rexmitSeq, rexmitEnd := s.rexmitEnd
      sndNxt := s.sndNxt, sndUna := s.sndUna, stream := s.stream, slip := s.slip } = s')
    (state : s'.tcpSt = .estab → s.tcpSt = .estab)
    (error : s.tcpError = true → s'.tcpError = true) : s'.Tracked := by
  rw [← same]
  refine ⟨tracked.size, tracked.small, tracked.room, fun kept => ?_⟩
  cases tracked.holds kept with
  | nothing empty acked => exact .nothing empty (acked.imp_right error)
  | control one ctl notEstab numbers =>
      exact .control one ctl (fun estab => notEstab (state estab))
        ⟨numbers.seq, numbers.nxt, numbers.last⟩
  | data some_ ctl before bytes numbers =>
      exact .data some_ ctl before bytes ⟨numbers.seq, numbers.nxt, numbers.last⟩

theorem reserve_slip (now : Nat) (flags : Flags) (data : Bytes) (s : Sock) :
    (s.reserve now flags data).slip = s.slip := by
  unfold Sock.reserve
  split <;> rfl

theorem length_reserve (s : Sock) (data : Bytes)
    (fits : s.rexmitLen + data.length ≤ s.rexmit.length) :
    (s.rexmit.take s.rexmitLen ++ data ++
      s.rexmit.drop (s.rexmitLen + data.length)).length = s.rexmit.length := by
  rw [List.length_append, List.length_append, List.length_take, List.length_drop]
  omega

theorem Sock.Tracked.reserved (tracked : s.Tracked) (now : Nat)
    (fits : s.rexmitLen + (data.length + flags.ctl) ≤ s.rexmitCap)
    (holds : s.slip = false → (s.reserve now flags data).Holds) :
    (s.reserve now flags data).Tracked := by
  have size := tracked.size
  have length := (length_reserve s data (by omega)).trans size
  refine ⟨?_, ?_, ?_, fun kept => holds (reserve_slip now flags data s ▸ kept)⟩
  · unfold Sock.reserve
    split <;> exact length
  · unfold Sock.reserve
    split <;> exact tracked.small
  · unfold Sock.reserve
    split <;> exact fits

theorem holds_control (now : Nat) (empty : s.rexmitLen = 0) (acked : s.sndUna = s.sndNxt)
    (ctl : flags.ctl = 1) (state : s.tcpSt ≠ .estab) : (s.reserve now flags []).Holds := by
  unfold Sock.reserve
  rw [if_pos empty]
  refine .control ?_ ?_ state ⟨acked.symm, ?_, ?_⟩
  · change s.rexmitLen + (0 + flags.ctl) = 1
    rw [empty, ctl]
  · change flags.ctl ≠ 0
    rw [ctl]
    decide
  · change s.sndNxt + UInt32.ofNat (0 + flags.ctl) =
      s.sndUna + UInt32.ofNat (s.rexmitLen + (0 + flags.ctl))
    simp only [empty, acked, Nat.zero_add]
  · change s.sndNxt + UInt32.ofNat (s.rexmitLen + (0 + flags.ctl)) =
      s.sndNxt + UInt32.ofNat (0 + flags.ctl)
    rw [empty, Nat.zero_add]

theorem holds_first (now : Nat) (empty : s.rexmitLen = 0) (acked : s.sndUna = s.sndNxt)
    (some_ : data ≠ []) (ctl : flags.ctl = 0) : (s.reserve now flags data).Holds := by
  have length : data.length ≠ 0 := fun none => some_ (List.length_eq_zero_iff.1 none)
  unfold Sock.reserve
  rw [if_pos empty]
  refine .data ?_ ctl s.stream ?_ ⟨acked.symm, ?_, ?_⟩
  · change s.rexmitLen + (data.length + flags.ctl) ≠ 0
    omega
  · change s.stream ++ data = s.stream ++ (s.rexmit.take s.rexmitLen ++ data ++
      s.rexmit.drop (s.rexmitLen + data.length)).take (s.rexmitLen + (data.length + flags.ctl))
    rw [empty, ctl, List.take_zero, List.nil_append, Nat.zero_add, Nat.add_zero,
      List.take_left]
  · change s.sndNxt + UInt32.ofNat (data.length + flags.ctl) =
      s.sndUna + UInt32.ofNat (s.rexmitLen + (data.length + flags.ctl))
    rw [empty, acked, Nat.zero_add]
  · change s.sndNxt + UInt32.ofNat (s.rexmitLen + (data.length + flags.ctl)) =
      s.sndNxt + UInt32.ofNat (data.length + flags.ctl)
    rw [empty, Nat.zero_add]

theorem holds_more (now : Nat) (some_ : s.rexmitLen ≠ 0) (room : s.rexmitLen ≤ s.rexmit.length)
    (plain : s.rexmitFlags.ctl = 0) (before : Bytes)
    (bytes : s.stream = before ++ s.rexmit.take s.rexmitLen) (numbers : s.Numbers)
    (ctl : flags.ctl = 0) : (s.reserve now flags data).Holds := by
  have taken : (s.rexmit.take s.rexmitLen).length = s.rexmitLen := by
    rw [List.length_take]
    omega
  unfold Sock.reserve
  rw [if_neg some_]
  refine .data ?_ plain before ?_ ⟨numbers.seq, ?_, ?_⟩
  · change s.rexmitLen + (data.length + flags.ctl) ≠ 0
    omega
  · change s.stream ++ data = before ++ (s.rexmit.take s.rexmitLen ++ data ++
      s.rexmit.drop (s.rexmitLen + data.length)).take (s.rexmitLen + (data.length + flags.ctl))
    have both : (s.rexmit.take s.rexmitLen ++ data).length = s.rexmitLen + data.length := by
      rw [List.length_append, taken]
    rw [ctl, Nat.add_zero, ← both, List.take_left, bytes, List.append_assoc]
  · change s.sndNxt + UInt32.ofNat (data.length + flags.ctl) =
      s.sndUna + UInt32.ofNat (s.rexmitLen + (data.length + flags.ctl))
    simp only [numbers.nxt, UInt32.ofNat_add, UInt32.add_assoc]
  · change s.rexmitSeq + UInt32.ofNat (s.rexmitLen + (data.length + flags.ctl)) =
      s.sndNxt + UInt32.ofNat (data.length + flags.ctl)
    simp only [numbers.seq, numbers.nxt, UInt32.ofNat_add, UInt32.add_assoc]

theorem Sock.Tracked.reserve (tracked : s.Tracked) (now : Nat) (launch : s.Launch flags data)
    (fits : s.rexmitLen + (data.length + flags.ctl) ≤ s.rexmitCap) :
    (s.reserve now flags data).Tracked := by
  refine tracked.reserved now fits fun kept => ?_
  cases launch with
  | syn state nxt una _ clean | synAck state nxt una _ clean =>
      have empty := clean.resolve_left (by rw [kept]; decide)
      exact holds_control now empty (una.trans nxt.symm) (by decide) (by rw [state]; decide)
  | @fin s closing =>
      refine holds_control now closing.empty closing.acked (by decide) ?_
      change (if s.peerFin then TcpSt.lastAck else TcpSt.finWait) ≠ .estab
      split <;> decide
  | data state noError some_ =>
      cases tracked.holds kept with
      | nothing empty acked =>
          exact holds_first now empty (acked.resolve_right (by rw [noError]; decide)) some_
            (by decide)
      | control _ _ notEstab => exact absurd state notEstab
      | data there plain before bytes numbers =>
          exact holds_more now there (tracked.size.symm ▸ tracked.room) plain before bytes
            numbers (by decide)

theorem Sock.Tracked.refused (tracked : s.Tracked) (now : Nat) (flags : Flags)
    (data : Bytes) (fits : s.rexmitLen + data.length ≤ s.rexmitCap) :
    (Sock.rollback s (s.reserve now flags data)).Tracked := by
  have size := tracked.size
  have room := tracked.room
  have length := (length_reserve s data (by omega)).trans size
  have first : (s.rexmit.take s.rexmitLen ++ data ++
      s.rexmit.drop (s.rexmitLen + data.length)).take s.rexmitLen =
        s.rexmit.take s.rexmitLen := by
    have taken : (s.rexmit.take s.rexmitLen).length = s.rexmitLen := by
      rw [List.length_take]
      omega
    rw [List.append_assoc, List.take_append_of_le_length (Nat.le_of_eq taken.symm),
      List.take_take, Nat.min_self]
  by_cases empty : s.rexmitLen = 0
  · unfold Sock.reserve
    rw [if_pos empty]
    refine ⟨length, tracked.small, room, fun kept => .nothing empty ?_⟩
    cases tracked.holds kept with
    | nothing _ acked => exact acked
    | control one => exact absurd (empty.symm.trans one) nofun
    | data some_ => exact absurd empty some_
  · have last (numbers : s.Numbers) :
        (if s.rexmitLen ≠ 0 then s.rexmitSeq + UInt32.ofNat s.rexmitLen else 0) = s.sndNxt := by
      rw [if_pos empty, numbers.seq, numbers.nxt]
    unfold Sock.reserve
    rw [if_neg empty]
    refine ⟨length, tracked.small, room, fun kept => ?_⟩
    cases tracked.holds kept with
    | nothing none => exact absurd none empty
    | control one ctl state numbers =>
        exact .control one ctl state ⟨numbers.seq, numbers.nxt, last numbers⟩
    | data some_ ctl before bytes numbers =>
        exact .data some_ ctl before (first ▸ bytes) ⟨numbers.seq, numbers.nxt, last numbers⟩

theorem Sock.Tracked.ackRefused (tracked : s.Tracked) : (Sock.rollback s s).Tracked := by
  refine ⟨tracked.size, tracked.small, tracked.room, fun kept => ?_⟩
  have last (some_ : s.rexmitLen ≠ 0) (numbers : s.Numbers) :
      (if s.rexmitLen ≠ 0 then s.rexmitSeq + UInt32.ofNat s.rexmitLen else 0) = s.sndNxt := by
    rw [if_pos some_, numbers.seq, numbers.nxt]
  cases tracked.holds kept with
  | nothing empty acked => exact .nothing empty acked
  | control one ctl state numbers =>
      exact .control one ctl state ⟨numbers.seq, numbers.nxt, last (by omega) numbers⟩
  | data some_ ctl before bytes numbers =>
      exact .data some_ ctl before bytes ⟨numbers.seq, numbers.nxt, last some_ numbers⟩

theorem Sock.Tracked.finning (tracked : s.Tracked) (closing : s.Closing) :
    s.finning.Tracked :=
  ⟨tracked.size, tracked.small, tracked.room, fun _ => .nothing closing.empty (.inl closing.acked)⟩

theorem Sock.Tracked.levelled (tracked : s.Tracked)
    (same : { s' with
      rexmit := s.rexmit, rexmitCap := s.rexmitCap, rexmitLen := s.rexmitLen
      sndUna := s'.sndNxt } = s') (slip : s'.slip = false → s.rexmitLen = 0) : s'.Tracked := by
  rw [← same] at slip ⊢
  exact ⟨tracked.size, tracked.small, tracked.room, fun kept => .nothing (slip kept) (.inl rfl)⟩

theorem Change.tracked (change : Change w s s') (tracked : s.Tracked) : s'.Tracked := by
  cases change with
  | quiet => exact tracked.of_eq rfl (fun estab => estab) fun error => error
  | acked seg now _ _ above below =>
      exact (tracked.trim now ⟨above, below⟩).of_eq rfl (fun estab => estab) fun error => error
  | reserve now launch fits => exact tracked.reserve now launch fits
  | refused now launch fits => exact tracked.refused now _ _ (by omega)
  | ackRefused => exact tracked.ackRefused
  | shut => exact tracked.of_eq rfl (fun estab => estab) fun error => error
  | finning closing => exact tracked.finning closing
  | finRefused now closing =>
      have back := (tracked.finning closing).refused now .finAck [] tracked.room
      exact back.of_eq rfl (fun estab => estab) fun error => error
  | finNoRoom closing =>
      exact (tracked.finning closing).of_eq rfl (fun estab => estab) fun error => error
  | giveUp =>
      exact ⟨tracked.size, tracked.small, Nat.zero_le _, fun _ => .nothing rfl (.inr rfl)⟩
  | stall empty => exact tracked.of_eq rfl (fun estab => estab) fun _ => rfl
  | consumed => exact tracked.of_eq rfl (fun estab => estab) fun error => error
  | reset => exact tracked.of_eq rfl nofun fun error => error
  | established => exact tracked.levelled rfl (by simp [Sock.establish])
  | received => exact tracked.of_eq rfl (fun estab => estab) fun error => error
  | finIn =>
      refine tracked.of_eq rfl (fun estab => ?_) fun error => error
      simp only [Sock.receiveFin] at estab
      split at estab
      · cases estab
      · exact estab

theorem tracked_rule : RowRule w Sock.Tracked where
  change _ _ change tracked := change.tracked tracked
  complete _ _ _ tracked := tracked.levelled rfl (by simp [Sock.complete])
  enqueue _ _ tracked := tracked.of_eq rfl (fun estab => estab) fun error => error
  child _ caps _ _ _ :=
    ⟨List.length_replicate, caps.txMax, Nat.zero_le _, fun _ => .nothing rfl (.inl rfl)⟩
  opened _ _ caps _ :=
    ⟨List.length_replicate, caps.txMax, Nat.zero_le _, fun _ => .nothing rfl (.inl rfl)⟩
  named _ _ _ _ tracked := tracked.of_eq rfl (fun estab => estab) fun error => error
  pinned _ _ tracked := tracked.of_eq rfl (fun estab => estab) fun error => error
  listening _ _ tracked := tracked.of_eq rfl nofun fun error => error
  dequeue _ _ _ tracked := tracked.of_eq rfl (fun estab => estab) fun error => error
  dial _ _ _ _ _ _ tracked := tracked.levelled rfl (by simp [Sock.dial])
  passed _ _ _ tracked := tracked.of_eq rfl (fun estab => estab) fun error => error

/-- Every connection whose numbers were not set over bytes that were still to be resent has
these in its buffer, unless it was given up. -/
def Resends (st : Stack) : Prop :=
  ∀ fd s, st.sk fd = some s → s.kind = .tcp → s.slip = false → s.Describes ∨ s.GivenUp

structure Resending (st : Stack) : Prop where
  table : Table st
  rows : Rows Sock.Tracked st

theorem Resending.step (resending : Resending st) (depth : Nat) (call : Env × Call) :
    Resending (act depth st call) := by
  have effect : Effect (World.open False) { st with env := call.1 } call.2
      (act depth st call) :=
    act_effect resending.table depth call nofun
  have table := resending.table.env call.1
  exact
    { table := effect.table (fun _ => trivial) table
      rows := effect.rows tracked_rule (resending.rows.of_sk rfl) }

/-- In every state that is reached the buffer of a connection describes what was sent and is
not acknowledged. -/
theorem resends (depth : Nat) (env : Env) (run : List (Env × Call)) :
    Resends (run.foldl (act depth) (Stack.init env)) := by
  have reached : Resending (run.foldl (act depth) (Stack.init env)) := by
    refine foldl_invariant (fun _ call resending => resending.step depth call) ?_ run
    exact ⟨Table.init env, fun i s there => absurd there (init_sk env i s)⟩
  exact fun fd s there _ kept => (reached.rows fd s there).describes kept

def unanswered : List (Env × Call) :=
  (Env.ample, .socket .tcp) :: (Env.ample, .connect 0 0x0a000002 5000) ::
    (List.range 40).map fun pass => ({ Env.ample with now := (pass + 1) * rtoUs }, .pump)

/-- When the retries are used up the buffer is emptied, and its bytes stay unacknowledged. -/
theorem describes_fails :
    ¬ ∀ (depth : Nat) (env : Env) (run : List (Env × Call)) (fd : Fd) (s : Sock),
      (run.foldl (act depth) (Stack.init env)).sk fd = some s → s.kind = .tcp →
        s.Describes := by
  intro describes
  have row : ∀ s ∈ (unanswered.foldl (act 4) (Stack.init Env.ample)).sk 0,
      s.kind = .tcp ∧ s.rexmitLen = 0 ∧ s.sndNxt - s.sndUna = 1 := by
    decide +kernel
  have there : ((unanswered.foldl (act 4) (Stack.init Env.ample)).sk 0).isSome := by
    decide +kernel
  obtain ⟨s, thereS⟩ := Option.isSome_iff_exists.1 there
  obtain ⟨kind, empty, flight⟩ := row s thereS
  have len := (describes 4 Env.ample unanswered 0 s thereS kind).len
  rw [empty, flight] at len
  exact absurd len (by decide)

end Metal.Net.Ip
