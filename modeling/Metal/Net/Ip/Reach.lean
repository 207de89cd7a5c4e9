import Metal.Net.Ip.Moves

namespace Metal.Net.Ip

open Metal.Lib

/-! Every function of the state machine is made of moves. -/

variable {w : World} {st st' st'' : Stack} {r : Ref} {s : Sock} {seg : Segment}
  {flags : Flags} {data : Bytes} {deliver : Segment → Stack → Stack}

def Reach (w : World) (st st' : Stack) : Prop := Sound w st → Steps w st st'

namespace Reach

theorem refl (st : Stack) : Reach w st st := fun _ => Steps.refl st

theorem of_steps (steps : Steps w st st') : Reach w st st' := fun _ => steps

theorem trans (first : Reach w st st') (second : Reach w st' st'') :
    Reach w st st'' :=
  fun sound => (first sound).trans (second ((first sound).sound sound))

theorem upd (r : Ref) {f : Sock → Sock} (change : ∀ s, Change w s (f s)) :
    Reach w st (st.upd r f) := by
  cases row : st.row r with
  | none =>
      rw [Stack.upd_of_none row]
      exact of_steps (Steps.fault st)
  | some s =>
      rw [Stack.upd_of_row row]
      exact of_steps (Steps.change (Stack.row_eq_some.1 row).1 (change s))

theorem updRow (row : st.row r = some s) {f : Sock → Sock}
    (change : Change w s (f s)) : Reach w st (st.upd r f) := by
  rw [Stack.upd_of_row row]
  exact of_steps (Steps.change (Stack.row_eq_some.1 row).1 change)

theorem wake (r : Ref) : Reach w st (st.wake r) :=
  upd r fun s => Change.quiet s none s.wndStallAt s.sndWnd s.rexmitTries
    s.rexmitAt

end Reach

structure Handles (w : World) (deliver : Segment → Stack → Stack) : Prop where
  reach : ∀ seg st, w.admits seg → st.rxL2 < 0 → Reach w st (deliver seg st)
  rst : ∀ seg st, seg.flags = .rstAck → Carries st (deliver seg st)

theorem ipInput_reach (admitted : st.rxL2 < 0) (handles : Handles w deliver)
    (admits : w.admits seg) : Reach w st (ipInput deliver seg st) := by
  unfold ipInput
  split
  · exact handles.reach seg st admits admitted
  · exact Reach.refl st

theorem nest_reach (handles : Handles w deliver) (admits : w.admits seg) :
    Reach w st (nest deliver seg st) := by
  have entered : Reach w st { st with rxL2 := -1 } :=
    Reach.of_steps (Steps.via st (-1))
  have inside : Reach w { st with rxL2 := -1 } _ :=
    ipInput_reach (show (-1 : Int) < 0 by decide) handles admits
  exact (entered.trans inside).trans
    (Reach.of_steps (Steps.via _ st.rxL2))

theorem nest_carries (st : Stack) (handles : Handles w deliver)
    (rst : seg.flags = .rstAck) : Carries st (nest deliver seg st) := by
  unfold nest ipInput
  split
  · exact handles.rst seg { st with rxL2 := -1 } rst
  · exact Carries.refl st

theorem Emits.dst {seg : Segment} (emits : Emits st s seg) : seg.dst = s.peer := by
  cases emits <;> rfl

def Stack.onWire (wire : List Wire) (st : Stack) : Stack :=
  { st with env := { st.env with wire := wire } }

theorem Stack.onWire_setRow (wire : List Wire) (fd : Fd) (o : Option Sock) :
    (st.setRow fd o).onWire wire = (st.onWire wire).setRow fd o := rfl

theorem Steps.onWire {wire : List Wire} (left : wire ⊆ st.env.wire) :
    Steps w st (st.onWire wire) :=
  Steps.spend st wire st.env.room st.env.grow left

def Refusal (st st' : Stack) : Prop :=
  ∃ wire, wire ⊆ st.env.wire ∧ st' = st.onWire wire

theorem outputVia_cases (handles : Handles w deliver) (there : st.sk r.fd = some s)
    (emits : Emits st s seg) :
    ((outputVia deliver seg st).2 = .ok ∧
        Reach w st (outputVia deliver seg st).1 ∧
        (seg.flags = .rstAck → Carries st (outputVia deliver seg st).1)) ∨
      ((outputVia deliver seg st).2 ≠ .ok ∧
        Refusal st (outputVia deliver seg st).1) := by
  have dst := emits.dst
  unfold outputVia
  split
  · rename_i back
    refine Or.inl ⟨rfl, fun sound => ?_, nest_carries st handles⟩
    have admits : w.admits seg := by
      rcases sound.inside with all | far
      · exact all seg
      · exact absurd (dst ▸ back.2) (far.rows r.fd s there)
    exact nest_reach handles admits sound
  · split
    · rename_i wire same
      exact Or.inr ⟨nofun, wire, by simp [same], rfl⟩
    · rename_i wire same
      exact Or.inr ⟨nofun, wire, by simp [same], rfl⟩
    · rename_i wire same
      refine Or.inl ⟨rfl, fun sound => ?_, nest_carries (st.onWire wire) handles⟩
      have admits : w.admits seg := by
        rcases sound.inside with all | far
        · exact all seg
        · exact absurd (by simp [same]) far.wire
      have spent : Reach w st { st with env := { st.env with wire := wire } } :=
        Reach.of_steps (Steps.spend st wire st.env.room st.env.grow
          (by simp [same]))
      exact spent.trans (nest_reach handles admits) sound
    · rename_i wire same
      refine Or.inl ⟨rfl, Reach.of_steps ?_, fun _ => Carries.refl st⟩
      exact (Steps.sent there emits).trans
        (Steps.spend _ wire st.env.room st.env.grow (by simp [same]))
    · exact Or.inl ⟨rfl, Reach.of_steps (Steps.sent there emits), fun _ =>
        Carries.refl st⟩

theorem tcpEmit_cases (handles : Handles w deliver) {seq : Seq}
    (row : st.row r = some s) (emits : Emits st s (st.segment s flags data seq)) :
    ((tcpEmit deliver flags data seq r st).2 = .ok ∧
        Reach w st (tcpEmit deliver flags data seq r st).1 ∧
        (flags = .rstAck → Carries st (tcpEmit deliver flags data seq r st).1)) ∨
      ((tcpEmit deliver flags data seq r st).2 ≠ .ok ∧
        Refusal st (tcpEmit deliver flags data seq r st).1) := by
  simp only [tcpEmit, row]
  split
  · exact Or.inr ⟨nofun, st.env.wire, List.Subset.refl _, rfl⟩
  · exact outputVia_cases handles (Stack.row_eq_some.1 row).1 emits

def Sock.refusal (now : Nat) (flags : Flags) (data : Bytes) (s : Sock) : Sock :=
  Sock.rollback s
    (if data.length + flags.ctl ≠ 0 then s.reserve now flags data else s)

inductive Sends (w : World) (flags : Flags) (data : Bytes) (r : Ref) (s : Sock)
    (st : Stack) : Stack × Tx → Prop
  | ok {st' : Stack} (reach : Reach w st st')
      (carries : flags = .rstAck → Carries st st') :
      Sends w flags data r s st (st', .ok)
  | noRoom : Sends w flags data r s st (st, .wait)
  | kept {wire : List Wire} (left : wire ⊆ st.env.wire) (syn : flags.syn = true)
      (fits : s.rexmitLen + (data.length + flags.ctl) ≤ s.rexmitCap) :
      Sends w flags data r s st
        ((st.onWire wire).setRow r.fd
          (some (s.reserve st.env.now flags data)), .wait)
  | refused {wire : List Wire} {tx : Tx} (left : wire ⊆ st.env.wire)
      (notOk : tx ≠ .ok)
      (fits : data.length + flags.ctl ≠ 0 →
        s.rexmitLen + (data.length + flags.ctl) ≤ s.rexmitCap) :
      Sends w flags data r s st
        ((st.onWire wire).setRow r.fd
          (some (s.refusal st.env.now flags data)), tx)

theorem Sends.of_emit (st : Stack) (r : Ref) (s s₁ : Sock) (flags : Flags)
    (data : Bytes) (handles : Handles w deliver)
    (row : (st.setRow r.fd (some s₁)).row r = some s₁)
    (reach : Reach w st (st.setRow r.fd (some s₁)))
    (carries : Carries st (st.setRow r.fd (some s₁)))
    (back : Sock.rollback s s₁ = s.refusal st.env.now flags data)
    (kept : flags.syn = true → data = [] → s₁ = s.reserve st.env.now flags data)
    (fits : data.length + flags.ctl ≠ 0 →
      s.rexmitLen + (data.length + flags.ctl) ≤ s.rexmitCap)
    (emits : Emits (st.setRow r.fd (some s₁)) s₁
      ((st.setRow r.fd (some s₁)).segment s₁ flags data s.sndNxt)) :
    Sends w flags data r s st
      (match tcpEmit deliver flags data s.sndNxt r (st.setRow r.fd (some s₁)) with
        | (st, .ok) => (st, .ok)
        | (st, tx) =>
            if tx = .wait ∧ flags.syn ∧ data = [] ∧ s.rexmitLen = 0 then (st, tx)
            else (st.upd r (Sock.rollback s), tx)) := by
  have cases := tcpEmit_cases handles row emits
  rcases out : tcpEmit deliver flags data s.sndNxt r (st.setRow r.fd (some s₁))
    with ⟨st', tx⟩
  rw [out] at cases
  rcases cases with ⟨ok, onward, same⟩ | ⟨notOk, refusal⟩
  · obtain rfl : tx = .ok := ok
    exact Sends.ok (reach.trans onward) fun rst => carries.trans (same rst)
  · have ended : (match (st', tx) with
        | (st, .ok) => (st, Tx.ok)
        | (st, tx) =>
            if tx = .wait ∧ flags.syn ∧ data = [] ∧ s.rexmitLen = 0 then (st, tx)
            else (st.upd r (Sock.rollback s), tx)) =
        if tx = .wait ∧ flags.syn ∧ data = [] ∧ s.rexmitLen = 0 then (st', tx)
        else (st'.upd r (Sock.rollback s), tx) := by
      cases tx with
      | ok => exact absurd rfl notOk
      | wait => rfl
      | error => rfl
    rw [ended]
    obtain ⟨wire, left, rfl⟩ := refusal
    split
    · rename_i stays
      obtain ⟨rfl, syn, rfl, -⟩ := stays
      obtain rfl := kept syn rfl
      rw [Stack.onWire_setRow]
      exact Sends.kept left syn (fits (by simp [Flags.ctl, syn]))
    · have still : ((st.setRow r.fd (some s₁)).onWire wire).row r = some s₁ := row
      have undone : ((st.setRow r.fd (some s₁)).onWire wire).setRow r.fd
          (some (Sock.rollback s s₁)) = (st.onWire wire).setRow r.fd
            (some (s.refusal st.env.now flags data)) := by
        rw [back, Stack.onWire_setRow, Stack.setRow_setRow]
      rw [Stack.upd_of_row still, undone]
      exact Sends.refused left notOk fits

section Handles

variable (handles : Handles w deliver)
include handles

theorem tcpXmit_sends (row : st.row r = some s)
    (plain : data.length + flags.ctl = 0 → flags = .ackOnly ∨ flags = .rstAck)
    (launch : data.length + flags.ctl ≠ 0 → s.Launch flags data) :
    Sends w flags data r s st (tcpXmit deliver flags data r st) := by
  have ⟨there, same⟩ := Stack.row_eq_some.1 row
  simp only [tcpXmit, row]
  by_cases takes : data.length + flags.ctl = 0
  · -- an ACK or a reset takes nothing, so the row stands as it is
    have bare : data = [] ∧ flags.ctl = 0 := by
      have : data.length = 0 := by omega
      exact ⟨List.length_eq_zero_iff.1 this, by omega⟩
    rw [if_neg fun excess => excess.1 takes, if_neg (not_not.2 takes)]
    obtain ⟨rfl, ctl⟩ := bare
    have self := Stack.setRow_self there
    have emits : Emits st s (st.segment s flags [] s.sndNxt) :=
      Emits.plain flags (plain takes)
    have sends := Sends.of_emit st r s s flags [] handles
      (by rw [self]; exact row) (by rw [self]; exact Reach.refl st)
      (by rw [self]; exact Carries.refl st)
    rw [self] at sends
    refine sends ?_ ?_ ?_ emits
    · simp [Sock.refusal, ctl]
    · intro syn
      simp [Flags.ctl, syn] at ctl
    · exact fun taken => absurd takes taken
  · split
    · exact Sends.noRoom
    · rename_i roomy
      have fits : s.rexmitLen + (data.length + flags.ctl) ≤ s.rexmitCap := by
        by_contra excess
        exact roomy ⟨takes, Nat.lt_of_not_le excess⟩
      have reserved := Stack.upd_of_row row (Sock.reserve st.env.now flags data)
      rw [reserved]
      have frame := Frame.reserve s st.env.now flags data
      refine Sends.of_emit st r s _ flags data handles
        (Stack.row_setRow (frame.id.trans same)) ?_
        (Carries.setRow there frame.id frame.raddr) ?_ ?_ (fun _ => fits)
         (Emits.fresh st.env.now (launch takes) rfl)
      · exact Reach.of_steps
          (Steps.change there (Change.reserve st.env.now (launch takes) fits))
      · simp only [Sock.refusal, if_pos (show data.length + flags.ctl ≠ 0 from takes)]
      · exact fun _ _ => rfl

theorem tcpXmit_reach (row : st.row r = some s) (launch : s.Launch flags data) :
    Reach w st (tcpXmit deliver flags data r st).1 := by
  have ⟨there, _⟩ := Stack.row_eq_some.1 row
  have takes : data.length + flags.ctl ≠ 0 := by
    cases launch with
    | syn => decide
    | synAck => decide
    | fin => decide
    | data _ _ some =>
        have := List.length_pos_iff.2 some
        omega
  have sends := tcpXmit_sends handles row (fun plain => absurd plain takes)
    fun _ => launch
  generalize tcpXmit deliver flags data r st = out at sends
  cases sends with
  | ok reach _ => exact reach
  | noRoom => exact Reach.refl st
  | @kept wire left syn fits =>
      exact Reach.of_steps ((Steps.onWire left).trans
        (Steps.change there (Change.reserve st.env.now launch fits)))
  | @refused wire tx left notOk fits =>
      rw [Sock.refusal, if_pos takes]
      exact Reach.of_steps ((Steps.onWire left).trans
        (Steps.change there (Change.refused st.env.now launch (fits takes))))

theorem tcpXmit_plain (r : Ref) (st : Stack) (plain : flags = .ackOnly ∨ flags = .rstAck) :
    Reach w st (tcpXmit deliver flags [] r st).1 := by
  have free : ([] : Bytes).length + flags.ctl = 0 := by
    rcases plain with rfl | rfl <;> decide
  cases row : st.row r with
  | none =>
      simp only [tcpXmit, row]
      exact Reach.of_steps (Steps.fault st)
  | some s =>
      have ⟨there, _⟩ := Stack.row_eq_some.1 row
      have sends := tcpXmit_sends handles row (fun _ => plain)
        fun takes => absurd free takes
      generalize tcpXmit deliver flags [] r st = out at sends
      cases sends with
      | ok reach _ => exact reach
      | noRoom => exact Reach.refl st
      | kept left syn =>
          rcases plain with rfl | rfl <;> exact absurd syn nofun
      | @refused wire tx left notOk fits =>
          rw [Sock.refusal, if_neg (not_not.2 free)]
          exact Reach.of_steps ((Steps.onWire left).trans
            (Steps.change there (Change.ackRefused s)))

theorem finning_reach (row : st.row r = some s)
    (closing : s.Closing) (passive : Prop) [Decidable passive] :
    Reach w st
      (match tcpXmit deliver .finAck [] r (st.setRow r.fd (some s.finning)) with
        | (st, .wait) => (st.upd r fun s => { s with finSent := false }, (0 : Int))
        | (st, .error) => (st.dropRef r, -1)
        | (st, .ok) =>
            (if passive ∧ (st.row r).isSome then st.drop r.fd else st, 0)).1 := by
  have ⟨there, same⟩ := Stack.row_eq_some.1 row
  have finRow : (st.setRow r.fd (some s.finning)).row r = some s.finning :=
    Stack.row_setRow same
  have started : Reach w st (st.setRow r.fd (some s.finning)) :=
    Reach.of_steps (Steps.change there (Change.finning closing))
  have sends := tcpXmit_sends handles finRow (fun plain => absurd plain (by decide))
    fun _ => Sock.Launch.fin closing
  generalize tcpXmit deliver .finAck [] r (st.setRow r.fd (some s.finning)) = out
    at sends
  cases sends with
  | @ok st' onward _ =>
      dsimp only
      split
      · rename_i still
        obtain ⟨s', row'⟩ := Option.isSome_iff_exists.1 still.2
        have ⟨there', same'⟩ := Stack.row_eq_some.1 row'
        intro sound
        have first := started sound
        have steps := first.trans (onward (first.sound sound))
        -- the row that is left is the one that was closed
        have old : s'.id < st.nextId := by
          have := sound.table.named r.fd s there
          omega
        obtain ⟨t, there'', -, kept⟩ := steps.appClosed.rows r.fd s' there' old
        obtain rfl := Option.some.inj (there.symm.trans there'')
        exact steps.trans (Steps.release there' (Or.inl (kept closing.appClosed)))
      · exact started.trans onward
  | noRoom =>
      dsimp only
      rw [Stack.upd_of_row finRow, Stack.setRow_setRow]
      exact Reach.of_steps (Steps.change there (Change.finNoRoom closing))
  | kept left syn => exact absurd syn nofun
  | @refused wire tx left notOk fits =>
      have spent : Steps w st (st.onWire wire) := Steps.onWire left
      have frame := (Frame.reserve s.finning st.env.now .finAck []).trans
        (Frame.rollback s.finning _)
      have back : (((st.setRow r.fd (some s.finning)).onWire wire).setRow r.fd
          (some (s.finning.refusal st.env.now .finAck []))).row r =
            some (s.finning.refusal st.env.now .finAck []) :=
        Stack.row_setRow (frame.id.trans same)
      have undone (o : Option Sock) :
          ((st.setRow r.fd (some s.finning)).onWire wire).setRow r.fd o =
            (st.onWire wire).setRow r.fd o := by
        rw [Stack.onWire_setRow, Stack.setRow_setRow]
      cases tx with
      | ok => exact absurd rfl notOk
      | wait =>
          dsimp only
          rw [Stack.setRow_env, Stack.upd_of_row back, Stack.setRow_setRow, undone]
          exact Reach.of_steps (spent.trans
            (Steps.change there (Change.finRefused st.env.now closing)))
      | error =>
          dsimp only
          rw [Stack.setRow_env, Stack.dropRef, back]
          dsimp only
          rw [undone, Stack.drop_setRow]
          exact Reach.of_steps (spent.trans
            (Steps.release there (Or.inl closing.appClosed)))

theorem tcpClose_reach
    (letGo : ∀ s, st.row r = some s → s.appClosed = true ∨ s.stage = .left) :
    Reach w st (tcpClose deliver r st).1 := by
  cases row : st.row r with
  | none =>
      simp only [tcpClose, row]
      exact Reach.of_steps (Steps.fault st)
  | some s =>
      have ⟨there, same⟩ := Stack.row_eq_some.1 row
      simp only [tcpClose, row, Stack.upd_of_row row]
      let shut : Sock := { s with waiter := none, appClosed := true }
      have shutRow : (st.setRow r.fd (some shut)).row r = some shut :=
        Stack.row_setRow same
      have closed : Steps w st (st.setRow r.fd (some shut)) :=
        Steps.change there (Change.shut (letGo s row))
      have released : Steps w st ((st.setRow r.fd (some shut)).drop r.fd) :=
        closed.trans (Steps.release (Stack.setRow_sk_same _) (Or.inl rfl))
      split
      · exact Reach.of_steps released
      · rename_i noError
        split
        · exact Reach.of_steps released
        · rename_i open_
          split
          · exact Reach.of_steps closed
          · rename_i noFin
            split
            · exact Reach.of_steps closed
            · rename_i flight
              have closing : shut.Closing :=
                { appClosed := rfl
                  finSent := by simpa using noFin
                  tcpError := by simpa using noError
                  acked := by
                    by_contra pending
                    exact flight (Or.inl pending)
                  empty := by
                    by_contra pending
                    exact flight (Or.inr pending)
                  state := by
                    by_contra other
                    simp only [not_or] at other
                    exact open_ ⟨other.1, other.2.1, other.2.2.1, other.2.2.2⟩ }
              rw [Stack.upd_of_row shutRow]
              exact (Reach.of_steps closed).trans
                (finning_reach handles shutRow closing _)

theorem resend_reach (row : st.row r = some s)
    (pending : s.rexmitLen ≠ 0) : Reach w st (resend deliver r s st) := by
  unfold resend
  dsimp only
  have emits : Emits st s (st.segment s s.rexmitFlags
      (s.rexmit.take (min (s.rexmitLen - s.rexmitFlags.ctl) (st.payloadMax s)))
      s.rexmitSeq) :=
    Emits.resent _ pending (Nat.min_le_left _ _)
  have emitted := tcpEmit_cases handles row emits
  generalize tcpEmit deliver s.rexmitFlags
    (s.rexmit.take (min (s.rexmitLen - s.rexmitFlags.ctl) (st.payloadMax s)))
    s.rexmitSeq r st = out at emitted
  obtain ⟨st₁, tx⟩ := out
  have counted : Reach w st (if tx = .ok then
      st₁.upd r fun s => { s with rexmitTries := s.rexmitTries + 1 } else st₁) := by
    rcases emitted with ⟨rfl, reach, -⟩ | ⟨notOk, wire, left, rfl⟩
    · rw [if_pos rfl]
      refine reach.trans (Reach.upd r fun s => ?_)
      exact Change.quiet s s.waiter s.wndStallAt s.sndWnd (s.rexmitTries + 1)
        s.rexmitAt
    · rw [if_neg notOk]
      exact Reach.of_steps (Steps.onWire left)
  refine counted.trans ?_
  generalize (if tx = .ok then
    st₁.upd r fun s => { s with rexmitTries := s.rexmitTries + 1 } else st₁) = st₂
  cases row₂ : st₂.row r with
  | none => exact Reach.of_steps (Steps.fault st₂)
  | some s₂ =>
      have ⟨there, _⟩ := Stack.row_eq_some.1 row₂
      dsimp only
      split
      · split
        · rename_i closed
          exact Reach.of_steps (Steps.release there (Or.inl closed))
        · rename_i live
          split
          · rename_i half
            exact Reach.of_steps (Steps.release there (Or.inr half))
          · rename_i notHalf
            exact (Reach.updRow row₂
              (Change.giveUp (by simpa using live) notHalf)).trans (Reach.wake r)
      · exact Reach.upd r fun s => Change.quiet s s.waiter s.wndStallAt s.sndWnd
          s.rexmitTries _

theorem checkTimeout_reach (fd : Fd) : Reach w st (checkTimeout deliver fd st) := by
  unfold checkTimeout
  split
  · exact Reach.refl st
  · rename_i s there
    have row := Stack.row_mk there
    dsimp only
    split
    · exact Reach.refl st
    · split
      · rename_i due
        refine tcpClose_reach handles fun t row' => ?_
        obtain rfl := Option.some.inj (row.symm.trans row')
        exact Or.inl due.1
      · split
        · split
          · rename_i stalled
            exact (Reach.updRow row (Change.stall stalled.1)).trans (Reach.wake _)
          · exact Reach.refl st
        · rename_i due
          exact resend_reach handles row fun empty => due (Or.inl empty)

theorem checkTimeoutsFrom_reach (fuel : Nat) (fd : Fd)
    (st : Stack) : Reach w st (checkTimeoutsFrom deliver fuel fd st) := by
  induction fuel generalizing fd st with
  | zero => exact Reach.of_steps (Steps.deep st)
  | succ fuel ih =>
      unfold checkTimeoutsFrom
      split
      · exact (checkTimeout_reach handles fd).trans (ih _ _)
      · exact Reach.refl st

end Handles

theorem inputReset_reach (row : st.row r = some s) (admits : w.admits seg)
    (rst : seg.flags.rst = true) (notListen : s.tcpSt ≠ .listen) :
    Reach w st (inputReset r s st) := by
  have ⟨there, _⟩ := Stack.row_eq_some.1 row
  unfold inputReset
  split
  · rename_i half
    exact Reach.of_steps (Steps.release there (Or.inr half))
  · rename_i notHalf
    have marked : Reach w st ((st.upd r fun s =>
        { s with peerFin := true, tcpSt := .closeWait }).wake r) :=
      (Reach.updRow row (Change.reset seg admits rst notListen notHalf)).trans
        (Reach.wake r)
    dsimp only
    split
    · rename_i closed
      have marks := Stack.row_upd row (f := fun s =>
        { s with peerFin := true, tcpSt := .closeWait }) rfl
      rw [Stack.wake, Stack.drop_upd marks, Stack.drop_upd row]
      exact Reach.of_steps (Steps.release there (Or.inl closed))
    · exact marked

theorem inputAck_reach (handles : Handles w deliver) (row : st.row r = some s)
    (admits : w.admits seg) : Reach w st (inputAck deliver seg r s st).1 := by
  have ⟨there, same⟩ := Stack.row_eq_some.1 row
  unfold inputAck
  split
  · rename_i acceptable
    obtain ⟨ack, above, below⟩ := acceptable
    have frame := Frame.acked s st.env.now seg.ack
    have ackedRow : (st.setRow r.fd (some (s.acked st.env.now seg.ack))).row r =
        some (s.acked st.env.now seg.ack) :=
      Stack.row_setRow (frame.id.trans same)
    have acked : Reach w st
        (st.setRow r.fd (some (s.acked st.env.now seg.ack))) :=
      Reach.of_steps (Steps.change there
        (Change.acked seg st.env.now admits ack above below))
    dsimp only
    rw [Stack.upd_of_row row]
    split
    · rename_i finished
      exact acked.trans (Reach.of_steps
        (Steps.finished (Stack.setRow_sk_same _) finished.1))
    · split
      · rename_i closed
        refine acked.trans (tcpClose_reach handles fun t row' => ?_)
        obtain rfl := Option.some.inj (ackedRow.symm.trans row')
        exact Or.inl closed.1
      · exact acked
  · exact Reach.refl st

theorem inputWindow_reach (seg : Segment) (r : Ref) (s : Sock) :
    Reach w st (inputWindow seg r s st) := by
  have sized (wnd : Nat) :
      Reach w st (st.upd r fun s => { s with sndWnd := wnd }) :=
    Reach.upd r fun s => Change.quiet s s.waiter s.wndStallAt wnd s.rexmitTries
      s.rexmitAt
  unfold inputWindow
  split
  · split
    · exact (sized _).trans (Reach.wake r)
    · exact sized _
  · exact Reach.refl st

theorem inputFin_reach (handles : Handles w deliver) (admits : w.admits seg)
    (fin : seg.flags.fin = true) : Reach w st (inputFin deliver seg r st) := by
  unfold inputFin
  split
  · exact Reach.of_steps (Steps.fault st)
  · rename_i s row
    split
    · exact tcpXmit_plain handles r st (Or.inl rfl)
    · rename_i next
      have counted := Reach.updRow row
        (Change.finIn seg admits fin (not_not.1 next))
      have answered := counted.trans (tcpXmit_plain handles r _ (Or.inl rfl))
      refine (answered.trans (Reach.wake r)).trans ?_
      dsimp only
      generalize (tcpXmit deliver .ackOnly [] r _).1.wake r = st₁
      cases row₁ : st₁.row r with
      | none => exact Reach.of_steps (Steps.fault st₁)
      | some s₁ =>
          have ⟨there, _⟩ := Stack.row_eq_some.1 row₁
          dsimp only
          split
          · rename_i done
            exact Reach.of_steps (Steps.release there (Or.inl done.1))
          · split
            · rename_i closed
              refine tcpClose_reach handles fun t row' => ?_
              obtain rfl := Option.some.inj (row₁.symm.trans row')
              exact Or.inl closed.1
            · exact Reach.refl st₁

theorem inputData_reach (handles : Handles w deliver) (row : st.row r = some s)
    (admits : w.admits seg)
    (state : s.tcpSt = .estab ∨ s.tcpSt = .finWait ∨ s.tcpSt = .closeWait) :
    Reach w st (inputData deliver seg r s st) := by
  unfold inputData
  split
  · split
    · exact tcpXmit_plain handles r st (Or.inl rfl)
    · rename_i next
      have taken := Reach.updRow row
        (Change.received seg admits state (not_not.1 next))
      have answered := (taken.trans (tcpXmit_plain handles r _ (Or.inl rfl))).trans
        (Reach.wake r)
      dsimp only
      split
      · rename_i fin
        exact answered.trans (inputFin_reach handles admits fin)
      · exact answered
  · split
    · rename_i fin
      exact inputFin_reach handles admits fin
    · exact Reach.refl st

theorem tcpXmit_carries (handles : Handles w deliver) (r : Ref) (st : Stack) :
    Carries st (tcpXmit deliver .rstAck [] r st).1 := by
  cases row : st.row r with
  | none =>
      simp only [tcpXmit, row]
      exact Carries.refl st
  | some s =>
      have ⟨there, _⟩ := Stack.row_eq_some.1 row
      have sends := tcpXmit_sends handles row (fun _ => Or.inr rfl)
        fun takes => absurd (show ([] : Bytes).length + Flags.rstAck.ctl = 0 from rfl)
          takes
      generalize tcpXmit deliver .rstAck [] r st = out at sends
      cases sends with
      | ok _ carries => exact carries rfl
      | noRoom => exact Carries.refl st
      | kept left syn => exact absurd syn nofun
      | @refused wire tx left notOk fits =>
          have undone : Carries (st.onWire wire) ((st.onWire wire).setRow r.fd
              (some (s.refusal st.env.now .rstAck []))) :=
            Carries.setRow there rfl rfl
          exact undone

def Prepares (st st' : Stack) : Prop :=
  ∃ room growth more,
    st' = { st with
      env := { st.env with room := room, grow := growth }
      skCap := st.skCap + more }

theorem Prepares.steps (prepares : Prepares st st') : Steps w st st' := by
  obtain ⟨room, growth, more, rfl⟩ := prepares
  exact (Steps.spend st st.env.wire room growth (List.Subset.refl _)).trans
    (Steps.grow _ more)

theorem Prepares.sk (prepares : Prepares st st') : st'.sk = st.sk := by
  obtain ⟨room, growth, more, rfl⟩ := prepares
  rfl

inductive Allocates (kind : Kind) (st : Stack) : Stack × Option Ref → Prop
  | failed {st' : Stack} (prepares : Prepares st st') :
      Allocates kind st (st', none)
  | took {st' : Stack} {fd : Fd} (caps : Caps) (prepares : Prepares st st')
      (free : st.sk fd = none) (room : fd < st'.skCap) :
      Allocates kind st
        (({ st' with nextId := st'.nextId + 1 }).setRow fd
          (some (Sock.new st'.nextId kind caps)), some ⟨fd, st'.nextId⟩)

variable {fd : Fd}

theorem sockNew_allocates (kind : Kind) (prepares : Prepares st st') (free : st.sk fd = none)
    (room : fd < st'.skCap) : Allocates kind st (st'.sockNew fd kind) := by
  obtain ⟨left, growth, more, rfl⟩ := prepares
  unfold Stack.sockNew
  split
  · rename_i caps rest _
    have prepares : Prepares st { st with
        env := { st.env with room := rest, grow := growth }
        skCap := st.skCap + more } := ⟨rest, growth, more, rfl⟩
    exact Allocates.took caps prepares free room
  · rename_i rest _
    exact Allocates.failed ⟨rest, growth, more, rfl⟩
  · exact Allocates.failed ⟨left, growth, more, rfl⟩

theorem Prepares.refl (st : Stack) : Prepares st st :=
  ⟨st.env.room, st.env.grow, 0, rfl⟩

theorem tableGrow_prepares (grown : st.tableGrow = some st') :
    Prepares st st' ∧ st.skCap < st'.skCap := by
  unfold Stack.tableGrow at grown
  split at grown
  · rename_i more growth _
    obtain rfl := Option.some.inj grown
    refine ⟨⟨st.env.room, growth, 1 + more, ?_⟩, ?_⟩
    · simp [Nat.add_assoc]
    · dsimp only
      omega
  · exact absurd grown nofun

theorem Table.past (table : Table st) (past : st.skCap ≤ fd) : st.sk fd = none := by
  cases there : st.sk fd with
  | none => rfl
  | some s => exact absurd (table.within fd s there) (Nat.not_lt.2 past)

theorem sockAlloc_allocates (kind : Kind) (table : Table st) :
    Allocates kind st (st.sockAlloc kind) := by
  unfold Stack.sockAlloc
  split
  · rename_i fd found
    have free := List.find?_some found
    have inside := List.mem_range.1 (List.mem_of_find?_eq_some found)
    exact sockNew_allocates kind (Prepares.refl st) (by simpa using free) inside
  · split
    · exact Allocates.failed (Prepares.refl st)
    · rename_i grown same
      have ⟨prepares, larger⟩ := tableGrow_prepares same
      exact sockNew_allocates kind prepares (table.past (Nat.le_refl _)) larger

theorem inputListen_reach (handles : Handles w deliver) (row : st.row r = some s)
    (admits : w.admits seg) (kind : s.kind = .tcp) (listens : s.tcpSt = .listen)
    (port : s.lport = seg.dport) (syn : seg.flags.syn = true)
    (notAck : seg.flags.ack = false)
    (single : w.strict → ∀ i s, st.sk i = some s → ¬ s.Owns seg) :
    Reach w st (inputListen deliver seg r s st) := by
  have ⟨there, _⟩ := Stack.row_eq_some.1 row
  intro sound
  have allocates := sockAlloc_allocates .tcp sound.table
  unfold inputListen
  generalize st.sockAlloc .tcp = out at allocates
  cases allocates with
  | failed prepares => exact prepares.steps
  | @took st' fd caps prepares free room =>
      have newRow : (({ st' with nextId := st'.nextId + 1 }).setRow fd
          (some (Sock.new st'.nextId .tcp caps))).row ⟨fd, st'.nextId⟩ =
            some (Sock.new st'.nextId .tcp caps) :=
        Stack.row_eq_some.2 ⟨Stack.setRow_sk_same _, rfl⟩
      dsimp only
      rw [Stack.upd_of_row newRow, Stack.setRow_setRow]
      have opened : Steps w st (({ st' with nextId := st'.nextId + 1 }).setRow fd
          (some (Sock.child st'.nextId caps s r.fd seg))) := by
        refine prepares.steps.trans ?_
        rw [← prepares.sk] at there free single
        exact Steps.child caps seg there kind listens admits syn notAck port free
          room single
      refine (Reach.of_steps opened).trans ?_ sound
      refine tcpXmit_reach handles
        (Stack.row_eq_some.2 ⟨Stack.setRow_sk_same _, rfl⟩) ?_
      exact Sock.Launch.synAck rfl rfl rfl rfl (Or.inr rfl)

theorem listener_of_stage {lfd : Fd} {l : Sock} (stage stage' : Stage)
    (listener : (st.setRow fd (some (s.complete stage))).sk lfd = some l) :
    ∃ l', (st.setRow fd (some (s.complete stage'))).sk lfd = some l' ∧
      l'.id = l.id ∧ l'.acceptQ = l.acceptQ ∧ l'.acceptCap = l.acceptCap := by
  rw [Stack.setRow_sk] at listener ⊢
  split at listener
  · rename_i same
    obtain rfl := Option.some.inj listener
    exact ⟨s.complete stage', by rw [if_pos same], rfl, rfl, rfl⟩
  · rename_i differ
    exact ⟨l, by rw [if_neg differ]; exact listener, rfl, rfl, rfl⟩

theorem inputComplete_reach (handles : Handles w deliver) (row : st.row r = some s)
    (admits : w.admits seg) (ack : seg.flags.ack = true)
    (half : s.tcpSt = .synRcvd) : Reach w st (inputComplete deliver r s st) := by
  have ⟨there, same⟩ := Stack.row_eq_some.1 row
  have done : st.upd r (fun s =>
      { s with
        tcpSt := .estab, sndUna := s.sndNxt, stage := .orphan
        slip := s.slip ∨ s.rexmitLen ≠ 0 }) =
      st.setRow r.fd (some (s.complete .orphan)) :=
    Stack.upd_of_row row _
  have doneRow : (st.setRow r.fd (some (s.complete .orphan))).row r =
      some (s.complete .orphan) := Stack.row_setRow same
  unfold inputComplete
  rw [done]
  dsimp only
  split
  · rename_i none
    refine Reach.of_steps (Steps.orphan seg there admits ack half ?_)
    intro lfd some
    exact absurd (none.symm.trans some) nofun
  · rename_i lfd under
    split
    · rename_i gone
      refine Reach.of_steps (Steps.orphan seg there admits ack half ?_)
      intro lfd' under'
      obtain rfl := Option.some.inj (under.symm.trans under')
      rw [Stack.setRow_sk] at gone
      split at gone
      · exact absurd gone nofun
      · exact gone
    · rename_i l listener
      have listenerRow := Stack.row_mk listener
      simp only [tcpQueueAccept, listenerRow, Stack.upd_of_row doneRow,
        Stack.setRow_setRow]
      split
      · rename_i space
        obtain ⟨l', listener', id, queue, cap⟩ :=
          listener_of_stage .orphan .queued listener
        let logged : Stack :=
          ({ st with queued := st.queued ++ [(l'.id, s.id)] }).setRow r.fd
            (some (s.complete .queued))
        have queuedRow : logged.row ⟨lfd, l'.id⟩ = some l' :=
          Stack.row_mk listener'
        have pushed : (logged.upd ⟨lfd, l'.id⟩ fun l =>
            { l with acceptQ := l.acceptQ ++ [r.fd] }).wake ⟨lfd, l'.id⟩ =
              logged.setRow lfd (some (l'.enqueue r.fd)) := by
          rw [Stack.wake, Stack.upd_of_row (Stack.row_upd queuedRow rfl),
            Stack.upd_of_row queuedRow, Stack.setRow_setRow]
          rfl
        rw [← id, ← same]
        refine Reach.of_steps (Eq.subst pushed.symm ?_)
        rw [← queue, ← cap] at space
        exact Steps.queue seg there admits ack half under listener' space
      · rename_i full
        obtain ⟨l', listener', id, queue, cap⟩ :=
          listener_of_stage .orphan .refused listener
        rw [← queue, ← cap] at full
        intro sound
        have marked := sound.complete .refused there
        exact Steps.refuse seg there admits ack half under listener'
          (Nat.not_lt.1 full) (tcpXmit_plain handles r _ (Or.inr rfl) marked)
          (tcpXmit_carries handles r _)

/-- No connection that the segment belongs to is pinned to another interface. -/
def Heard (st : Stack) (seg : Segment) : Prop :=
  ∀ i < st.skCap, ∀ s ∈ st.sk i, s.Owns seg →
    ¬ (s.l2 ≥ 0 ∧ st.rxL2 ≥ 0 ∧ s.l2 ≠ st.rxL2)

instance (st : Stack) (seg : Segment) : Decidable (Heard st seg) :=
  inferInstanceAs (Decidable (∀ i < st.skCap, ∀ s ∈ st.sk i, _))

theorem inputState_reach (handles : Handles w deliver) (row : st.row r = some s)
    (admits : w.admits seg)
    (fresh : seg.flags.ack = false → s.tcpSt = .listen →
      s.kind = .tcp ∧ s.lport = seg.dport ∧
        (w.strict → ∀ i s, st.sk i = some s → ¬ s.Owns seg)) :
    Reach w st (inputState deliver seg r s st) := by
  unfold inputState
  split
  · split
    · rename_i pending
      have emits : Emits st s (st.segment s s.rexmitFlags
          (s.rexmit.take (s.rexmitLen - s.rexmitFlags.ctl)) s.rexmitSeq) :=
        Emits.resent _ pending (Nat.le_refl _)
      rcases tcpEmit_cases handles row emits with
        ⟨-, reach, -⟩ | ⟨-, wire, left, same⟩
      · exact reach
      · rw [same]
        exact Reach.of_steps (Steps.onWire left)
    · exact Reach.refl st
  · split
    · rename_i opens
      obtain ⟨listens, syn, noAck⟩ := opens
      have notAck : seg.flags.ack = false := by simpa using noAck
      obtain ⟨kind, port, single⟩ := fresh notAck listens
      exact inputListen_reach handles row admits kind listens port syn notAck single
    · split
      · rename_i answered
        obtain ⟨state, syn, ack⟩ := answered
        have up := Reach.updRow row (Change.established seg admits syn ack state)
        dsimp only
        exact (up.trans (tcpXmit_plain handles r _ (Or.inl rfl))).trans
          (Reach.wake r)
      · split
        · rename_i completes
          exact inputComplete_reach handles row admits completes.2 completes.1
        · split
          · rename_i connected
            exact inputData_reach handles row admits connected
          · exact Reach.refl st

theorem mem_rows : (fd, s) ∈ st.rows ↔ fd < st.skCap ∧ st.sk fd = some s := by
  simp only [Stack.rows, List.mem_filterMap, List.mem_range, Option.map_eq_some_iff,
    Prod.mk.injEq]
  constructor
  · rintro ⟨i, inside, t, there, rfl, rfl⟩
    exact ⟨inside, there⟩
  · rintro ⟨inside, there⟩
    exact ⟨fd, inside, s, there, rfl, rfl⟩

/-- The row that `tcp_find` returns is a connection that matches, or a listener
while no connection does. -/
theorem tcpFind_spec (found : st.tcpFind seg = some r) :
    ∃ s, st.row r = some s ∧
      (st.matchesRow seg s = true ∨ st.matchesListen seg s = true ∧
        ∀ i t, i < st.skCap → st.sk i = some t → st.matchesRow seg t = false) := by
  unfold Stack.tcpFind at found
  split at found
  · rename_i fd s first
    obtain rfl := Option.some.inj found
    have ⟨_, there⟩ := mem_rows.1 (List.mem_of_find?_eq_some first)
    have hit := List.find?_some first
    exact ⟨s, Stack.row_mk there, Or.inl hit⟩
  · rename_i none
    obtain ⟨⟨fd, s⟩, last, rfl⟩ := Option.map_eq_some_iff.1 found
    have ⟨member, listens⟩ := List.mem_filter.1 (List.mem_of_getLast? last)
    have ⟨_, there⟩ := mem_rows.1 member
    refine ⟨s, Stack.row_mk there, Or.inr ⟨listens, fun i t inside there => ?_⟩⟩
    have silent := List.find?_eq_none.1 none (i, t) (mem_rows.2 ⟨inside, there⟩)
    simpa using silent

theorem tcpFind_only (inside : fd < st.skCap) (there : st.sk fd = some s)
    (hit : st.matchesRow seg s = true)
    (only : ∀ i t, st.sk i = some t → st.matchesRow seg t = true → i = fd) :
    st.tcpFind seg = some ⟨fd, s.id⟩ := by
  unfold Stack.tcpFind
  split
  · rename_i i t first
    have ⟨_, there'⟩ := mem_rows.1 (List.mem_of_find?_eq_some first)
    have hit' := List.find?_some first
    obtain rfl := only i t there' hit'
    obtain rfl := Option.some.inj (there.symm.trans there')
    rfl
  · rename_i none
    have silent := List.find?_eq_none.1 none (fd, s) (mem_rows.2 ⟨inside, there⟩)
    exact absurd hit silent

theorem tcpInput_reach (handles : Handles w deliver) (admits : w.admits seg)
    (heard : w.strict → Heard st seg) : Reach w st (tcpInput deliver seg st) := by
  intro sound
  unfold tcpInput
  split
  · exact Steps.refl st
  · rename_i r found
    obtain ⟨s, row, matched⟩ := tcpFind_spec found
    simp only [row]
    split
    · rename_i resets
      exact inputReset_reach row admits resets.1 resets.2 sound
    · have acked := inputAck_reach handles row admits
      have quiet : seg.flags.ack = false →
          inputAck deliver seg r s st = (st, false) := by
        intro notAck
        simp [inputAck, notAck]
      generalize inputAck deliver seg r s st = out at acked quiet
      obtain ⟨st₁, ends⟩ := out
      cases ends with
      | true => exact acked sound
      | false =>
          have windowed := acked.trans (inputWindow_reach seg r s)
          dsimp only
          cases row₂ : (inputWindow seg r s st₁).row r with
          | none => exact windowed sound
          | some s₂ =>
              refine windowed.trans (inputState_reach handles row₂ admits ?_) sound
              intro notAck listens
              -- without ACK nothing has happened to the stack yet
              obtain rfl : st₁ = st := congrArg Prod.fst (quiet notAck)
              have still : inputWindow seg r s st₁ = st₁ := by
                simp [inputWindow, notAck]
              rw [still] at row₂ ⊢
              obtain rfl := Option.some.inj (row.symm.trans row₂)
              rcases matched with open_ | ⟨listener, silent⟩
              · simp [Stack.matchesRow, listens] at open_
              · simp only [Stack.matchesListen, decide_eq_true_eq] at listener
                refine ⟨listener.1, listener.2.2.1, fun strict i t there owns => ?_⟩
                have deaf := silent i t (sound.table.within i t there) there
                have near := heard strict i (sound.table.within i t there) t there owns
                simp only [Stack.matchesRow, decide_eq_false_iff_not] at deaf
                exact deaf ⟨owns.1.1, owns.1.2.1, owns.2.1, owns.2.2.2, owns.2.2.1,
                  near⟩

/-! ### A reset that comes in opens no row -/

theorem Carries.wake (r : Ref) : Carries st (st.wake r) :=
  Carries.upd r (fun _ => rfl) fun _ => rfl

theorem inputReset_carries (r : Ref) (s : Sock) (st : Stack) :
    Carries st (inputReset r s st) := by
  have reset : Carries st (st.upd r fun s =>
      { s with peerFin := true, tcpSt := .closeWait }) :=
    Carries.upd r (fun _ => rfl) fun _ => rfl
  have marked := reset.trans (Carries.wake r)
  unfold inputReset
  split
  · exact Carries.drop st r.fd
  · dsimp only
    split
    · exact marked.trans (Carries.drop _ r.fd)
    · exact marked

theorem tcpClose_listener (row : st.row r = some s) (listens : s.tcpSt = .listen) :
    (tcpClose deliver r st).1 = st.drop r.fd := by
  simp only [tcpClose, row, listens, Stack.upd_of_row row]
  split
  · exact Stack.drop_setRow _
  · exact Stack.drop_setRow _

theorem inputAck_listener (deliver : Segment → Stack → Stack) (seg : Segment)
    (row : st.row r = some s) (listens : s.tcpSt = .listen) :
    Carries st (inputAck deliver seg r s st).1 ∧
      ((inputAck deliver seg r s st).2 = false →
        ∃ s', (inputAck deliver seg r s st).1.row r = some s' ∧
          s'.tcpSt = .listen) := by
  have ⟨there, same⟩ := Stack.row_eq_some.1 row
  have frame := Frame.acked s st.env.now seg.ack
  have ackedRow : (st.setRow r.fd (some (s.acked st.env.now seg.ack))).row r =
      some (s.acked st.env.now seg.ack) :=
    Stack.row_setRow (frame.id.trans same)
  have carries : Carries st (st.setRow r.fd (some (s.acked st.env.now seg.ack))) :=
    Carries.setRow there frame.id frame.raddr
  unfold inputAck
  split
  · dsimp only
    rw [Stack.upd_of_row row]
    split
    · exact ⟨carries.trans (Carries.drop _ _), nofun⟩
    · split
      · rw [tcpClose_listener ackedRow (frame.listens.2 listens)]
        exact ⟨carries.trans (Carries.drop _ _), nofun⟩
      · exact ⟨carries, fun _ => ⟨_, ackedRow, frame.listens.2 listens⟩⟩
  · exact ⟨Carries.refl st, fun _ => ⟨s, row, listens⟩⟩

theorem inputWindow_listener {s₁ : Sock} (seg : Segment) (row : st.row r = some s₁)
    (listens : s₁.tcpSt = .listen) (s : Sock) :
    Carries st (inputWindow seg r s st) ∧
      ∀ s₂, (inputWindow seg r s st).row r = some s₂ → s₂.tcpSt = .listen := by
  have sized (wnd : Nat) := Stack.row_upd row
    (f := fun s => { s with sndWnd := wnd }) rfl
  have carries (wnd : Nat) :
      Carries st (st.upd r fun s => { s with sndWnd := wnd }) :=
    Carries.upd r (fun _ => rfl) fun _ => rfl
  unfold inputWindow
  split
  · split
    · refine ⟨(carries _).trans (Carries.wake r), ?_⟩
      intro s₂ row₂
      have woken := Stack.row_upd (sized seg.wnd.toNat)
        (f := fun s => { s with waiter := none }) rfl
      obtain rfl := Option.some.inj (woken.symm.trans row₂)
      exact listens
    · refine ⟨carries _, fun s₂ row₂ => ?_⟩
      obtain rfl := Option.some.inj ((sized _).symm.trans row₂)
      exact listens
  · refine ⟨Carries.refl st, fun s₂ row₂ => ?_⟩
    obtain rfl := Option.some.inj (row.symm.trans row₂)
    exact listens

theorem tcpInput_carries (rst : seg.flags = .rstAck) (st : Stack) :
    Carries st (tcpInput deliver seg st) := by
  unfold tcpInput
  split
  · exact Carries.refl st
  · rename_i r found
    obtain ⟨s, row, -⟩ := tcpFind_spec found
    simp only [row]
    split
    · exact inputReset_carries r s st
    · rename_i keeps
      have listens : s.tcpSt = .listen := by
        by_contra other
        exact keeps ⟨by rw [rst]; rfl, other⟩
      have ⟨carries, still⟩ := inputAck_listener deliver seg row listens
      generalize inputAck deliver seg r s st = out at carries still
      obtain ⟨st₁, ends⟩ := out
      cases ends with
      | true => exact carries
      | false =>
          obtain ⟨s₁, row₁, listens₁⟩ := still rfl
          have ⟨carries₁, listens₂⟩ := inputWindow_listener seg row₁ listens₁ s
          dsimp only
          split
          · exact carries.trans carries₁
          · rename_i s₂ row₂
            have state := listens₂ s₂ row₂
            simp only [inputState, state, rst]
            exact carries.trans carries₁

theorem inputWithin_handles (depth : Nat) : Handles w (inputWithin depth) := by
  induction depth with
  | zero =>
      exact ⟨fun seg st _ _ => Reach.of_steps (Steps.deep st),
        fun seg st _ => Carries.refl st⟩
  | succ depth ih =>
      refine ⟨fun seg st admits lo => ?_, fun seg st rst => tcpInput_carries rst st⟩
      refine tcpInput_reach ih admits fun _ i _ s _ _ pinned => ?_
      exact absurd pinned.2.1 (Int.not_le.2 lo)

end Metal.Net.Ip
