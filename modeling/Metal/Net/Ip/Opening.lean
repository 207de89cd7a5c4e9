import Metal.Net.Ip.Held
import Metal.Net.Ip.Queues

namespace Metal.Net.Ip

open Metal.Lib

/-! What opens a connection: the acknowledgement of our SYN, or any other. -/

variable {st st' : Stack} {r : Ref} {s : Sock} {seg : Segment}

def Sock.Half (s : Sock) : Prop := s.tcpSt = .synSent ∨ s.tcpSt = .synRcvd

/-- The segment acknowledges all that the row has sent; while the connection is being
opened that is its SYN. -/
def Segment.Acknowledges (seg : Segment) (s : Sock) : Prop :=
  seg.flags.ack ∧ seg.ack = s.sndNxt

def Segment.Opens (seg : Segment) (s : Sock) : Prop :=
  seg.flags.ack ∧ (s.tcpSt = .synSent ∧ seg.flags.syn ∨ s.tcpSt = .synRcvd)

structure Guard (seg : Segment) (fd : Fd) (s : Sock) (st' : Stack) : Prop where
  closed : ∀ s', st'.sk fd = some s' → s'.id = s.id → s'.tcpSt ≠ .estab
  still : seg.flags.rst = false →
    ∃ s', st'.sk fd = some s' ∧ s'.id = s.id ∧ s'.tcpSt = s.tcpSt

def AllGuarded (seg : Segment) (st st' : Stack) : Prop :=
  ∀ fd s, st.sk fd = some s → s.Half → ¬ seg.Acknowledges s → Guard seg fd s st'

/-- The segment comes to no row that it opens without acknowledging its SYN. -/
def OpensByAck (seg : Segment) (st : Stack) : Prop :=
  ∀ r s, st.tcpFind seg = some r → st.row r = some s → seg.flags.rst = false →
    seg.Opens s → seg.ack = s.sndNxt

theorem Guard.of_same {fd : Fd} {s' : Sock} (half : s.Half) (there : st'.sk fd = some s')
    (id : s'.id = s.id) (state : s'.tcpSt = s.tcpSt) : Guard seg fd s st' where
  closed := by
    intro s'' there' _
    obtain rfl := Option.some.inj (there.symm.trans there')
    rw [state]
    rcases half with half | half <;> rw [half] <;> exact nofun
  still := fun _ => ⟨s', there, id, state⟩

def Opened (r : Ref) (st : Stack) : Prop := ∀ s, st.row r = some s → s.tcpSt = .estab

theorem Opened.keeps (opened : Opened r st) (keeps : Keeps Sock.tcpSt r st st') :
    Opened r st' := by
  intro s' there
  obtain ⟨s, row, same⟩ := keeps.row there
  exact same.trans (opened s row)

theorem Opened.establish (row : st.row r = some s) {f : Sock → Sock}
    (id : (f s).id = s.id) (state : (f s).tcpSt = .estab) : Opened r (st.upd r f) := by
  intro s' row'
  rw [Stack.row_upd row id] at row'
  rw [← Option.some.inj row', state]

theorem reserve_state (s : Sock) (now : Nat) (flags : Flags) (data : Bytes) :
    (s.reserve now flags data).tcpSt = s.tcpSt := by
  unfold Sock.reserve
  split <;> rfl

theorem inputComplete_opened (row : st.row r = some s) :
    Opened r (inputComplete heldBack r s st) := by
  have opened : Opened r (st.upd r fun s =>
      { s with
        tcpSt := .estab, sndUna := s.sndNxt, stage := .orphan
        slip := s.slip ∨ s.rexmitLen ≠ 0 }) := Opened.establish row rfl rfl
  unfold inputComplete
  dsimp only
  split
  · exact opened
  · split
    · exact opened
    · exact opened.keeps (tcpQueueAccept_keeps (fun _ _ => rfl) (fun _ _ => rfl)
        (fun _ => rfl) reserve_state (fun _ _ => rfl) _ r _)

theorem inputState_opened (row : st.row r = some s) (opens : seg.Opens s) :
    Opened r (inputState heldBack seg r s st) := by
  obtain ⟨ack, ⟨state, syn⟩ | state⟩ := opens
  · have opened : Opened r (st.upd r (Sock.establish seg.seq)) :=
      Opened.establish row rfl rfl
    simp only [inputState, state, syn, ack]
    have acked := tcpXmit_keeps reserve_state (fun _ _ => rfl) .ackOnly [] r
      (st.upd r (Sock.establish seg.seq))
    exact opened.keeps (acked.own.trans (Keeps.upd r r (fun _ => rfl) fun _ => rfl))
  · simpa [inputState, state, ack] using inputComplete_opened row

theorem tcpInput_half (found : st.tcpFind seg = some r) (row : st.row r = some s)
    (plain : seg.flags.rst = false) (not : ¬ seg.Acknowledges s) :
    tcpInput heldBack seg st = inputState heldBack seg r (s.heard st.env.now seg)
      (st.setRow r.fd (some (s.heard st.env.now seg))) :=
  tcpInput_state heldBack found row (by simp [plain]) fun ends => not ⟨ends.1, ends.2.2.1⟩

theorem inputState_shut (half : s.Half) (shut : ¬ seg.Opens s) :
    (inputState heldBack seg r s st).sk = st.sk := by
  unfold inputState
  rcases half with state | state
  · have noSyn : ¬ (seg.flags.syn ∧ seg.flags.ack) :=
      fun both => shut ⟨both.2, .inl ⟨state, both.1⟩⟩
    simp [state, noSyn]
  · have noAck : ¬ seg.flags.ack := fun ack => shut ⟨ack, .inr state⟩
    simp only [state, noAck]
    split
    · split
      · exact tcpEmit_held _ _ _ r st
      · rfl
    · simp

theorem Segment.opens_heard (seg : Segment) (s : Sock) (now : Nat) :
    seg.Opens (s.heard now seg) ↔ seg.Opens s := by
  obtain ⟨_, _, _, _, _, _, _, _, _, _, same⟩ := heard_eq s now seg
  rw [same]
  rfl

/-- A row is guarded from a segment exactly when the segment does not open it, or
acknowledges its SYN. -/
theorem guard_own_iff (found : st.tcpFind seg = some r) (row : st.row r = some s)
    (plain : seg.flags.rst = false) (half : s.Half) (not : ¬ seg.Acknowledges s) :
    Guard seg r.fd s (tcpInput heldBack seg st) ↔ ¬ seg.Opens s := by
  obtain ⟨_, _, _, _, _, _, _, _, _, _, same⟩ := heard_eq s st.env.now seg
  have opens := seg.opens_heard s st.env.now
  rw [tcpInput_half found row plain not]
  have id : (s.heard st.env.now seg).id = s.id := by rw [same]
  have state : (s.heard st.env.now seg).tcpSt = s.tcpSt := by rw [same]
  generalize s.heard st.env.now seg = s₁ at id state opens
  have there : (st.setRow r.fd (some s₁)).row r = some s₁ :=
    Stack.row_setRow (id.trans (Stack.row_eq_some.1 row).2)
  have half₁ : s₁.Half := by rwa [Sock.Half, state]
  rw [← opens]
  constructor
  · intro guard opens
    obtain ⟨s', there', id', state'⟩ := guard.still plain
    have opened := inputState_opened there opens s'
      (Stack.row_eq_some.2 ⟨there', id'.trans (Stack.row_eq_some.1 row).2⟩)
    rcases half with half | half <;> rw [state', half] at opened <;> cases opened
  · intro shut
    have kept : (inputState heldBack seg r s₁ (st.setRow r.fd (some s₁))).sk r.fd =
        some s₁ := by
      rw [inputState_shut half₁ shut, Stack.setRow_sk_same]
    exact Guard.of_same half kept id state

theorem inputReset_closed (row : st.row r = some s) {s' : Sock}
    (row' : (inputReset r s st).row r = some s') : s'.tcpSt = .closeWait := by
  have gone (st : Stack) : (st.drop r.fd).row r ≠ some s' := fun there =>
    (Stack.drop_old (Stack.row_eq_some.1 there).1).1 rfl
  unfold inputReset at row'
  split at row'
  · exact absurd row' (gone st)
  · dsimp only at row'
    split at row'
    · exact absurd row' (gone _)
    · have marked : (st.upd r fun s => { s with peerFin := true, tcpSt := .closeWait }).row r =
          some { s with peerFin := true, tcpSt := .closeWait } := Stack.row_upd row rfl
      rw [Stack.wake, Stack.row_upd marked rfl] at row'
      rw [← Option.some.inj row']

theorem guard_reset (found : st.tcpFind seg = some r) (row : st.row r = some s)
    (reset : seg.flags.rst = true) (half : s.Half) :
    Guard seg r.fd s (tcpInput heldBack seg st) := by
  have notListen : s.tcpSt ≠ .listen := by
    rcases half with half | half <;> rw [half] <;> simp
  have ends : tcpInput heldBack seg st = inputReset r s st := by
    simp only [tcpInput, found, row]
    rw [if_pos ⟨reset, notListen⟩]
  rw [ends]
  refine ⟨fun s' there' id' => ?_, fun plain => absurd (plain.symm.trans reset) (by decide)⟩
  have named := id'.trans (Stack.row_eq_some.1 row).2
  rw [inputReset_closed row (Stack.row_eq_some.2 ⟨there', named⟩)]
  simp

theorem allGuarded_iff (table : Table st) :
    AllGuarded seg st (tcpInput heldBack seg st) ↔ OpensByAck seg st := by
  constructor
  · intro guarded r s found row plain opens
    have half : s.Half := opens.2.imp And.left id
    refine Decidable.byContradiction fun differs => ?_
    have not : ¬ seg.Acknowledges s := fun both => differs both.2
    have guard := guarded r.fd s (Stack.row_eq_some.1 row).1 half not
    exact (guard_own_iff found row plain half not).1 guard opens
  · intro byAck fd s there half not
    cases found : st.tcpFind seg with
    | none =>
        have same : tcpInput heldBack seg st = st := by
          unfold tcpInput
          rw [found]
        rw [same]
        exact Guard.of_same half there rfl rfl
    | some r =>
        obtain ⟨t, row, _⟩ := tcpFind_spec found
        by_cases own : fd = r.fd
        · subst own
          obtain rfl := Option.some.inj ((Stack.row_eq_some.1 row).1.symm.trans there)
          cases plain : seg.flags.rst with
          | true => exact guard_reset found row plain half
          | false =>
              refine (guard_own_iff found row plain half not).2 fun opens => ?_
              exact not ⟨opens.1, byAck r t found row plain opens⟩
        · obtain ⟨s', there', id, state, _⟩ := (tcpInput_beside table found).kept fd s own there
          exact Guard.of_same half there' id state

theorem Table.run (depth : Nat) (env : Env) (run : List (Env × Call)) :
    Table (run.foldl (act depth) (Stack.init env)) := by
  suffices ∀ st, Table st → Table (run.foldl (act depth) st) from
    this (Stack.init env) (Table.init env)
  induction run with
  | nil => exact fun st table => table
  | cons call rest ih =>
      intro st table
      have effect : Effect (World.open False) { st with env := call.1 } call.2
          (act depth st call) := act_effect table depth call nofun
      exact ih _ (effect.table (fun _ => trivial) (table.env call.1))

def Stack.hearing (env : Env) (h : Int) (st : Stack) : Stack :=
  { st with env := env, rxL2 := h }

/-- After every run, a segment on any interface opens connections by the acknowledgement
of their SYN alone exactly when it is none that a row takes for its opening without a look
at the number. -/
theorem opens_by_ack_iff (depth : Nat) (env now : Env) (run : List (Env × Call)) (h : Int)
    (seg : Segment) :
    AllGuarded seg ((run.foldl (act depth) (Stack.init env)).hearing now h)
        (tcpInput heldBack seg
          ((run.foldl (act depth) (Stack.init env)).hearing now h)) ↔
      OpensByAck seg ((run.foldl (act depth) (Stack.init env)).hearing now h) := by
  have table := Table.run depth env run
  exact allGuarded_iff ⟨table.named, table.within, table.apart⟩

/-- An ACK of 9999 in the place of the one of 1001 that completes the handshake. -/
def stray : Segment := { strangerSyn 80 with seq := 8, ack := 9999, flags := .ackOnly }

/-- The listener's connection opens though its SYN is not acknowledged. -/
theorem opens_by_ack_fails :
    ¬ ∀ (depth : Nat) (env now : Env) (run : List (Env × Call)) (h : Int) (seg : Segment),
      AllGuarded seg ((run.foldl (act depth) (Stack.init env)).hearing now h)
        (tcpInput heldBack seg
          ((run.foldl (act depth) (Stack.init env)).hearing now h)) := by
  intro guarded
  have kept := guarded 4 Env.ample Env.ample (visited.take 4) 1 stray
  have half : ∀ s ∈ (((visited.take 4).foldl (act 4) (Stack.init Env.ample)).hearing
      Env.ample 1).sk 1, s.tcpSt = .synRcvd ∧ s.sndNxt ≠ 9999 := by
    decide +kernel
  have there : ((((visited.take 4).foldl (act 4) (Stack.init Env.ample)).hearing
      Env.ample 1).sk 1).isSome := by
    decide +kernel
  have open_ : ∀ s' ∈ (tcpInput heldBack stray
      (((visited.take 4).foldl (act 4) (Stack.init Env.ample)).hearing Env.ample 1)).sk 1,
      s'.tcpSt = .estab := by
    decide +kernel
  obtain ⟨s, there⟩ := Option.isSome_iff_exists.1 there
  obtain ⟨state, differs⟩ := half s there
  have guard := kept 1 s there (.inr state) fun both => differs both.2.symm
  obtain ⟨s', there', _, state'⟩ := guard.still rfl
  rw [open_ s' there', state] at state'
  cases state'

end Metal.Net.Ip
