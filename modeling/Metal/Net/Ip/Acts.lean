import Metal.Net.Ip.Reach

namespace Metal.Net.Ip

open Metal.Lib

/-! What each call does to the table, in terms of the moves. -/

variable {w : World} {st st' : Stack} {r : Ref} {fd : Fd} {s : Sock}
  {deliver : Segment → Stack → Stack}

theorem Stack.get_eq_some {kind : Kind} :
    st.get fd kind = some s ↔ st.sk fd = some s ∧ s.kind = kind := by
  simp [Stack.get, Option.filter_eq_some_iff]

theorem park_reach (r : Ref) (st : Stack) : Reach w st (st.park r) := by
  unfold Stack.park
  split
  · exact Reach.upd r fun s => Change.quiet s st.env.task s.wndStallAt s.sndWnd
      s.rexmitTries s.rexmitAt
  · exact Reach.refl st

theorem consumePark_eq (there : st.sk fd = some s) :
    ∃ waiter, st.consumePark ⟨fd, s.id⟩ =
      st.setRow fd (some { s with waiter := waiter }) := by
  unfold Stack.consumePark
  rw [Stack.upd_of_row (Stack.row_mk there)]
  split
  · exact ⟨none, rfl⟩
  · exact ⟨s.waiter, rfl⟩

theorem Change.parked (s : Sock) (waiter : Option Nat) :
    Change w s { s with waiter := waiter } :=
  Change.quiet s waiter s.wndStallAt s.sndWnd s.rexmitTries s.rexmitAt

theorem sendLocked_reach (handles : Handles w deliver) (fd : Fd) (buf : Bytes)
    (st : Stack) : Reach w st (sendLocked deliver fd buf st).1 := by
  unfold sendLocked
  split
  · exact Reach.refl st
  · rename_i s got
    have ⟨there, _⟩ := Stack.get_eq_some.1 got
    obtain ⟨waiter, consumed⟩ := consumePark_eq there
    have entered : Reach w st (st.setRow fd (some { s with waiter := waiter })) :=
      Reach.of_steps (Steps.change there (Change.parked s waiter))
    have row : (st.setRow fd (some { s with waiter := waiter })).row ⟨fd, s.id⟩ =
        some { s with waiter := waiter } :=
      Stack.row_eq_some.2 ⟨Stack.setRow_sk_same _, rfl⟩
    dsimp only
    rw [consumed]
    split
    · exact entered
    · rename_i sendable
      have state : s.tcpSt = .estab ∧ s.tcpError = false := by
        simpa [not_or] using sendable
      split
      · split
        · exact entered
        · refine (entered.trans (park_reach _ _)).trans (Reach.upd _ fun s => ?_)
          exact Change.quiet s s.waiter _ s.sndWnd s.rexmitTries s.rexmitAt
      · split
        · exact entered.trans (park_reach _ _)
        · split
          · exact entered
          · split
            · exact entered
            · rename_i len
              have launch (n : Nat) (some : ¬ min buf.length n = 0) :
                  Sock.Launch { s with waiter := waiter } .pshAck
                    (buf.take (min buf.length n)) := by
                refine Sock.Launch.data state.1 state.2 fun empty => some ?_
                simpa using congrArg List.length empty
              rw [Nat.min_assoc, Nat.min_assoc] at len ⊢
              have sent := entered.trans (tcpXmit_reach handles row (launch _ len))
              generalize tcpXmit deliver .pshAck _ _ _ = out at sent
              obtain ⟨st₁, tx⟩ := out
              cases tx with
              | ok =>
                  dsimp only
                  split
                  · exact sent.trans (park_reach _ _)
                  · exact sent
              | wait => exact sent
              | error => exact sent

theorem recvLocked_reach (handles : Handles w deliver) (fd : Fd) (len : Nat)
    (st : Stack) : Reach w st (recvLocked deliver fd len st).1 := by
  unfold recvLocked
  split
  · exact Reach.refl st
  · rename_i s got
    have ⟨there, _⟩ := Stack.get_eq_some.1 got
    obtain ⟨waiter, consumed⟩ := consumePark_eq there
    have entered : Reach w st (st.setRow fd (some { s with waiter := waiter })) :=
      Reach.of_steps (Steps.change there (Change.parked s waiter))
    dsimp only
    rw [consumed]
    split
    · exact entered
    · split
      · split
        · exact entered
        · exact entered.trans (park_reach _ _)
      · have taken := entered.trans
          (Reach.upd ⟨fd, s.id⟩ fun s => Change.consumed s len)
        split
        · exact taken.trans (tcpXmit_plain handles _ _ (Or.inl rfl))
        · exact taken

theorem checkTimeouts_reach (handles : Handles w deliver) (st : Stack) :
    Reach w st (checkTimeouts deliver st) :=
  checkTimeoutsFrom_reach handles _ 0 st

theorem inputWithin_reach (depth : Nat) {seg : Segment} (admits : w.admits seg)
    (heard : w.strict → Heard st seg) : Reach w st (inputWithin depth seg st) := by
  cases depth with
  | zero => exact Reach.of_steps (Steps.deep st)
  | succ depth =>
      exact tcpInput_reach (inputWithin_handles depth) admits heard

theorem rxFrom_reach (depth : Nat) (h : Int) {seg : Segment}
    (admits : w.admits seg) (heard : w.strict → Heard { st with rxL2 := h } seg) :
    Reach w st (rxFrom (inputWithin depth) h seg st) := by
  have entered : Reach w st { st with rxL2 := h } :=
    Reach.of_steps (Steps.via st h)
  have inside : Reach w { st with rxL2 := h }
      (ipInput (inputWithin depth) seg { st with rxL2 := h }) := by
    unfold ipInput
    split
    · exact inputWithin_reach depth admits heard
    · exact Reach.refl _
  exact (entered.trans inside).trans (Reach.of_steps (Steps.via _ st.rxL2))

/-- The stack as `connect` sends its SYN. -/
def Stack.dialed (fd : Fd) (s : Sock) (src : Addr) (addr : Addr) (port : Port)
    (st : Stack) : Stack :=
  (st.dialPort s).1.setRow fd (some (s.dial src (st.dialPort s).2 addr port))

theorem dialPort_eq (st : Stack) (s : Sock) :
    ∃ eph, (st.dialPort s).1 = { st with eph := eph } := by
  unfold Stack.dialPort
  split
  · exact ⟨st.eph, rfl⟩
  · exact ⟨_, rfl⟩

theorem dialPort_port (st : Stack) (s : Sock) :
    (st.dialPort s).2 = if s.bound then s.lport else st.eph := by
  unfold Stack.dialPort
  split <;> rfl

theorem ephPort_setRow (st : Stack) (fd : Fd) (o : Option Sock) :
    (st.setRow fd o).ephPort = (st.ephPort.1.setRow fd o, st.ephPort.2) := rfl

theorem connectLocked_cases (handles : Handles w deliver) (fd : Fd) (addr : Addr)
    (port : Port) (st : Stack) :
    (connectLocked deliver fd addr port st).1 = st ∨
      ∃ s waiter src, st.sk fd = some s ∧ s.kind = .tcp ∧
        Reach w (st.dialed fd { s with waiter := waiter } src addr port)
          (connectLocked deliver fd addr port st).1 := by
  unfold connectLocked
  split
  · exact Or.inl rfl
  · rename_i s got
    have ⟨there, kind⟩ := Stack.get_eq_some.1 got
    obtain ⟨waiter, consumed⟩ := consumePark_eq there
    have parked : (st.setRow fd (some { s with waiter := waiter })).row ⟨fd, s.id⟩ =
        some { s with waiter := waiter } :=
      Stack.row_eq_some.2 ⟨Stack.setRow_sk_same _, rfl⟩
    -- the port is the same whether or not the row was parked
    have dialed (src : Addr) :
        ((st.consumePark ⟨fd, s.id⟩).dialPort s).1.upd ⟨fd, s.id⟩
          (Sock.dial src ((st.consumePark ⟨fd, s.id⟩).dialPort s).2 addr port) =
            st.dialed fd { s with waiter := waiter } src addr port := by
      rw [consumed]
      by_cases bound : s.bound = true
      · simp only [Stack.dialed, Stack.dialPort, if_pos bound]
        rw [Stack.upd_of_row parked, Stack.setRow_setRow]
      · have parked' : ((st.setRow fd (some { s with waiter := waiter })).ephPort).1.row
          ⟨fd, s.id⟩ = some { s with waiter := waiter } := parked
        simp only [Stack.dialed, Stack.dialPort, if_neg bound]
        rw [Stack.upd_of_row parked']
        simp only [ephPort_setRow, Stack.setRow_setRow]
    refine Or.inr ⟨s, waiter, (st.consumePark ⟨fd, s.id⟩).dialFrom s addr, there,
      kind, ?_⟩
    dsimp only
    rw [dialed]
    generalize (st.consumePark ⟨fd, s.id⟩).dialFrom s addr = src
    have row : (st.dialed fd { s with waiter := waiter } src addr port).row
        ⟨fd, s.id⟩ = some (Sock.dial src (st.dialPort s).2 addr port
          { s with waiter := waiter }) :=
      Stack.row_eq_some.2 ⟨Stack.setRow_sk_same _, rfl⟩
    have sent := tcpXmit_reach handles row
      (Sock.Launch.syn rfl rfl rfl rfl (by simp [Sock.dial]; tauto))
    refine sent.trans ?_
    generalize (tcpXmit deliver .synOnly [] ⟨fd, s.id⟩ _).1 = st₁
    cases st₁.row ⟨fd, s.id⟩ with
    | none => exact Reach.of_steps (Steps.fault st₁)
    | some s₁ =>
        dsimp only
        split
        · exact Reach.refl st₁
        · exact park_reach _ st₁

/-- The stack as `close` finds it once the application has let go of the row and a
listener's children are gone. -/
def Stack.unheld (fd : Fd) (s : Sock) (st : Stack) : Stack :=
  if s.kind = .tcp ∧ s.tcpSt = .listen then (st.letGo fd s).dropChildren fd
  else st.letGo fd s

theorem unheld_row (fd : Fd) (s : Sock) (st : Stack) :
    (st.unheld fd s).sk fd = some { s with held := false, stage := .left } := by
  unfold Stack.unheld
  split
  · simp [Stack.dropChildren, Stack.letGo]
  · simp [Stack.letGo]

theorem unheld_deaf (notListen : s.tcpSt ≠ .listen) :
    st.unheld fd s = st.letGo fd s :=
  if_neg fun listens => notListen listens.2

theorem unheld_handed (fd : Fd) (s : Sock) (st : Stack) :
    (st.unheld fd s).handed = st.handed.filter fun h => h.1 ≠ fd := by
  unfold Stack.unheld
  split <;> rfl

theorem closeLocked_cases (handles : Handles w deliver) (fd : Fd) (st : Stack) :
    (closeLocked deliver fd st).1 = st ∨
      ∃ s, st.sk fd = some s ∧
        ((closeLocked deliver fd st).1 = (st.unheld fd s).drop fd ∨
          s.tcpSt ≠ .listen ∧ s.tcpSt ≠ .synRcvd ∧
            Reach w (st.unheld fd s) (closeLocked deliver fd st).1) := by
  unfold closeLocked
  split
  · exact Or.inl rfl
  · rename_i s there
    refine Or.inr ⟨s, there, ?_⟩
    have same : (if s.kind = .tcp ∧ s.tcpSt = .listen then
        (st.letGo fd s).dropChildren fd else st.letGo fd s) = st.unheld fd s := rfl
    dsimp only
    rw [same]
    split
    · rename_i connected
      refine Or.inr ⟨?_, ?_, ?_⟩
      · rcases connected.2 with state | state | state | state <;> rw [state] <;> decide
      · rcases connected.2 with state | state | state | state <;> rw [state] <;> decide
      · refine tcpClose_reach handles fun t row => Or.inr ?_
        have ⟨there', _⟩ := Stack.row_eq_some.1 row
        obtain rfl := Option.some.inj ((unheld_row fd s st).symm.trans there')
        rfl
    · exact Or.inl rfl

def Sock.opened (id : Nat) (kind : Kind) (caps : Caps) (wnd : Nat) : Sock :=
  { Sock.new id kind caps with sndWnd := wnd, held := true }

inductive Opens (kind : Kind) (st : Stack) : Stack → Prop
  | failed {st' : Stack} (prepares : Prepares st st') : Opens kind st st'
  | opened {st' : Stack} {fd : Fd} (caps : Caps) (wnd : Nat)
      (prepares : Prepares st st') (free : st.sk fd = none)
      (room : fd < st'.skCap) :
      Opens kind st (({ st' with nextId := st'.nextId + 1 }).setRow fd
        (some (Sock.opened st'.nextId kind caps wnd)))

theorem row_setNew (kind : Kind) (caps : Caps) (fd : Fd) (st : Stack) :
    (({ st with nextId := st.nextId + 1 }).setRow fd
      (some (Sock.new st.nextId kind caps))).row ⟨fd, st.nextId⟩ =
        some (Sock.new st.nextId kind caps) :=
  Stack.row_eq_some.2 ⟨Stack.setRow_sk_same _, rfl⟩

theorem socketLocked_opens (kind : Kind) (table : Table st) :
    Opens kind st (st.socketLocked kind).1 := by
  have allocates := sockAlloc_allocates kind table
  unfold Stack.socketLocked
  generalize st.sockAlloc kind = out at allocates
  cases allocates with
  | failed prepares => exact Opens.failed prepares
  | @took st' fd caps prepares free room =>
      have row := row_setNew kind caps fd st'
      simp only [Stack.hold, Stack.upd_of_row row, Stack.setRow_setRow]
      exact Opens.opened caps _ prepares free room

theorem outAlloc_allocates (kind : Kind) (table : Table st) :
    Allocates kind st (st.outAlloc kind) := by
  unfold Stack.outAlloc
  split
  · rename_i fd found
    have free := List.find?_some found
    have member := List.mem_reverse.1 (List.mem_of_find?_eq_some found)
    exact sockNew_allocates kind (Prepares.refl st) (by simpa using free)
      (List.mem_range.1 member)
  · split
    · exact Allocates.failed (Prepares.refl st)
    · rename_i grown same
      have ⟨prepares, larger⟩ := tableGrow_prepares same
      exact sockNew_allocates kind prepares
        (table.past (Nat.le_sub_one_of_lt larger))
        (Nat.sub_lt (Nat.zero_lt_of_lt larger) Nat.one_pos)

theorem outSocketLocked_opens (kind : Kind) (table : Table st) :
    Opens kind st (st.outSocketLocked kind).1 := by
  have allocates := outAlloc_allocates kind table
  unfold Stack.outSocketLocked
  generalize st.outAlloc kind = out at allocates
  cases allocates with
  | failed prepares => exact Opens.failed prepares
  | @took st' fd caps prepares free room =>
      have row := row_setNew kind caps fd st'
      have shut := Stack.row_upd row (f := fun s => { s with sndWnd := 0 }) rfl
      simp only [Stack.hold, Stack.upd_of_row shut]
      simp only [Stack.upd_of_row row, Stack.setRow_setRow]
      exact Opens.opened caps 0 prepares free room

def Sock.dequeue (waiter : Option Nat) (rest : List Fd) (l : Sock) : Sock :=
  { l with waiter := waiter, acceptQ := rest }

def Sock.taken (s : Sock) : Sock := { s with stage := .taken, held := true }

def Sock.listening (cap : Nat) (s : Sock) : Sock :=
  { s with acceptQ := [], acceptCap := cap, tcpSt := .listen }

/-- The rows once `listen` has given up the queue of a row for a new one. -/
def Stack.listened (fd : Fd) (queue : List Fd) (cap : Nat) (st : Stack) : Stack :=
  { st with
    sk := fun i => (st.sk i).map fun s =>
      let s := if i ∈ queue then { s with stage := .orphan } else s
      if i = fd then s.listening cap else s }

def Sock.named (addr : Addr) (port : Port) (l2 : Int) (s : Sock) : Sock :=
  { s with laddr := addr, lport := port, bound := true, l2 := l2 }

inductive Effect (w : World) (st : Stack) : Call → Stack → Prop
  | moves {call : Call} {st' : Stack} (steps : Steps w st st') : Effect w st call st'
  | loUp : Effect w st .loUp { st with loUp := true }
  | opened {call : Call} {st' : Stack} {fd : Fd} (kind : Kind) (caps : Caps)
      (wnd : Nat) (prepares : Prepares st st') (free : st.sk fd = none)
      (room : fd < st'.skCap) :
      Effect w st call (({ st' with nextId := st'.nextId + 1 }).setRow fd
        (some (Sock.opened st'.nextId kind caps wnd)))
  | bound {fd : Fd} {s : Sock} (addr : Addr) (port : Port) (l2 : Int)
      (there : st.sk fd = some s) :
      Effect w st (.bind fd addr port) (st.setRow fd (some (s.named addr port l2)))
  | pinned {fd : Fd} {s : Sock} (h : Int) (there : st.sk fd = some s) :
      Effect w st (.bindL2 fd h) (st.setRow fd (some { s with l2 := h }))
  | listened {fd : Fd} {s : Sock} (depth : Int) (cap : Nat)
      (there : st.sk fd = some s) (kind : s.kind = .tcp) (bound : s.bound = true) :
      Effect w st (.listen fd depth) (st.listened fd s.acceptQ cap)
  | accepted {fd child : Fd} {rest : List Fd} {s c : Sock} (waiter : Option Nat)
      (there : st.sk fd = some s) (kind : s.kind = .tcp)
      (listens : s.tcpSt = .listen) (queue : s.acceptQ = child :: rest)
      (live : (st.setRow fd (some (s.dequeue waiter rest))).sk child = some c) :
      Effect w st (.accept fd)
        { (st.setRow fd (some (s.dequeue waiter rest))).setRow child
            (some c.taken) with
          taken := st.taken ++ [(s.id, c.id)]
          handed := st.handed ++ [(child, c.id)] }
  | acceptedDead {fd child : Fd} {rest : List Fd} {s : Sock} (waiter : Option Nat)
      (there : st.sk fd = some s) (queue : s.acceptQ = child :: rest)
      (dead : (st.setRow fd (some (s.dequeue waiter rest))).sk child = none) :
      Effect w st (.accept fd)
        { st.setRow fd (some (s.dequeue waiter rest)) with
          fault := true
          taken := st.taken ++ [(s.id, st.nextId)]
          handed := st.handed ++ [(child, st.nextId)] }
  | dialed {fd : Fd} {s : Sock} {st' : Stack} (waiter : Option Nat)
      (src addr : Addr) (port : Port) (there : st.sk fd = some s)
      (kind : s.kind = .tcp)
      (steps : Steps w (st.dialed fd { s with waiter := waiter } src addr port) st') :
      Effect w st (.connect fd addr port) st'
  | dropped {fd : Fd} {s : Sock} (there : st.sk fd = some s) :
      Effect w st (.close fd) ((st.unheld fd s).drop fd)
  | closing {fd : Fd} {s : Sock} {st' : Stack} (there : st.sk fd = some s)
      (notListen : s.tcpSt ≠ .listen) (notHalf : s.tcpSt ≠ .synRcvd)
      (steps : Steps w (st.unheld fd s) st') : Effect w st (.close fd) st'

theorem acceptLocked_effect (fd : Fd) (st : Stack) :
    Effect w st (.accept fd) (st.acceptLocked fd).1 := by
  unfold Stack.acceptLocked
  split
  · exact Effect.moves (Steps.refl st)
  · rename_i s got
    have ⟨there, kind⟩ := Stack.get_eq_some.1 got
    split
    · exact Effect.moves (Steps.refl st)
    · rename_i listens
      obtain ⟨waiter, consumed⟩ := consumePark_eq there
      have entered : Steps w st (st.setRow fd (some { s with waiter := waiter })) :=
        Steps.change there (Change.parked s waiter)
      have row : (st.setRow fd (some { s with waiter := waiter })).row ⟨fd, s.id⟩ =
          some { s with waiter := waiter } :=
        Stack.row_eq_some.2 ⟨Stack.setRow_sk_same _, rfl⟩
      dsimp only
      rw [consumed]
      split
      · unfold Stack.park
        split
        · rw [Stack.upd_of_row row]
          exact Effect.moves (entered.trans
            (Steps.change (Stack.setRow_sk_same _) (Change.parked _ _)))
        · exact Effect.moves entered
      · rename_i child rest queue
        dsimp only
        rw [Stack.upd_of_row row, Stack.setRow_setRow]
        cases live : (st.setRow fd (some (s.dequeue waiter rest))).sk child with
        | none =>
            have dead : (st.setRow fd (some { s with
                waiter := waiter, acceptQ := rest })).sk child = none := live
            simp only [dead, Option.map_none, Option.getD_none]
            rw [Stack.upd_of_none (by simp [Stack.row, dead])]
            exact Effect.acceptedDead waiter there queue live
        | some c =>
            have alive : (st.setRow fd (some { s with
                waiter := waiter, acceptQ := rest })).sk child = some c := live
            simp only [alive, Option.map_some, Option.getD_some]
            rw [Stack.upd_of_row (Stack.row_mk alive)]
            exact Effect.accepted waiter there kind (not_not.1 listens) queue live

theorem listenLocked_effect (fd : Fd) (depth : Int) (st : Stack) :
    Effect w st (.listen fd depth) (st.listenLocked fd depth).1 := by
  unfold Stack.listenLocked
  split
  · exact Effect.moves (Steps.refl st)
  · rename_i s got
    have ⟨there, kind⟩ := Stack.get_eq_some.1 got
    split
    · exact Effect.moves (Steps.refl st)
    · rename_i ready
      have bound : s.bound = true := by simpa using (not_or.1 ready).1
      have row : (st.forsake s.acceptQ).row ⟨fd, s.id⟩ = some
          (if fd ∈ s.acceptQ then { s with stage := .orphan } else s) := by
        refine Stack.row_eq_some.2 ⟨?_, ?_⟩
        · simp [Stack.forsake, there]
        · split <;> rfl
      have same (cap : Nat) : (st.forsake s.acceptQ).upd ⟨fd, s.id⟩
          (Sock.listening cap) = st.listened fd s.acceptQ cap := by
        rw [Stack.upd_of_row row]
        unfold Stack.listened Stack.setRow
        congr 1
        funext i
        by_cases here : i = fd
        · subst here
          simp [there]
        · simp [here, Stack.forsake]
      dsimp only
      exact same _ ▸ Effect.listened depth _ there kind bound

theorem bindLocked_effect (fd : Fd) (addr : Addr) (port : Port) (st : Stack) :
    Effect w st (.bind fd addr port) (st.bindLocked fd addr port).1 := by
  unfold Stack.bindLocked
  split
  · exact Effect.moves (Steps.refl st)
  · rename_i s there
    exact Effect.bound addr port _ there

theorem bindL2Locked_effect (fd : Fd) (h : Int) (st : Stack) :
    Effect w st (.bindL2 fd h) (st.bindL2Locked fd h).1 := by
  unfold Stack.bindL2Locked
  split
  · exact Effect.moves (Steps.refl st)
  · rename_i s there
    split
    · exact Effect.pinned h there
    · exact Effect.moves (Steps.refl st)

theorem Opens.effect {kind : Kind} (opens : Opens kind st st') (call : Call) :
    Effect w st call st' := by
  cases opens with
  | failed prepares => exact Effect.moves prepares.steps
  | opened caps wnd prepares free room =>
      exact Effect.opened kind caps wnd prepares free room

/-! ### The names of the rows through a call -/

theorem Table.dialed (table : Table st) (there : st.sk fd = some s) {t : Sock}
    (id : t.id = s.id) (src addr : Addr) (port : Port) :
    Table (st.dialed fd t src addr port) := by
  obtain ⟨eph, same⟩ := dialPort_eq st t
  unfold Stack.dialed
  rw [same]
  have renamed : Table { st with eph := eph } :=
    table.of_names (fun _ s there => ⟨s, there, rfl⟩) (Nat.le_refl _) (Nat.le_refl _)
  exact renamed.setRow _ there id

theorem unheld_old (i : Fd) (t : Sock)
    (there' : (st.unheld fd s).sk i = some t) :
    (i = fd ∧ t = { s with held := false, stage := .left }) ∨ (i ≠ fd ∧ st.sk i = some t) := by
  by_cases same : i = fd
  · subst same
    rw [unheld_row] at there'
    exact Or.inl ⟨rfl, (Option.some.inj there').symm⟩
  · refine Or.inr ⟨same, ?_⟩
    unfold Stack.unheld at there'
    split at there'
    · simp only [Stack.dropChildren, Stack.letGo, Stack.setRow_sk_of_ne same] at there'
      exact (Option.filter_eq_some_iff.1 there').1
    · simpa only [Stack.letGo, Stack.setRow_sk_of_ne same] using there'

theorem unheld_kept {i : Fd} {t : Sock} (differ : i ≠ fd) (there : st.sk i = some t)
    (alone : t.listenFd ≠ some fd) : (st.unheld fd s).sk i = some t := by
  have left : (st.letGo fd s).sk i = some t :=
    (Stack.setRow_sk_of_ne differ _).trans there
  unfold Stack.unheld
  split
  · simp only [Stack.dropChildren, left]
    exact Option.filter_eq_some_iff.2 ⟨rfl, by simp [alone]⟩
  · exact left

theorem unheld_gone {i : Fd} {t : Sock} (differ : i ≠ fd) (inside : i < st.skCap)
    (there : st.sk i = some t) (kind : t.kind = .tcp) (under : t.listenFd = some fd)
    (listener : s.kind = .tcp ∧ s.tcpSt = .listen) : (st.unheld fd s).sk i = none := by
  have left : (st.letGo fd s).sk i = some t :=
    (Stack.setRow_sk_of_ne differ _).trans there
  unfold Stack.unheld
  rw [if_pos listener]
  simp only [Stack.dropChildren, left]
  exact Option.filter_eq_none_iff.2 fun u same => by
    obtain rfl := Option.some.inj same
    have : (st.letGo fd s).skCap = st.skCap := rfl
    simp [differ, inside, kind, under, this]

theorem Table.unheld (table : Table st) (there : st.sk fd = some s) :
    Table (st.unheld fd s) := by
  refine table.of_names (fun i t there' => ?_) (Nat.le_of_eq ?_) (Nat.le_of_eq ?_)
  · rcases unheld_old i t there' with ⟨rfl, rfl⟩ | ⟨_, there⟩
    · exact ⟨s, there, rfl⟩
    · exact ⟨t, there, rfl⟩
  · unfold Stack.unheld
    split <;> rfl
  · unfold Stack.unheld
    split <;> rfl

theorem Sound.of_table (all : ∀ seg, w.admits seg) (table : Table st) : Sound w st :=
  ⟨table, Or.inl all⟩

theorem perform_effect (all : ∀ seg, w.admits seg) (table : Table st) (depth : Nat)
    (call : Call)
    (heard : w.strict → ∀ h seg, call = .input h seg →
      Heard { st with rxL2 := h } seg) :
    Effect w st call (call.perform depth st).1 := by
  have sound := Sound.of_table all table
  have handles := inputWithin_handles (w := w) depth
  cases call with
  | loUp => exact Effect.loUp
  | socket kind => exact (socketLocked_opens kind table).effect _
  | outSocket kind => exact (outSocketLocked_opens kind table).effect _
  | bind fd addr port => exact bindLocked_effect fd addr port st
  | bindL2 fd h => exact bindL2Locked_effect fd h st
  | listen fd depth => exact listenLocked_effect fd depth st
  | accept fd => exact acceptLocked_effect fd st
  | connect fd addr port =>
      rcases connectLocked_cases handles fd addr port st with
        same | ⟨s, waiter, src, there, kind, reach⟩
      · have idle : Steps w st (connectLocked (inputWithin depth) fd addr port st).1 := by
          rw [same]
          exact Steps.refl st
        exact Effect.moves idle
      · have renamed := table.dialed there
          (show ({ s with waiter := waiter } : Sock).id = s.id from rfl) src addr port
        exact Effect.dialed waiter src addr port there kind
          (reach (Sound.of_table all renamed))
  | send fd buf => exact Effect.moves (sendLocked_reach handles fd buf st sound)
  | recv fd len => exact Effect.moves (recvLocked_reach handles fd len st sound)
  | close fd =>
      rcases closeLocked_cases handles fd st with
        same | ⟨s, there, dropped | ⟨notListen, notHalf, reach⟩⟩
      · have idle : Steps w st (closeLocked (inputWithin depth) fd st).1 := by
          rw [same]
          exact Steps.refl st
        exact Effect.moves idle
      · exact dropped ▸ Effect.dropped there
      · exact Effect.closing there notListen notHalf
          (reach (Sound.of_table all (table.unheld there)))
  | pump => exact Effect.moves (checkTimeouts_reach handles st sound)
  | input h seg =>
      exact Effect.moves (rxFrom_reach depth h (all seg)
        (fun strict => heard strict h seg rfl) sound)

theorem Table.drop (table : Table st) (fd : Fd) : Table (st.drop fd) := by
  refine table.of_names (fun i s there => ?_) (Nat.le_refl _) (Nat.le_refl _)
  obtain ⟨t, there, id, -⟩ := Carries.drop st fd i s there
  exact ⟨t, there, id⟩

theorem Table.listened (table : Table st) (fd : Fd) (queue : List Fd) (cap : Nat) :
    Table (st.listened fd queue cap) := by
  refine table.of_names (fun i s there => ?_) (Nat.le_refl _) (Nat.le_refl _)
  obtain ⟨t, old, rfl⟩ := Option.map_eq_some_iff.1 there
  refine ⟨t, old, ?_⟩
  dsimp only
  split <;> split <;> rfl

theorem Effect.table (all : ∀ seg, w.admits seg) {call : Call}
    (effect : Effect w st call st') (table : Table st) : Table st' := by
  have idle : ∀ {st st' : Stack}, Table st → st'.sk = st.sk →
      st'.nextId = st.nextId → st.skCap ≤ st'.skCap → Table st' := by
    intro st st' table sk ids cap
    exact table.of_names (fun i s there => ⟨s, sk ▸ there, rfl⟩)
      (Nat.le_of_eq ids.symm) cap
  cases effect with
  | moves steps => exact (steps.sound (Sound.of_table all table)).table
  | loUp => exact idle table rfl rfl (Nat.le_refl _)
  | opened kind caps wnd prepares free room =>
      have prepared := (prepares.steps.sound (Sound.of_table all table)).table
      exact prepared.insert rfl room
  | bound addr port l2 there => exact table.setRow _ there rfl
  | pinned h there => exact table.setRow _ there rfl
  | listened depth cap there => exact table.listened _ _ _
  | @accepted fd child rest s c waiter there _ _ _ live =>
      have shorter := table.setRow (s.dequeue waiter rest) there rfl
      exact idle (shorter.setRow c.taken live rfl) rfl rfl (Nat.le_refl _)
  | @acceptedDead fd child rest s waiter there =>
      exact idle (table.setRow (s.dequeue waiter rest) there rfl) rfl rfl
        (Nat.le_refl _)
  | @dialed fd s _ waiter src addr port there kind steps =>
      have renamed := table.dialed there
        (show ({ s with waiter := waiter } : Sock).id = s.id from rfl) src addr port
      exact (steps.sound (Sound.of_table all renamed)).table
  | dropped there => exact (table.unheld there).drop _
  | closing there _ _ steps =>
      exact (steps.sound (Sound.of_table all (table.unheld there))).table

def World.open (strict : Prop) : World where
  admits := fun _ => True
  strict := strict
  far := Or.inl fun _ => trivial

theorem Table.env (table : Table st) (env : Env) : Table { st with env := env } :=
  table.of_names (fun _ s there => ⟨s, there, rfl⟩) (Nat.le_refl _) (Nat.le_refl _)

theorem act_effect {strict : Prop} (table : Table st) (depth : Nat)
    (call : Env × Call)
    (heard : strict → ∀ h seg, call.2 = .input h seg →
      Heard { st with rxL2 := h } seg) :
    Effect (World.open strict) { st with env := call.1 } call.2 (act depth st call) :=
  perform_effect (fun _ => trivial) (table.env call.1) depth call.2 heard

theorem init_sk (env : Env) (fd : Fd) (s : Sock) :
    (Stack.init env).sk fd ≠ some s := nofun

theorem Table.init (env : Env) : Table (Stack.init env) where
  named fd s there := absurd there (init_sk env fd s)
  within fd s there := absurd there (init_sk env fd s)
  apart fd _ s _ there := absurd there (init_sk env fd s)

/-- A property of single rows that everything which happens to a row keeps. -/
structure RowRule (w : World) (keeps : Sock → Prop) : Prop where
  change : ∀ s s', Change w s s' → keeps s → keeps s'
  complete : ∀ s stage, s.tcpSt = .synRcvd → keeps s → keeps (s.complete stage)
  enqueue : ∀ s fd, keeps s → keeps (s.enqueue fd)
  child : ∀ id caps l lfd seg, keeps (Sock.child id caps l lfd seg)
  opened : ∀ id kind caps wnd, keeps (Sock.opened id kind caps wnd)
  named : ∀ s addr port l2, keeps s → keeps (s.named addr port l2)
  pinned : ∀ (s : Sock) h, keeps s → keeps { s with l2 := h }
  listening : ∀ s cap, keeps s → keeps (s.listening cap)
  dequeue : ∀ s waiter rest, keeps s → keeps (s.dequeue waiter rest)
  dial : ∀ s waiter src lport addr port, keeps s →
    keeps (Sock.dial src lport addr port { s with waiter := waiter })
  passed : ∀ (s : Sock) stage held, keeps s →
    keeps { s with stage := stage, held := held }

def Rows (keeps : Sock → Prop) (st : Stack) : Prop :=
  ∀ i s, st.sk i = some s → keeps s

namespace Rows

variable {keeps : Sock → Prop}

theorem of_sk (rows : Rows keeps st) (sk : st'.sk = st.sk) : Rows keeps st' :=
  fun i s there => rows i s (sk ▸ there)

theorem setRow (rows : Rows keeps st) {s' : Sock} (fd : Fd) (new : keeps s') :
    Rows keeps (st.setRow fd (some s')) := by
  intro i s there
  rw [Stack.setRow_sk] at there
  split at there
  · obtain rfl := Option.some.inj there
    exact new
  · exact rows i s there

theorem drop (rows : Rows keeps st) (fd : Fd) : Rows keeps (st.drop fd) := by
  intro i s there
  obtain ⟨_, old⟩ : i ≠ fd ∧ st.sk i = some s := by
    rw [Stack.drop, Stack.setRow_sk] at there
    split at there
    · cases there
    · rename_i differ
      exact ⟨differ, there⟩
  exact rows i s old

theorem unheld (rule : RowRule w keeps) (rows : Rows keeps st)
    (there : st.sk fd = some s) : Rows keeps (st.unheld fd s) := by
  intro i t there'
  rcases unheld_old i t there' with ⟨rfl, rfl⟩ | ⟨_, old⟩
  · exact rule.passed s .left false (rows i s there)
  · exact rows i t old

end Rows

theorem Steps.rows {keeps : Sock → Prop} (rule : RowRule w keeps)
    (steps : Steps w st st') (rows : Rows keeps st) : Rows keeps st' := by
  induction steps with
  | refl => exact rows
  | trans _ _ first second => exact second (first rows)
  | fault | deep | via | grow | spend | sent => exact rows.of_sk rfl
  | change there change =>
      exact rows.setRow _ (rule.change _ _ change (rows _ _ there))
  | release => exact rows.drop _
  | finished => exact rows.drop _
  | child caps seg => exact (rows.of_sk rfl).setRow _ (rule.child _ caps _ _ seg)
  | @queue _ lfd fd s l seg there _ _ half _ listener =>
      have done := rows.setRow fd (rule.complete s .queued half (rows fd s there))
      exact Rows.of_sk (done.setRow _ (rule.enqueue _ _ (done _ _ listener))) rfl
  | orphan seg there _ _ half =>
      exact rows.setRow _ (rule.complete _ .orphan half (rows _ _ there))
  | refuse seg there _ _ half _ _ _ _ _ reset =>
      exact (reset (rows.setRow _
        (rule.complete _ .refused half (rows _ _ there)))).drop _

theorem Effect.rows {keeps : Sock → Prop} (rule : RowRule w keeps) {call : Call}
    (effect : Effect w st call st') (rows : Rows keeps st) : Rows keeps st' := by
  cases effect with
  | moves steps => exact steps.rows rule rows
  | loUp => exact rows.of_sk rfl
  | opened kind caps wnd prepares free room =>
      exact Rows.setRow (rows.of_sk prepares.sk) _ (rule.opened _ kind caps wnd)
  | bound addr port l2 there =>
      exact rows.setRow _ (rule.named _ addr port l2 (rows _ _ there))
  | pinned h there => exact rows.setRow _ (rule.pinned _ h (rows _ _ there))
  | listened depth cap there =>
      intro i s there'
      obtain ⟨t, old, rfl⟩ := Option.map_eq_some_iff.1 there'
      have before := rows i t old
      dsimp only
      split <;> split
      · exact rule.listening _ _ (rule.passed t .orphan t.held before)
      · exact rule.listening _ _ before
      · exact rule.passed t .orphan t.held before
      · exact before
  | @accepted fd child rest s c waiter there _ _ _ live =>
      have shorter := rows.setRow fd (rule.dequeue s waiter rest (rows fd s there))
      have taken := rule.passed _ .taken true (shorter _ _ live)
      exact Rows.of_sk (shorter.setRow _ taken) rfl
  | acceptedDead waiter there =>
      exact Rows.of_sk
        (rows.setRow _ (rule.dequeue _ waiter _ (rows _ _ there))) rfl
  | @dialed fd s _ waiter src addr port there kind steps =>
      refine steps.rows rule ?_
      obtain ⟨eph, same⟩ := dialPort_eq st { s with waiter := waiter }
      unfold Stack.dialed
      rw [same]
      exact Rows.setRow (rows.of_sk rfl) fd
        (rule.dial s waiter src _ addr port (rows _ _ there))
  | dropped there => exact (rows.unheld rule there).drop _
  | closing there _ _ steps => exact steps.rows rule (rows.unheld rule there)

end Metal.Net.Ip
