import Metal.Net.Asgi.Listen
import Metal.Lib.Slots

namespace Metal.Net.Asgi.Listen

open Metal.Lib Function

/-! What every call and every step of a coroutine keeps. -/

variable {s : State}

def Row.isOpen (row : Row) : Bool := row.fd.isSome

structure Inv (s : State) : Prop where
  socket : ∀ (slot : Nat) row fd, s.rows[slot]? = some row → row.fd = some fd →
    s.caller ≠ .clearing slot → s.socks fd = some (.listener row.opener)
  apart : ∀ (one other : Nat) row row', s.rows[one]? = some row → s.rows[other]? = some row' →
    row.isOpen → row'.isOpen → row.opener = row'.opener → one = other
  lone : ∀ (one other : Nat) row row', s.rows[one]? = some row → s.rows[other]? = some row' →
    row.isOpen → row'.same row.addr row.port → one = other
  known : ∀ (slot : Nat) row, s.rows[slot]? = some row → row.isOpen →
    row.opener < s.coros.length
  home : ∀ (number : Nat) coro, s.coros[number]? = some coro →
    ∃ row, s.rows[coro.home]? = some row ∧ number ≤ row.opener
  loop : ∀ (number : Nat) coro fd, s.coros[number]? = some coro → coro.pc = .accepting fd →
    s.socks fd = some (.listener number)
  clearing : ∀ slot, s.caller = .clearing slot → ∃ row, s.rows[slot]? = some row ∧ row.isOpen
  used : s.used = s.rows.countP Row.isOpen
  own : ∀ call ∈ s.accepts, call.socket = some (.listener call.coro)

theorem Inv.boot (arena : Bool) : Inv (State.boot arena) where
  socket _ _ _ here := by cases here
  apart _ _ _ _ here := by cases here
  lone _ _ _ _ here := by cases here
  known _ _ here := by cases here
  home _ _ here := by cases here
  loop _ _ _ here := by cases here
  clearing _ here := by cases here
  used := rfl
  own _ here := by cases here

theorem Row.same_isOpen {row : Row} {addr : UInt32} {port : UInt16}
    (same : row.same addr port) : row.isOpen := by
  rw [Row.same, Bool.and_eq_true, Bool.and_eq_true] at same
  exact same.1.1

structure Closed (rows rows' : List Row) : Prop where
  kept : ∀ (slot : Nat) row, rows'[slot]? = some row → row.isOpen → rows[slot]? = some row
  there : ∀ (slot : Nat) row, rows[slot]? = some row →
    ∃ row', rows'[slot]? = some row' ∧ row'.opener = row.opener ∧ (row.isOpen → row' = row)
  count : rows'.countP Row.isOpen = rows.countP Row.isOpen

variable {rows : List Row}

theorem Inv.closed (inv : Inv s) (closed : Closed s.rows rows) :
    Inv { s with rows := rows } where
  socket slot row fd here open_ := inv.socket slot row fd
    (closed.kept slot row here (by rw [Row.isOpen, open_]; rfl)) open_
  apart one other row row' here there open_ open' := inv.apart one other row row'
    (closed.kept one row here open_) (closed.kept other row' there open') open_ open'
  lone one other row row' here there open_ same := inv.lone one other row row'
    (closed.kept one row here open_)
    (closed.kept other row' there (Row.same_isOpen same)) open_ same
  known slot row here open_ := inv.known slot row (closed.kept slot row here open_) open_
  home number coro here := by
    obtain ⟨row, there, older⟩ := inv.home number coro here
    obtain ⟨row', moved, same, _⟩ := closed.there coro.home row there
    exact ⟨row', moved, same ▸ older⟩
  loop := inv.loop
  clearing slot here := by
    obtain ⟨row, there, open_⟩ := inv.clearing slot here
    obtain ⟨row', moved, _, same⟩ := closed.there slot row there
    exact ⟨row', moved, same open_ ▸ open_⟩
  used := inv.used.trans closed.count.symm
  own := inv.own

theorem Closed.refl (rows : List Row) : Closed rows rows where
  kept _ _ here _ := here
  there _ row here := ⟨row, here, rfl, fun _ => rfl⟩
  count := rfl

theorem Closed.grow (rows : List Row) (more : Nat) :
    Closed rows (rows ++ List.replicate more Row.fresh) where
  kept slot row here open_ := by
    rcases Nat.lt_or_ge slot rows.length with inside | outside
    · rwa [List.getElem?_append_left inside] at here
    · rw [List.getElem?_append_right outside, List.getElem?_replicate] at here
      split at here
      · cases here
        cases open_
      · cases here
  there slot row here := by
    have inside := (List.getElem?_eq_some_iff.mp here).1
    exact ⟨row, by rw [List.getElem?_append_left inside, here], rfl, fun _ => rfl⟩
  count := by
    rw [List.countP_append, List.countP_replicate]
    rfl

theorem Closed.label {slot : Nat} {row : Row} (here : rows[slot]? = some row)
    (shut : row.isOpen = false) (addr : UInt32) (port : UInt16) :
    Closed rows (rows.modify slot fun row => ⟨none, addr, port, row.opener⟩) := by
  rw [modify_eq_set_of here]
  refine ⟨?_, ?_, ?_⟩
  · intro other row' there open_
    rcases set_cases there with ⟨_, rfl⟩ | ⟨_, there⟩
    · cases open_
    · exact there
  · intro other row' there
    obtain ⟨now, moved, ⟨rfl, rfl⟩ | ⟨_, rfl⟩⟩ := set_kept (i := slot) there
      ⟨none, addr, port, row.opener⟩
    · obtain rfl := Option.some.inj (here.symm.trans there)
      refine ⟨_, moved, rfl, fun open_ => ?_⟩
      rw [shut] at open_
      cases open_
    · exact ⟨now, moved, rfl, fun _ => rfl⟩
  · have count := countP_set_add Row.isOpen here ⟨none, addr, port, row.opener⟩
    rw [shut] at count
    exact Nat.add_right_cancel count

theorem Closed.trans {rows' rows'' : List Row} (first : Closed rows rows')
    (second : Closed rows' rows'') : Closed rows rows'' where
  kept slot row here open_ := first.kept slot row (second.kept slot row here open_) open_
  there slot row here := by
    obtain ⟨row', there, same, open_⟩ := first.there slot row here
    obtain ⟨row'', there', same', open'⟩ := second.there slot row' there
    refine ⟨row'', there', same'.trans same, fun isOpen => ?_⟩
    have := open_ isOpen
    exact (open' (this ▸ isOpen)).trans this
  count := second.count.trans first.count

theorem listenRoom_rows (answers : Answers) (s : State) :
    ∃ more, (listenRoom answers s).2 =
      { s with rows := s.rows ++ List.replicate more Row.fresh } := by
  have same : s = { s with rows := s.rows ++ List.replicate 0 Row.fresh } := by
    rw [List.replicate_zero, List.append_nil]
  unfold listenRoom
  split
  · exact ⟨0, same⟩
  · split
    · exact ⟨0, same⟩
    · split
      · exact ⟨0, same⟩
      · rename_i more _
        split
        · exact ⟨more + 1, rfl⟩
        · exact ⟨0, same⟩

theorem freeSlot_cases (answers : Answers) (s : State) :
    ∃ rows, Closed s.rows rows ∧ (freeSlot answers s).2 = { s with rows := rows } ∧
      ∀ slot, (freeSlot answers s).1 = some slot →
        ∃ row, rows[slot]? = some row ∧ row.isOpen = false := by
  unfold freeSlot
  split
  · rename_i slot found
    refine ⟨s.rows, .refl _, rfl, fun slot' same => ?_⟩
    obtain rfl := Option.some.inj same
    obtain ⟨inside, holds, _⟩ := List.findIdx?_eq_some_iff_getElem.mp found
    refine ⟨s.rows[slot], List.getElem?_eq_getElem inside, ?_⟩
    rw [Row.isOpen, Option.isSome_eq_false_iff]
    exact holds
  · obtain ⟨more, grown⟩ := listenRoom_rows answers s
    refine ⟨_, .grow s.rows more, ?_⟩
    split
    · rename_i s' room
      rw [room] at grown
      exact ⟨grown, nofun⟩
    · rename_i s' room
      rw [room] at grown
      obtain rfl := grown
      split
      · exact ⟨rfl, nofun⟩
      · rename_i longer
        refine ⟨rfl, fun slot' same => ?_⟩
        obtain rfl := Option.some.inj same
        refine ⟨Row.fresh, ?_, rfl⟩
        rw [List.length_append, List.length_replicate] at longer
        rw [List.getElem?_append_right (Nat.le_refl _), Nat.sub_self,
          List.getElem?_replicate, if_pos (by omega)]

/-- A listen call leaves every server as it is, or it makes one more on a slot that serves
nothing, with a descriptor that nobody has; the address and port were not served. -/
theorem listen_cases (addr : UInt32) (port : UInt16) (answers : Answers) (s : State) :
    (∃ rows, Closed s.rows rows ∧ (listen addr port answers s).1 = { s with rows := rows }) ∨
      ∃ rows slot row fd, Closed s.rows rows ∧ rows[slot]? = some row ∧ row.isOpen = false ∧
        s.socks fd = none ∧ (∀ other ∈ s.rows, other.same addr port = false) ∧
        (listen addr port answers s).1 =
          { s with
            rows := rows.set slot ⟨some fd, addr, port, s.coros.length⟩
            used := s.used + 1
            socks := update s.socks fd (some (.listener s.coros.length))
            coros := s.coros ++ [⟨0, slot, .parked⟩]
            caller := .storing slot s.coros.length } := by
  unfold listen
  split
  · exact .inl ⟨s.rows, .refl _, rfl⟩
  · split
    · exact .inl ⟨s.rows, .refl _, rfl⟩
    · rename_i absent
      split
      · exact .inl ⟨s.rows, .refl _, rfl⟩
      · obtain ⟨rows, closed, after, shut⟩ := freeSlot_cases answers s
        split
        · rename_i found
          rw [found] at after
          exact .inl ⟨rows, closed, after⟩
        · rename_i slot s' found
          rw [found] at after shut
          obtain rfl := after
          obtain ⟨row, here, shut⟩ := shut slot rfl
          split
          · exact .inl ⟨rows, closed, rfl⟩
          · rename_i fd given
            split
            · unfold serve
              split
              · refine .inr ⟨rows, slot, row, fd, closed, here, shut, ?_, ?_, rfl⟩
                · exact Option.isNone_iff_eq_none.mp (Option.filter_eq_some_iff.mp given).2
                · exact fun other member => by
                    simpa using List.findIdx?_eq_none_iff.mp absent other member
              · exact .inl ⟨_, closed.trans (.label here shut addr port), rfl⟩
            · exact .inl ⟨rows, closed, rfl⟩

section Inv

variable (inv : Inv s)
include inv

theorem Inv.socks {fd : Nat} (foreign : ∀ coro, s.socks fd ≠ some (.listener coro))
    (value : Option Sock) : Inv { s with socks := update s.socks fd value } := by
  have stays (fd' coro : Nat) (here : s.socks fd' = some (.listener coro)) :
      update s.socks fd value fd' = some (.listener coro) := by
    rw [update_of_ne, here]
    rintro rfl
    exact foreign coro here
  exact {
    socket := fun slot row fd' here open_ quiet =>
      stays fd' _ (inv.socket slot row fd' here open_ quiet)
    apart := inv.apart
    lone := inv.lone
    known := inv.known
    home := inv.home
    loop := fun number coro fd' here at_ => stays fd' _ (inv.loop number coro fd' here at_)
    clearing := inv.clearing
    used := inv.used
    own := inv.own }

theorem Inv.serve (idle : s.caller = .idle) {slot : Nat} {row : Row}
    (here : s.rows[slot]? = some row) (shut : row.isOpen = false) {addr : UInt32} {port : UInt16}
    (absent : ∀ other ∈ s.rows, other.same addr port = false) {fd : Nat}
    (free : s.socks fd = none) :
    Inv { s with
      rows := s.rows.set slot ⟨some fd, addr, port, s.coros.length⟩
      used := s.used + 1
      socks := update s.socks fd (some (.listener s.coros.length))
      coros := s.coros ++ [⟨0, slot, .parked⟩]
      caller := .storing slot s.coros.length } := by
  have quiet (slot : Nat) : s.caller ≠ .clearing slot := by
    rw [idle]
    exact nofun
  have stays (fd' coro : Nat) (there : s.socks fd' = some (.listener coro)) :
      update s.socks fd (some (.listener s.coros.length)) fd' =
        some (.listener coro) := by
    rw [update_of_ne, there]
    rintro rfl
    rw [free] at there
    cases there
  refine ⟨?_, ?_, ?_, ?_, ?_, ?_, nofun, ?_, inv.own⟩
  · intro slot' row' fd' there open_ _
    rcases set_cases there with ⟨_, rfl⟩ | ⟨_, there⟩
    · cases open_
      exact update_self ..
    · exact stays fd' _ (inv.socket slot' row' fd' there open_ (quiet slot'))
  · intro one other row' row'' first second open_ open' same
    rcases set_cases first with ⟨rfl, rfl⟩ | ⟨_, was⟩ <;>
      rcases set_cases second with ⟨rfl, rfl⟩ | ⟨_, was'⟩
    · rfl
    · exact absurd same.symm (Nat.ne_of_lt (inv.known other row'' was' open'))
    · exact absurd same (Nat.ne_of_lt (inv.known one row' was open_))
    · exact inv.apart one other row' row'' was was' open_ open' same
  · intro one other row' row'' first second open_ same
    rcases set_cases first with ⟨rfl, rfl⟩ | ⟨_, was⟩ <;>
      rcases set_cases second with ⟨rfl, rfl⟩ | ⟨_, was'⟩
    · rfl
    · rw [absent row'' (List.mem_of_getElem? was')] at same
      cases same
    · have taken : row'.same addr port := by
        rw [Row.same, Bool.and_eq_true, Bool.and_eq_true] at same ⊢
        refine ⟨⟨open_, ?_⟩, ?_⟩
        · exact beq_iff_eq.mpr (beq_iff_eq.mp same.1.2).symm
        · exact beq_iff_eq.mpr (beq_iff_eq.mp same.2).symm
      rw [absent row' (List.mem_of_getElem? was)] at taken
      cases taken
    · exact inv.lone one other row' row'' was was' open_ same
  · intro slot' row' there open_
    rw [List.length_append, List.length_singleton]
    rcases set_cases there with ⟨_, rfl⟩ | ⟨_, there⟩
    · exact Nat.lt_succ_self _
    · exact Nat.lt_succ_of_lt (inv.known slot' row' there open_)
  · intro number coro there
    rcases append_cases there with ⟨rfl, rfl⟩ | there
    · exact ⟨_, set_here here _, Nat.le_refl _⟩
    · obtain ⟨row', at_, older⟩ := inv.home number coro there
      have earlier := (List.getElem?_eq_some_iff.mp there).1
      obtain ⟨now, moved, ⟨_, rfl⟩ | ⟨_, rfl⟩⟩ := set_kept (i := slot) at_
        ⟨some fd, addr, port, s.coros.length⟩
      · exact ⟨_, moved, Nat.le_of_lt earlier⟩
      · exact ⟨_, moved, older⟩
  · intro number coro fd' there at_
    rcases append_cases there with ⟨_, rfl⟩ | there
    · cases at_
    · exact stays fd' _ (inv.loop number coro fd' there at_)
  · have count := countP_set_add Row.isOpen here ⟨some fd, addr, port, s.coros.length⟩
    rw [shut, ← inv.used] at count
    exact count.symm

theorem Inv.listen (idle : s.caller = .idle) (addr : UInt32) (port : UInt16)
    (answers : Answers) : Inv (listen addr port answers s).1 := by
  rcases listen_cases addr port answers s with
    ⟨rows, closed, after⟩ | ⟨rows, slot, row, fd, closed, here, shut, free, absent, after⟩
  · rw [after]
    exact inv.closed closed
  · rw [after]
    refine (inv.closed closed).serve idle here shut (fun other member => ?_) free
    rw [← Bool.not_eq_true]
    intro same
    obtain ⟨slot', there⟩ := List.mem_iff_getElem?.mp member
    have old := closed.kept slot' other there (Row.same_isOpen same)
    rw [absent other (List.mem_of_getElem? old)] at same
    cases same

theorem Inv.move {number : Nat} {coro : Coro} (now : Coro)
    (here : s.coros[number]? = some coro) (home : now.home = coro.home)
    (loop : ∀ fd, now.pc = .accepting fd → s.socks fd = some (.listener number)) :
    Inv { s with coros := s.coros.set number now } where
  socket := inv.socket
  apart := inv.apart
  lone := inv.lone
  known slot row there open_ := by
    rw [List.length_set]
    exact inv.known slot row there open_
  home number' coro' there := by
    rcases set_cases there with ⟨rfl, rfl⟩ | ⟨_, there⟩
    · rw [home]
      exact inv.home number' coro here
    · exact inv.home number' coro' there
  loop number' coro' fd there at_ := by
    rcases set_cases there with ⟨rfl, rfl⟩ | ⟨_, there⟩
    · exact loop fd at_
    · exact inv.loop number' coro' fd there at_
  clearing := inv.clearing
  used := inv.used
  own := inv.own

theorem Inv.idle (quiet : ∀ slot, s.caller ≠ .clearing slot) :
    Inv { s with caller := .idle } where
  socket slot row fd here open_ _ := inv.socket slot row fd here open_ (quiet slot)
  apart := inv.apart
  lone := inv.lone
  known := inv.known
  home := inv.home
  loop := inv.loop
  clearing _ := nofun
  used := inv.used
  own := inv.own

theorem Inv.store : Inv (store s) := by
  unfold Listen.store
  split
  · rename_i slot number storing
    have quiet (slot : Nat) : s.caller ≠ .clearing slot := by
      rw [storing]
      exact nofun
    cases here : s.coros[number]? with
    | none =>
        rw [List.modify_eq_self (List.getElem?_eq_none_iff.mp here)]
        exact inv.idle quiet
    | some coro =>
        rw [modify_eq_set_of here]
        have moved := inv.move { coro with slot := slot } here rfl
          (inv.loop number coro · here)
        exact moved.idle quiet
  · exact inv

theorem Inv.stop (idle : s.caller = .idle) {id : Int} (keeps : Keeps s (.stop id)) :
    Inv (stop id s).1 := by
  have quiet (slot : Nat) : s.caller ≠ .clearing slot := by
    rw [idle]
    exact nofun
  unfold Listen.stop
  split
  · exact inv
  · rename_i positive
    split
    · exact inv
    · rename_i row here
      split
      · exact inv
      · rename_i fd open_
        have isOpen : row.isOpen := by rw [Row.isOpen, open_]; rfl
        have socket := inv.socket id.toNat row fd here open_ (quiet _)
        refine ⟨?_, inv.apart, inv.lone, inv.known, inv.home, ?_, ?_, inv.used, inv.own⟩
        · intro slot row' fd' there open' notHere
          have socket' := inv.socket slot row' fd' there open' (quiet slot)
          have isOpen' : row'.isOpen := by rw [Row.isOpen, open']; rfl
          dsimp only
          rw [update_of_ne, socket']
          rintro rfl
          rw [socket] at socket'
          have same : row.opener = row'.opener := by injections
          exact notHere (congrArg _ (inv.apart _ _ row row' here there isOpen isOpen' same))
        · intro number coro fd' there at_
          have socket' := inv.loop number coro fd' there at_
          dsimp only
          rw [update_of_ne, socket']
          rintro rfl
          rw [socket] at socket'
          have same : row.opener = number := by injections
          have away := keeps idle (Int.not_lt.mp positive) row here isOpen coro (same ▸ there)
          rw [at_] at away
          cases away
        · intro slot same
          cases same
          exact ⟨row, here, isOpen⟩

theorem Inv.clear : Inv (clear s) := by
  unfold Listen.clear
  split
  · rename_i slot clearing
    obtain ⟨row, here, open_⟩ := inv.clearing slot clearing
    rw [modify_eq_set_of here]
    refine ⟨?_, ?_, ?_, ?_, ?_, inv.loop, nofun, ?_, inv.own⟩
    · intro slot' row' fd there open' _
      rcases set_cases there with ⟨_, rfl⟩ | ⟨different, there⟩
      · cases open'
      · refine inv.socket slot' row' fd there open' ?_
        rw [clearing]
        intro same
        injection same with same
        exact different same.symm
    · intro one other row' row'' first second open' open'' same
      rcases set_cases first with ⟨_, rfl⟩ | ⟨_, first⟩
      · cases open'
      · rcases set_cases second with ⟨_, rfl⟩ | ⟨_, second⟩
        · cases open''
        · exact inv.apart one other row' row'' first second open' open'' same
    · intro one other row' row'' first second open' same
      rcases set_cases first with ⟨_, rfl⟩ | ⟨_, first⟩
      · cases open'
      · rcases set_cases second with ⟨_, rfl⟩ | ⟨_, second⟩
        · cases Row.same_isOpen same
        · exact inv.lone one other row' row'' first second open' same
    · intro slot' row' there open'
      rcases set_cases there with ⟨_, rfl⟩ | ⟨_, there⟩
      · cases open'
      · exact inv.known slot' row' there open'
    · intro number coro there
      obtain ⟨row', at_, older⟩ := inv.home number coro there
      obtain ⟨now, moved, ⟨same, rfl⟩ | ⟨_, rfl⟩⟩ := set_kept (i := slot) at_ row.clear
      · rw [same, here] at at_
        cases at_
        exact ⟨_, moved, older⟩
      · exact ⟨_, moved, older⟩
    · have count := countP_set_add Row.isOpen here row.clear
      rw [open_, ← inv.used] at count
      exact (Nat.eq_sub_of_add_eq count).symm
  · exact inv

theorem Inv.stepListen {number : Nat} {answer : Answer}
    (keeps : Keeps s (.run number answer)) : Inv (stepListen s number answer) := by
  unfold Listen.stepListen
  split
  · exact inv
  · rename_i coro here
    split
    · rename_i parked
      refine inv.move _ here rfl fun fd begun => ?_
      obtain ⟨placed, quiet, latest⟩ := keeps coro here parked
      obtain ⟨row, there, older⟩ := inv.home number coro here
      dsimp only at begun
      rw [begin_, placed, there] at begun
      dsimp only at begun
      split at begun
      · cases begun
      · rename_i fd' open_
        cases begun
        have newer := latest row there (by rw [open_]; rfl)
        rw [Nat.le_antisymm older newer]
        exact inv.socket coro.home row fd there open_ quiet
    · rename_i fd accepting
      have socket := inv.loop number coro fd here accepting
      have moved := inv.move { coro with pc := answer.next fd } here rfl fun fd' at_ => by
        have same : fd' = fd := by
          unfold Answer.next at at_
          split at at_ <;> cases at_
          rfl
        rw [same, socket]
      exact { moved with
        own := fun call member => by
          rcases List.mem_append.mp member with old | new
          · exact inv.own call old
          · cases List.mem_singleton.mp new
            exact socket }
    · exact inv

theorem Inv.step {event : Event} (keeps : Keeps s event) : Inv (Listen.step s event) := by
  cases event with
  | listen addr port answers =>
      unfold Listen.step
      dsimp only
      split
      · rename_i idle
        exact inv.listen idle addr port answers
      · exact inv
  | store => exact inv.store
  | stop id =>
      unfold Listen.step
      dsimp only
      split
      · rename_i idle
        exact inv.stop idle keeps
      · exact inv
  | clear => exact inv.clear
  | run number answer => exact inv.stepListen keeps
  | open_ fd =>
      unfold Listen.step
      dsimp only
      split
      · rename_i free
        exact inv.socks (fun coro here => by rw [free] at here; cases here) _
      · exact inv
  | close fd =>
      unfold Listen.step
      dsimp only
      split
      · rename_i foreign
        exact inv.socks (fun coro here => by rw [foreign] at here; cases here) _
      · exact inv
  | knob soft => exact { inv with }

theorem Inv.exact : Exact s where
  own := inv.own
  used quiet := by
    rw [inv.used]
    apply List.countP_congr
    intro row member
    obtain ⟨slot, here⟩ := List.mem_iff_getElem?.mp member
    unfold Row.isOpen State.serves
    split
    · rename_i shut
      rw [shut]
      rfl
    · rename_i fd open_
      rw [open_, inv.socket slot row fd here open_ (quiet slot)]
      rfl
  again idle arena slot row here serves answers := by
    have isOpen : row.isOpen := by
      unfold State.serves at serves
      unfold Row.isOpen
      split at serves
      · cases serves
      · rename_i fd open_
        rw [open_]
        rfl
    have same : row.same row.addr row.port := by
      rw [Row.same, beq_self_eq_true, beq_self_eq_true, Bool.and_true, Bool.and_true]
      exact isOpen
    obtain ⟨inside, at_⟩ := List.getElem?_eq_some_iff.mp here
    have found : s.rows.findIdx? (fun row' => row'.same row.addr row.port) = some slot := by
      rw [List.findIdx?_eq_some_iff_getElem]
      refine ⟨inside, by rw [at_, same], fun other before => ?_⟩
      rw [Bool.not_eq_true, ← Bool.not_eq_true]
      intro taken
      have there := List.getElem?_eq_getElem (Nat.lt_trans before inside)
      exact Nat.ne_of_lt before (inv.lone slot other row _ here there isOpen taken).symm
    rw [Listen.listen, arena, found]
    rfl

end Inv

/-- In a run whose coroutines start on the slots that their own calls filled, and whose
servers are stopped between their steps, every accept is on the right socket. -/
theorem accepts_own_of_keeps (arena : Bool) (run : List Event)
    (keeps : Along step Keeps (State.boot arena) run) :
    Exact (run.foldl step (State.boot arena)) :=
  (keeps.invariant (fun _ _ inv keeps => inv.step keeps) (Inv.boot arena)).exact

def granted (fd : Nat) : Answers := ⟨some 1, true, some fd, true, true, true, true⟩

/-- Two servers, each with its coroutine; the second is stopped and another one takes its
slot after the coroutine has ended. -/
def orderly : List Event :=
  [.listen 0 80 (granted 3), .store, .run 0 .wait, .run 0 .wait,
    .listen 0 81 (granted 4), .store, .run 1 .wait, .open_ 5, .run 1 (.taken true true),
    .run 1 .wait, .stop 1, .clear, .run 1 .wait, .listen 0 82 (granted 4), .store,
    .run 2 .wait, .run 2 (.taken false true)]

theorem accepts_own_of_keeps_orderly : Exact (orderly.foldl step (State.boot true)) :=
  accepts_own_of_keeps true orderly (by decide +kernel)

def early : List Event :=
  [.listen 0 80 (granted 3), .store, .listen 0 81 (granted 4), .run 1 .wait, .run 1 .wait]

/-- The coroutine of a stopped server wakes after another one has taken its slot. -/
def late : List Event :=
  [.listen 0 80 (granted 3), .store, .run 0 .wait, .run 0 .wait, .stop 0, .clear,
    .listen 0 81 (granted 3), .store, .run 0 .wait, .run 0 (.taken true true)]

/-- A server is stopped while its coroutine is in the loop, and another socket has the
descriptor then. -/
def within : List Event :=
  [.listen 0 80 (granted 3), .store, .run 0 .wait, .stop 0, .clear, .open_ 3, .run 0 .wait]

theorem accepts_own_fails :
    ¬ Exact (early.foldl step (State.boot true)) ∧
      ¬ Exact (late.foldl step (State.boot true)) ∧
        ¬ Exact (within.foldl step (State.boot true)) := by
  refine ⟨fun exact_ => ?_, fun exact_ => ?_, fun exact_ => ?_⟩
  · exact absurd exact_.own (by decide +kernel)
  · exact absurd exact_.own (by decide +kernel)
  · exact absurd exact_.own (by decide +kernel)

end Metal.Net.Asgi.Listen
