import Metal.Net.Asgi.Server
import Metal.Net.Asgi.Response
import Metal.Lib.Slots

namespace Metal.Net.Asgi

open Metal.Lib

/-! What every call and every step keeps of the rows and of the queue. -/

variable {s : State} {number slot : Nat} {life : Life} {c : Conn}

theorem connAt_some : connAt slot s = some c ↔ s.conns[slot]? = some (some c) :=
  Option.join_eq_some_iff

def State.grow (more : Nat) (s : State) : State :=
  { s with defers := s.defers ++ List.replicate more Defer.empty }

theorem defersRoom_grow (grown : Option Nat) (s : State) :
    ∃ more, (defersRoom grown s).2 = s.grow more := by
  have same : s = s.grow 0 := by
    rw [State.grow, List.replicate_zero, List.append_nil]
  unfold defersRoom
  split
  · exact ⟨0, same⟩
  · split
    · exact ⟨0, same⟩
    · split
      · exact ⟨0, same⟩
      · rename_i more
        exact ⟨more + 1, rfl⟩

theorem deferSlot_cases (grown : Option Nat) (s : State) :
    ∃ more, (deferSlot grown s).2 = s.grow more ∧
      ∀ i, (deferSlot grown s).1 = some i →
        ∃ d, (s.grow more).defers[i]? = some d ∧ d.used = false := by
  unfold deferSlot
  split
  · rename_i i found
    have same : s = s.grow 0 := by
      rw [State.grow, List.replicate_zero, List.append_nil]
    refine ⟨0, same, fun i' this => ?_⟩
    obtain rfl := Option.some.inj this
    obtain ⟨inside, holds, _⟩ := List.findIdx?_eq_some_iff_getElem.mp found
    rw [← same]
    exact ⟨_, List.getElem?_eq_getElem inside, by simpa using holds⟩
  · obtain ⟨more, grown⟩ := defersRoom_grow grown s
    refine ⟨more, ?_⟩
    split
    · rename_i s' room
      rw [room] at grown
      exact ⟨grown, nofun⟩
    · rename_i s' room
      rw [room] at grown
      obtain rfl := grown
      split
      · exact ⟨rfl, nofun⟩
      · rename_i longer
        refine ⟨rfl, fun i this => ?_⟩
        obtain rfl := Option.some.inj this
        refine ⟨Defer.empty, ?_, rfl⟩
        rw [State.grow, List.length_append, List.length_replicate] at longer
        rw [State.grow, List.getElem?_append_right (Nat.le_refl _), Nat.sub_self,
          List.getElem?_replicate, if_pos (by omega)]

/-- The state after entry `i` was filled. -/
def State.queue (slot : Nat) (path : Bytes) (id i : Nat) (s : State) : State :=
  { s with
    defers := s.defers.set i ⟨true, false, slot, path.take (pathMax - 1), id, s.asked.length⟩
    defersUsed := s.defersUsed + 1
    asked := s.asked ++ [⟨id, path.take (pathMax - 1)⟩] }

theorem deferEnqueue_cases (slot : Nat) (path : Bytes) (grown : Option Nat) (id : Nat)
    (s : State) :
    (∃ more, deferEnqueue slot path grown id s = (false, s.grow more)) ∨
      ∃ more i d, (s.grow more).defers[i]? = some d ∧ d.used = false ∧
        deferEnqueue slot path grown id s = (true, (s.grow more).queue slot path id i) := by
  unfold deferEnqueue
  split
  · refine .inl ⟨0, ?_⟩
    rw [State.grow, List.replicate_zero, List.append_nil]
  · obtain ⟨more, after, free⟩ := deferSlot_cases grown s
    split
    · rename_i s' found
      rw [found] at after
      exact .inl ⟨more, by rw [← after]⟩
    · rename_i i s' found
      rw [found] at after free
      obtain rfl := after
      obtain ⟨d, here, unused⟩ := free i rfl
      exact .inr ⟨more, i, d, here, unused, rfl⟩

/-- The state after entry `i` was emptied. -/
def State.unqueue (i : Nat) (d : Defer) (s : State) : State :=
  { s with
    defers := s.defers.set i { d with used := false, taken := false }
    defersUsed := s.defersUsed - 1
    deferCur := if s.deferCur = some i then none else s.deferCur }

theorem dropAt_cases (slot : Nat) (s : State) (i : Nat) :
    dropAt slot s i = s ∧ (∀ d, s.defers[i]? = some d → d.used → d.conn ≠ slot) ∨
      ∃ d, s.defers[i]? = some d ∧ d.used ∧ d.conn = slot ∧ dropAt slot s i = s.unqueue i d := by
  unfold dropAt
  split
  · rename_i absent
    exact .inl ⟨rfl, fun d here => by rw [absent] at here; cases here⟩
  · rename_i d here
    split
    · rename_i both
      obtain ⟨used, mine⟩ := Bool.and_eq_true_iff.mp both
      exact .inr ⟨d, here, used, beq_iff_eq.mp mine, rfl⟩
    · rename_i other
      refine .inl ⟨rfl, fun d' here' used mine => other ?_⟩
      obtain rfl := Option.some.inj (here.symm.trans here')
      rw [used, mine, beq_self_eq_true]
      rfl

theorem deferNext_cases (s : State) :
    deferNext s = (s, none) ∨ ∃ i d, s.defers[i]? = some d ∧ d.used ∧ d.taken = false ∧
      deferNext s = ({ s with
        defers := s.defers.set i { d with taken := true }
        deferCur := some i
        handed := s.handed ++ [d.req] }, some d.path) := by
  unfold deferNext
  split
  · exact .inl rfl
  · rename_i i found
    obtain ⟨inside, holds, _⟩ := List.findIdx?_eq_some_iff_getElem.mp found
    have here := List.getElem?_eq_getElem inside
    rw [here]
    obtain ⟨used, untaken⟩ := Bool.and_eq_true_iff.mp holds
    exact .inr ⟨i, _, here, used, by simpa using untaken, rfl⟩

theorem deferReply_cases (given : Given) (ctype : Option CString) (room : Bool) (s : State) :
    deferReply given ctype room s = (s, -1) ∨
      ∃ cur d c, s.deferCur = some cur ∧ s.defers[cur]? = some d ∧
        s.conns[d.conn]? = some (some c) ∧ d.used ∧ given.fits ∧
        deferReply given ctype room s =
          ({ (s.unqueue cur d).put d.conn (c.answered given.body ctype) with
              replies := s.replies ++
                [⟨s.handed.getLast?, c.id, s.waits c, given.body⟩] }, 0) := by
  unfold deferReply
  split
  · exact .inl rfl
  · rename_i cur current
    split
    · exact .inl rfl
    · rename_i d here
      split
      · exact .inl rfl
      · rename_i c row
        split
        · exact .inl rfl
        · rename_i fine
          split
          · exact .inl rfl
          · rw [Bool.or_eq_true, not_or, Bool.not_eq_true', Bool.not_eq_true',
              Bool.not_eq_false, Bool.not_eq_false] at fine
            refine .inr ⟨cur, d, c, current, here, connAt_some.mp row, fine.1, fine.2, ?_⟩
            rw [State.unqueue, State.put, if_pos current]

/-- A connection that was closed: once, and a buffer that was taken is freed. -/
structure Shut (c : Conn) : Prop where
  closes : c.closes = 1
  once : c.takes ≤ 1
  freed : c.frees = c.takes
  inOrder : c.InOrder
  strays : c.busy = false → c.strays = false

/-- Every call of `spawn_conn` has its connection on one row, or closed. -/
structure Rows (s : State) : Prop where
  row : ∀ (slot : Nat) c, s.conns[slot]? = some (some c) → Steady c ∧ Sound c ∧
    ∃ life, s.lives[c.id]? = some life ∧ life.slot = slot ∧ life.last = none
  life : ∀ (number : Nat) life, s.lives[number]? = some life →
    (life.last = none ∧ ∃ c, s.conns[life.slot]? = some (some c) ∧ c.id = number) ∨
      ∃ c, life.last = some c ∧ c.id = number ∧ Shut c
  done : ∀ (number : Nat) life, s.lives[number]? = some life → life.pc = .ended .done →
    ∃ c, life.last = some c ∧ c.Answered
  used : s.connsUsed = s.conns.countP Option.isSome

structure Inv (s : State) : Prop extends Rows s where
  gone : ∀ (number : Nat) life, s.lives[number]? = some life → life.last ≠ none →
    (∃ status, life.pc = .ended status) ∨ s.arena = false
  giving : ∀ (number : Nat) life, s.lives[number]? = some life → life.pc = .givingUp →
    ∀ c, s.conns[life.slot]? = some (some c) → c.step = 3
  empty : s.arena = false → s.conns = [] ∧ s.defers = []
  link : ∀ (i : Nat) d, s.defers[i]? = some d → d.used → ∃ c,
    s.conns[d.conn]? = some (some c) ∧ c.id = d.by_ ∧ c.step = 3 ∧ c.deferReady = false
  apart : ∀ (i j : Nat) d d', s.defers[i]? = some d → s.defers[j]? = some d' →
    d.used → d'.used → d.conn = d'.conn → i = j
  cur : ∀ i, s.deferCur = some i → ∃ d, s.defers[i]? = some d ∧ d.used ∧ d.taken
  queued : s.defersUsed = s.defers.countP Defer.used

def State.Unqueued (slot : Nat) (s : State) : Prop :=
  ∀ (i : Nat) d, s.defers[i]? = some d → d.used → d.conn ≠ slot

theorem inv_boot (routes : List Route) : Inv (State.boot routes) where
  row _ _ here := by cases here
  life _ _ here := by cases here
  done _ _ here := by cases here
  gone _ _ here := by cases here
  giving _ _ here := by cases here
  empty here := by cases here
  used := rfl
  link _ _ here := by cases here
  apart _ _ _ _ here := by cases here
  cur _ here := by cases here
  queued := rfl

theorem Rows.single (rows : Rows s) {slot' : Nat} {c' : Conn}
    (here : s.conns[slot]? = some (some c)) (there : s.conns[slot']? = some (some c'))
    (same : c.id = c'.id) : slot = slot' := by
  obtain ⟨_, _, life, at_, mine, _⟩ := rows.row slot c here
  obtain ⟨_, _, life', at', mine', _⟩ := rows.row slot' c' there
  rw [same, at'] at at_
  obtain rfl := Option.some.inj at_
  exact mine.symm.trans mine'

theorem Inv.unqueued (inv : Inv s) (here : s.conns[slot]? = some (some c))
    (away : c.step = 3 → c.deferReady = true) : s.Unqueued slot := by
  intro i d there used mine
  obtain ⟨c', row, _, waits, unready⟩ := inv.link i d there used
  rw [mine, here] at row
  cases row
  rw [away waits] at unready
  cases unready

theorem Inv.own (inv : Inv s) (at_ : s.lives[number]? = some life)
    (going : ∀ status, life.pc ≠ .ended status) (here : s.conns[life.slot]? = some (some c)) :
    c.id = number ∧ life.last = none := by
  rcases inv.life number life at_ with ⟨open_, c', row, mine⟩ | ⟨c', shut, _⟩
  · rw [here] at row
    cases row
    exact ⟨mine, open_⟩
  · rcases inv.gone number life at_ (by rw [shut]; exact nofun) with ⟨status, ended⟩ | over_
    · exact absurd ended (going status)
    · rw [(inv.empty over_).1] at here
      cases here

variable {now : Conn}

theorem Inv.put (inv : Inv s) (here : s.conns[slot]? = some (some c)) (same : now.id = c.id)
    (steady : Steady now) (sound : Sound now)
    (links : now.step = 3 ∧ now.deferReady = false ∨ s.Unqueued slot)
    (giving : ∀ life, s.lives[c.id]? = some life → life.pc = .givingUp → now.step = 3) :
    Inv (s.put slot now) where
  row slot' c' there := by
    rcases set_cases there with ⟨rfl, found⟩ | ⟨_, there⟩
    · cases found
      obtain ⟨_, _, mine⟩ := inv.row slot' c here
      exact ⟨steady, sound, same ▸ mine⟩
    · exact inv.row slot' c' there
  life number life at_ := by
    rcases inv.life number life at_ with ⟨open_, c', row, mine⟩ | shut
    · refine .inl ⟨open_, ?_⟩
      obtain ⟨found, moved, ⟨rfl, rfl⟩ | ⟨_, rfl⟩⟩ := set_kept (i := slot) row (some now)
      · rw [here] at row
        cases row
        exact ⟨now, moved, same.trans mine⟩
      · exact ⟨c', moved, mine⟩
    · exact .inr shut
  done := inv.done
  gone := inv.gone
  giving number life at_ atGiving c' there := by
    rcases set_cases there with ⟨mine, found⟩ | ⟨_, there⟩
    · cases found
      have own := inv.own at_ (fun status => by rw [atGiving]; exact nofun) (mine ▸ here)
      exact giving life (own.1 ▸ at_) atGiving
    · exact inv.giving number life at_ atGiving c' there
  empty over_ := by
    rw [(inv.empty over_).1] at here
    cases here
  used := by
    have count := countP_set_add Option.isSome here (some now)
    exact inv.used.trans (Nat.add_right_cancel count).symm
  link i d there used := by
    obtain ⟨c', row, mine, waits⟩ := inv.link i d there used
    obtain ⟨found, moved, ⟨this, rfl⟩ | ⟨_, rfl⟩⟩ := set_kept (i := slot) row (some now)
    · rcases links with unready | free
      · rw [this, here] at row
        cases row
        exact ⟨now, moved, same.trans mine, unready⟩
      · exact absurd this (free i d there used)
    · exact ⟨c', moved, mine, waits⟩
  apart := inv.apart
  cur := inv.cur
  queued := inv.queued

theorem goto_cases (at_ : s.lives[number]? = some life) {pc : Pc} {number' : Nat} {life' : Life}
    (there : (s.goto number pc).lives[number']? = some life') :
    number' = number ∧ life' = { life with pc := pc } ∨
      number' ≠ number ∧ s.lives[number']? = some life' := by
  rw [State.goto, modify_eq_set_of at_] at there
  exact set_cases there

theorem Rows.goto (rows : Rows s) (at_ : s.lives[number]? = some life) {pc : Pc}
    (done : pc = .ended .done → ∃ c, life.last = some c ∧ c.Answered) :
    Rows (s.goto number pc) where
  row slot c here := by
    obtain ⟨steady, sound, life', there, mine, fresh⟩ := rows.row slot c here
    rw [State.goto, modify_eq_set_of at_]
    obtain ⟨found, moved, ⟨same, rfl⟩ | ⟨_, rfl⟩⟩ := set_kept (i := number) there
      { life with pc := pc }
    · rw [same, at_] at there
      cases there
      exact ⟨steady, sound, _, moved, mine, fresh⟩
    · exact ⟨steady, sound, _, moved, mine, fresh⟩
  life number' life' there := by
    rcases goto_cases at_ there with ⟨rfl, rfl⟩ | ⟨_, there⟩
    · exact rows.life number' life at_
    · exact rows.life number' life' there
  done number' life' there isDone := by
    rcases goto_cases at_ there with ⟨_, rfl⟩ | ⟨_, there⟩
    · exact done isDone
    · exact rows.done number' life' there isDone
  used := rows.used

theorem Inv.goto (inv : Inv s) (at_ : s.lives[number]? = some life) {pc : Pc}
    (notDone : pc ≠ .ended .done)
    (open_ : life.last = none ∨ (∃ status, pc = .ended status) ∨ s.arena = false)
    (giving : pc = .givingUp → ∀ c, s.conns[life.slot]? = some (some c) → c.step = 3) :
    Inv (s.goto number pc) :=
  { inv.toRows.goto at_ fun done => absurd done notDone with
    gone := fun number' life' there closed => by
      rcases goto_cases at_ there with ⟨_, rfl⟩ | ⟨_, there⟩
      · rcases open_ with open_ | ended
        · exact absurd open_ closed
        · exact ended
      · exact inv.gone number' life' there closed
    giving := fun number' life' there atGiving c row => by
      rcases goto_cases at_ there with ⟨_, rfl⟩ | ⟨_, there⟩
      · exact giving atGiving c row
      · exact inv.giving number' life' there atGiving c row
    empty := inv.empty
    link := inv.link
    apart := inv.apart
    cur := inv.cur
    queued := inv.queued }

theorem release_shut (steady : Steady c) (inOrder : c.InOrder)
    (strays : c.busy = false → c.strays = false) : Shut c.release := by
  refine ⟨?_, steady.once, steady.balanced, inOrder, strays⟩
  rw [Conn.release, steady.open_, steady.closes]
  rfl

theorem close_cases (at_ : s.lives[c.id]? = some life) {number' : Nat} {life' : Life}
    (there : (s.close slot c).lives[number']? = some life') :
    number' = c.id ∧ life' = { life with last := some c.release } ∨
      number' ≠ c.id ∧ s.lives[number']? = some life' := by
  rw [State.close, modify_eq_set_of at_] at there
  exact set_cases there

theorem Rows.close (rows : Rows s) (here : s.conns[slot]? = some (some c)) (same : now.id = c.id)
    (shut : Shut now.release) : Rows (s.close slot now) := by
  obtain ⟨_, _, life, at_, _, fresh⟩ := rows.row slot c here
  rw [← same] at at_
  exact {
    row := fun slot' c' there => by
      rcases set_cases there with ⟨_, found⟩ | ⟨different, there⟩
      · cases found
      · obtain ⟨steady', sound', life', at'', mine', fresh'⟩ := rows.row slot' c' there
        refine ⟨steady', sound', life', ?_, mine', fresh'⟩
        rw [State.close, modify_eq_set_of at_, set_there ?_, at'']
        rintro this
        exact different (rows.single there here (this.trans same))
    life := fun number' life' there => by
      rcases close_cases at_ there with ⟨rfl, rfl⟩ | ⟨different, there⟩
      · exact .inr ⟨now.release, rfl, rfl, shut⟩
      · rcases rows.life number' life' there with ⟨open_, c', row, theirs⟩ | closed
        · refine .inl ⟨open_, c', ?_, theirs⟩
          rw [State.close, set_there ?_, row]
          rintro taken
          rw [taken, here] at row
          cases row
          exact different (theirs.symm.trans same.symm)
        · exact .inr closed
    done := fun number' life' there isDone => by
      rcases close_cases at_ there with ⟨rfl, rfl⟩ | ⟨_, there⟩
      · obtain ⟨c', closed, _⟩ := rows.done _ life at_ isDone
        rw [fresh] at closed
        cases closed
      · exact rows.done number' life' there isDone
    used := by
      have count := countP_set_add Option.isSome here none
      rw [← rows.used] at count
      exact (Nat.eq_sub_of_add_eq count).symm }

theorem Inv.close (inv : Inv s) (here : s.conns[slot]? = some (some c)) (same : now.id = c.id)
    (steady : Steady now) {status : Status} (closing : Closing status now)
    (free : s.Unqueued slot) : Inv ((s.close slot now).goto now.id (.ended status)) := by
  obtain ⟨_, _, life, at_, _, _⟩ := inv.row slot c here
  rw [← same] at at_
  have closed := inv.toRows.close here same (release_shut steady closing.inOrder closing.strays)
  have at' : (s.close slot now).lives[now.id]? =
      some { life with last := some now.release } := by
    rw [State.close, modify_eq_set_of at_, set_here at_]
  have moved : Rows ((s.close slot now).goto now.id (.ended status)) := closed.goto at' fun done => by
    cases done
    exact ⟨now.release, rfl, closing.answered rfl⟩
  have old {number' : Nat} {life' : Life}
      (there : ((s.close slot now).goto now.id (.ended status)).lives[number']? = some life') :
      life'.pc = .ended status ∨ s.lives[number']? = some life' := by
    rcases goto_cases at' there with ⟨_, rfl⟩ | ⟨different, there⟩
    · exact .inl rfl
    · rcases close_cases at_ there with ⟨same, _⟩ | ⟨_, there⟩
      · exact absurd same different
      · exact .inr there
  exact { moved with
    gone := fun number' life' there isClosed => by
      rcases old there with ended | there
      · exact .inl ⟨status, ended⟩
      · exact inv.gone number' life' there isClosed
    giving := fun number' life' there atGiving c' row => by
      rcases old there with ended | there
      · cases ended.symm.trans atGiving
      · rcases set_cases row with ⟨_, found⟩ | ⟨_, row⟩
        · cases found
        · exact inv.giving number' life' there atGiving c' row
    empty := fun over_ => by
      rw [(inv.empty over_).1] at here
      cases here
    link := fun i d there used => by
      obtain ⟨c', row, theirs, waits⟩ := inv.link i d there used
      refine ⟨c', ?_, theirs, waits⟩
      rw [State.goto, State.close, set_there (free i d there used), row]
    apart := inv.apart
    cur := inv.cur
    queued := inv.queued }

variable {i : Nat} {d : Defer}

theorem grow_used {more : Nat} (there : (s.grow more).defers[i]? = some d) (used : d.used) :
    s.defers[i]? = some d := by
  rcases append_replicate_cases there with there | rfl
  · exact there
  · cases used

theorem Inv.grow (inv : Inv s) (alive : s.arena = true) (more : Nat) : Inv (s.grow more) where
  row := inv.row
  life := inv.life
  done := inv.done
  gone := inv.gone
  giving := inv.giving
  empty over_ := by
    have over_ : s.arena = false := over_
    rw [alive] at over_
    cases over_
  used := inv.used
  link i d there used := inv.link i d (grow_used there used) used
  apart i j d d' here there used used' :=
    inv.apart i j d d' (grow_used here used) (grow_used there used') used used'
  cur i current := by
    obtain ⟨d, here, both⟩ := inv.cur i current
    refine ⟨d, ?_, both⟩
    rw [State.grow, List.getElem?_append_left (List.getElem?_eq_some_iff.mp here).1, here]
  queued := by
    rw [State.grow, List.countP_append, List.countP_replicate]
    exact inv.queued

theorem Inv.queue (inv : Inv s) (empty : s.defers[i]? = some d) (unused : d.used = false)
    (here : s.conns[slot]? = some (some c)) (waits : c.step = 3) (unready : c.deferReady = false)
    (free : s.Unqueued slot) (path : Bytes) :
    Inv (s.queue slot path c.id i) where
  row := inv.row
  life := inv.life
  done := inv.done
  gone := inv.gone
  giving := inv.giving
  empty over_ := by
    rw [(inv.empty over_).1] at here
    cases here
  used := inv.used
  link j d' there used := by
    rcases set_cases there with ⟨_, rfl⟩ | ⟨_, there⟩
    · exact ⟨c, here, rfl, waits, unready⟩
    · exact inv.link j d' there used
  apart j k d' d'' first second used used' same := by
    rcases set_cases first with ⟨rfl, rfl⟩ | ⟨_, was⟩ <;>
      rcases set_cases second with ⟨rfl, rfl⟩ | ⟨_, was'⟩
    · rfl
    · exact absurd same.symm (free k d'' was' used')
    · exact absurd same (free j d' was used)
    · exact inv.apart j k d' d'' was was' used used' same
  cur j current := by
    obtain ⟨d', there, both⟩ := inv.cur j current
    refine ⟨d', ?_, both⟩
    rw [State.queue, set_there ?_, there]
    rintro rfl
    rw [empty] at there
    cases there
    rw [unused] at both
    cases both.1
  queued := by
    have count := countP_set_add Defer.used empty
      ⟨true, false, slot, path.take (pathMax - 1), c.id, s.asked.length⟩
    rw [unused, ← inv.queued] at count
    exact count.symm

theorem unqueue_used {j : Nat} {d' : Defer} (there : (s.unqueue i d).defers[j]? = some d')
    (used : d'.used) : j ≠ i ∧ s.defers[j]? = some d' := by
  rcases set_cases there with ⟨_, rfl⟩ | kept
  · cases used
  · exact kept

theorem Inv.unqueue (inv : Inv s) (here : s.defers[i]? = some d) (used : d.used) :
    Inv (s.unqueue i d) where
  row := inv.row
  life := inv.life
  done := inv.done
  gone := inv.gone
  giving := inv.giving
  empty over_ := by
    rw [(inv.empty over_).2] at here
    cases here
  used := inv.used
  link j d' there used' := inv.link j d' (unqueue_used there used').2 used'
  apart j k d' d'' first second used' used'' :=
    inv.apart j k d' d'' (unqueue_used first used').2 (unqueue_used second used'').2 used' used''
  cur j current := by
    rw [State.unqueue] at current
    dsimp only at current
    split at current
    · cases current
    · rename_i different
      obtain ⟨d', there, both⟩ := inv.cur j current
      refine ⟨d', ?_, both⟩
      rw [State.unqueue, set_there ?_, there]
      rintro rfl
      exact different current
  queued := by
    have count := countP_set_add Defer.used here { d with used := false, taken := false }
    rw [used, ← inv.queued] at count
    exact (Nat.eq_sub_of_add_eq count).symm

theorem Inv.unqueue_unqueued (inv : Inv s) (here : s.defers[i]? = some d) (used : d.used) :
    (s.unqueue i d).Unqueued d.conn := by
  intro j d' there used' same
  obtain ⟨different, there⟩ := unqueue_used there used'
  exact different (inv.apart j i d' d there here used' used same)

theorem deferDrop_induct (holds : State → Prop) (slot : Nat) (start : holds s)
    (each : ∀ t (i : Nat) d, holds t → t.defers[i]? = some d → d.used → d.conn = slot →
      holds (t.unqueue i d)) : holds (deferDrop slot s) := by
  unfold deferDrop
  generalize List.range s.defers.length = entries
  induction entries generalizing s with
  | nil => exact start
  | cons i entries ih =>
      rw [List.foldl_cons]
      apply ih
      rcases dropAt_cases slot s i with ⟨same, _⟩ | ⟨d, here, used, mine, dropped⟩
      · rw [same]
        exact start
      · rw [dropped]
        exact each s i d start here used mine

theorem foldl_dropAt (slot : Nat) (s : State) (k : Nat) :
    ((List.range k).foldl (dropAt slot) s).defers.length = s.defers.length ∧
      ∀ (j : Nat) d, j < k → ((List.range k).foldl (dropAt slot) s).defers[j]? = some d →
        d.used → d.conn ≠ slot := by
  induction k with
  | zero => exact ⟨rfl, nofun⟩
  | succ k ih =>
      obtain ⟨length, before⟩ := ih
      rw [List.range_succ, List.foldl_append, List.foldl_cons, List.foldl_nil]
      generalize (List.range k).foldl (dropAt slot) s = t at length before
      rcases dropAt_cases slot t k with ⟨same, other⟩ | ⟨d, here, _, _, dropped⟩
      · rw [same]
        refine ⟨length, fun j d below there used => ?_⟩
        rcases Nat.lt_succ_iff_lt_or_eq.mp below with earlier | rfl
        · exact before j d earlier there used
        · exact other d there used
      · rw [dropped]
        refine ⟨(List.length_set ..).trans length, fun j d' below there used => ?_⟩
        obtain ⟨different, there⟩ := unqueue_used there used
        exact before j d' (Nat.lt_of_le_of_ne (Nat.le_of_lt_succ below) different) there used

theorem deferDrop_unqueued (slot : Nat) (s : State) : (deferDrop slot s).Unqueued slot := by
  obtain ⟨length, all⟩ := foldl_dropAt slot s s.defers.length
  intro i d there
  have inside := (List.getElem?_eq_some_iff.mp there).1
  exact all i d (length ▸ inside) there

theorem deferDrop_frame (slot : Nat) (s : State) :
    (deferDrop slot s).conns = s.conns ∧ (deferDrop slot s).lives = s.lives ∧
      (deferDrop slot s).torn = s.torn :=
  deferDrop_induct (fun t => t.conns = s.conns ∧ t.lives = s.lives ∧ t.torn = s.torn) slot
    ⟨rfl, rfl, rfl⟩ fun _ _ _ same _ _ _ => same

inductive Quieted (slot : Nat) (s : State) : State → Prop
  | grown (more : Nat) (free : s.Unqueued slot) : Quieted slot s (s.grow more)
  | dropped : Quieted slot s (deferDrop slot s)

theorem Quieted.same (free : s.Unqueued slot) : Quieted slot s s := by
  have grown := Quieted.grown 0 free
  rwa [State.grow, List.replicate_zero, List.append_nil] at grown

variable {t : State}

theorem Quieted.unqueued (quieted : Quieted slot s t) : t.Unqueued slot := by
  cases quieted with
  | grown more free => exact fun j d there used => free j d (grow_used there used) used
  | dropped => exact deferDrop_unqueued slot s

theorem Quieted.frame (quieted : Quieted slot s t) :
    t.conns = s.conns ∧ t.lives = s.lives ∧ t.torn = s.torn := by
  cases quieted with
  | grown more free => exact ⟨rfl, rfl, rfl⟩
  | dropped => exact deferDrop_frame slot s

theorem Inv.alive (inv : Inv s) (here : s.conns[slot]? = some (some c)) : s.arena = true := by
  cases arena : s.arena with
  | true => rfl
  | false =>
      rw [(inv.empty arena).1] at here
      cases here

theorem Inv.quieted (inv : Inv s) (here : s.conns[slot]? = some (some c))
    (quieted : Quieted slot s t) : Inv t := by
  cases quieted with
  | grown more free => exact inv.grow (inv.alive here) more
  | dropped => exact deferDrop_induct Inv slot inv fun _ _ _ inv here used _ => inv.unqueue here used

/-- The slot and the connection of a coroutine that is about to start a step. -/
def State.turn (number : Nat) (s : State) : Option (Nat × Conn) :=
  match s.lives[number]? with
  | none => none
  | some life =>
      if life.pc = .ready then (connAt life.slot s).map fun c => (life.slot, c) else none

/-- The connection and the path of the header that a step builds with the declared type. -/
def headed (number : Nat) (answers : Answers) (s : State) : Option (Conn × Bytes) :=
  match s.turn number with
  | none => none
  | some (_, c) =>
      if c.step = 0 then
        match receive s.arena s.routes answers c with
        | .answer c path => some (c, path)
        | _ => none
      else if c.step = 3 ∧ c.deferReady then some (c, [])
      else none

def parks (number : Nat) (answers : Answers) (s : State) : Bool :=
  match s.turn number with
  | none => false
  | some (slot, c) =>
      if c.step = 0 then
        match receive s.arena s.routes answers c with
        | .park c path => (deferEnqueue slot path answers.grown c.id s).1
        | _ => false
      else c.step = 3 ∧ c.deferReady = false ∧ c.deferWaits < deferMaxWaits

structure At (number : Nat) (s : State) (life : Life) (c : Conn) : Prop where
  live : s.lives[number]? = some life
  going : ∀ status, life.pc ≠ .ended status
  row : s.conns[life.slot]? = some (some c)

theorem At.turn (at_ : At number s life c) (ready : life.pc = .ready) :
    s.turn number = some (life.slot, c) := by
  rw [State.turn, at_.live]
  dsimp only
  rw [if_pos ready, connAt_some.mpr at_.row]
  rfl

inductive Stepped (number : Nat) (answers : Answers) (s : State) : State → Prop
  | idle : Stepped number answers s s
  /-- The row was handed back by `deinit`. -/
  | lost {life : Life} (at_ : s.lives[number]? = some life)
      (going : ∀ status, life.pc ≠ .ended status) (absent : connAt life.slot s = none) :
      Stepped number answers s (s.goto number (.ended .error))
  | settles {life : Life} {c was : Conn} {t : State} (at_ : At number s life c)
      (quieted : Quieted life.slot s t) (steady : Steady was) (same : was.id = c.id)
      (kept : was.answer = c.answer ∨ was.deferReady = c.deferReady ∧
        (c.deferReady = false ∨ life.pc = .givingUp))
      {outcome : Outcome} (proper : outcome.Proper was) :
      Stepped number answers s (settle number life.slot t outcome)
  /-- The header does not fit. -/
  | tears {c : Conn} {path : Bytes} (built : headed number answers s = some (c, path))
      (long : ¬ (c.header path).length ≤ hdrMax) : Stepped number answers s { s with torn := true }
  /-- The renderer has not answered. -/
  | waits {life : Life} {c : Conn} (at_ : At number s life c) (ready : life.pc = .ready)
      (step : c.step = 3) (unready : c.deferReady = false) {pc : Pc}
      (pc_eq : pc = answers.sleep.pc ∧ parks number answers s ∨ pc = .givingUp) :
      Stepped number answers s
        ((s.put life.slot { c with deferWaits := c.deferWaits + 1 }).goto number pc)
  /-- The request is queued. -/
  | asks {life : Life} {c now : Conn} (at_ : At number s life c) (ready : life.pc = .ready)
      (step : c.step = 0) (parking : parks number answers s)
      (accounts : now.accounts = c.accounts) (parked : now.step = 3)
      (asking : Asking now) (unready : now.deferReady = false) (path : Bytes) (more : Nat)
      {i : Nat} {d : Defer} (empty : (s.grow more).defers[i]? = some d) (unused : d.used = false) :
      Stepped number answers s
        ((((s.grow more).put life.slot now).goto number answers.sleep.pc).queue life.slot path
          now.id i)

theorem Inv.own_at (inv : Inv s) (at_ : At number s life c) : c.id = number ∧ life.last = none :=
  inv.own at_.live at_.going at_.row

theorem Asking.prepared (asking : Asking c) : Prepared c :=
  { asking.toBlank with readable := fun _ _ => asking.whole }

section Inv

variable (inv : Inv s) (answers : Answers) (at_ : At number s life c)
include inv answers at_

theorem stepReceive_stepped (ready : life.pc = .ready) (step : c.step = 0) :
    Stepped number answers s (stepReceive number life.slot answers c s) := by
  have free := inv.unqueued at_.row (by rw [step]; exact nofun)
  obtain ⟨steady, sound, _⟩ := inv.row _ _ at_.row
  cases sound with
  | waiting waits => cases step.symm.trans waits
  | heading heads => cases step.symm.trans heads
  | plain sends => cases step.symm.trans sends
  | streaming sends => cases step.symm.trans sends
  | receiving _ asking unheld unready =>
      have proper := receive_proper s.arena s.routes answers step asking unheld unready
      unfold stepReceive
      split
      · rename_i outcome found
        rw [found] at proper
        exact .settles at_ (.same free) steady rfl (.inl rfl) proper
      · rename_i c' path found
        rw [found] at proper
        have prepared : Ready c c' := proper
        by_cases fits : (c'.header path).length ≤ hdrMax
        · exact .settles at_ (.same free) (prepared.steady steady) prepared.same
            (.inr ⟨prepared.kept, .inl unready⟩) (respond_proper answers prepared.prepared fits)
        · rw [respond_torn answers fits]
          refine .tears ?_ fits
          rw [headed, at_.turn ready]
          dsimp only
          rw [if_pos step, found]
      · rename_i c' path found
        rw [found] at proper
        obtain ⟨asking', unready', accounts⟩ := proper
        rcases deferEnqueue_cases life.slot path answers.grown c'.id s with
          ⟨more, full⟩ | ⟨more, i, d, empty, unused, queued⟩
        · rw [full]
          exact .settles at_ (.grown more free) (steady.same (c := c'.refuse) accounts)
            (Conn.id_same accounts) (.inr ⟨unready'.trans unready.symm, .inl unready⟩)
            (respond_proper answers (refuse_prepared asking'.toBlank) (refuse_fits c' path))
        · rw [queued]
          have parked : Asking { c' with step := 3 } := { asking' with }
          have same : Conn.accounts { c' with step := 3 } = c.accounts := accounts
          have parking : parks number answers s := by
            rw [parks, at_.turn ready]
            dsimp only
            rw [if_pos step, found]
            dsimp only
            rw [queued]
          exact .asks at_ ready step parking same rfl parked unready' path more empty unused

theorem stepWait_stepped (ready : life.pc = .ready) (step : c.step = 3) :
    Stepped number answers s (stepWait number life.slot answers c s) := by
  obtain ⟨steady, sound, _⟩ := inv.row _ _ at_.row
  cases sound with
  | receiving receives => cases step.symm.trans receives
  | heading heads => cases step.symm.trans heads
  | plain sends => cases step.symm.trans sends
  | streaming sends => cases step.symm.trans sends
  | waiting _ asking _ =>
      unfold stepWait
      split
      · rename_i answered
        by_cases fits : (c.header []).length ≤ hdrMax
        · exact .settles at_ (.same (inv.unqueued at_.row fun _ => answered)) steady rfl (.inl rfl)
            (respond_proper answers asking.prepared fits)
        · rw [respond_torn answers fits]
          refine .tears ?_ fits
          rw [headed, at_.turn ready]
          dsimp only
          rw [if_neg (by rw [step]; decide), if_pos ⟨step, answered⟩]
      · rename_i unready
        rw [Bool.not_eq_true] at unready
        dsimp only
        split
        · rename_i more
          have parking : parks number answers s := by
            rw [parks, at_.turn ready]
            dsimp only
            rw [if_neg (by rw [step]; decide)]
            exact decide_eq_true ⟨step, unready, more⟩
          exact .waits at_ ready step unready (.inl ⟨rfl, parking⟩)
        · exact .waits at_ ready step unready (.inr rfl)

theorem giveUp_stepped (giving : life.pc = .givingUp) :
    Stepped number answers s (giveUp number life.slot answers c s) := by
  obtain ⟨steady, sound, _⟩ := inv.row _ _ at_.row
  have step := inv.giving number life at_.live giving c at_.row
  have asking : Asking c := by
    cases sound with
    | receiving _ asking => exact asking
    | waiting _ asking => exact asking
    | heading heads => cases step.symm.trans heads
    | plain sends => cases step.symm.trans sends
    | streaming sends => cases step.symm.trans sends
  exact .settles at_ .dropped (steady.same (c := c.refuse) rfl) rfl (.inr ⟨rfl, .inr giving⟩)
    (respond_proper answers (refuse_prepared asking.toBlank) (refuse_fits c []))

end Inv

theorem stepConnFrame_stepped (inv : Inv s) (number : Nat) (answers : Answers) :
    Stepped number answers s (stepConnFrame number answers s) := by
  unfold stepConnFrame
  split
  · exact .idle
  · rename_i life at_
    split
    · exact .idle
    · rename_i ready
      have going (status : Status) : life.pc ≠ .ended status := by
        rw [ready]
        exact nofun
      split
      · rename_i absent
        exact .lost at_ going absent
      · rename_i c row
        have at_ : At number s life c := ⟨at_, going, connAt_some.mp row⟩
        split
        · rename_i step
          exact stepReceive_stepped inv answers at_ ready step
        · rename_i asked
          split
          · rename_i step
            exact stepWait_stepped inv answers at_ ready step
          · rename_i answered
            obtain ⟨steady, sound, _⟩ := inv.row _ _ at_.row
            exact .settles at_ (.same (inv.unqueued at_.row fun step => absurd step answered))
              steady rfl (.inl rfl) (sendHdr_proper answers sound asked answered)
    · rename_i giving
      have going (status : Status) : life.pc ≠ .ended status := by
        rw [giving]
        exact nofun
      split
      · rename_i absent
        exact .lost at_ going absent
      · rename_i c row
        exact giveUp_stepped inv answers ⟨at_, going, connAt_some.mp row⟩ giving

theorem Inv.settle (inv : Inv s) (at_ : At number s life c) (free : s.Unqueued life.slot)
    {was : Conn} (steady : Steady was) (same : was.id = c.id) {outcome : Outcome}
    (proper : outcome.Proper was) : Inv (settle number life.slot s outcome) := by
  obtain ⟨mine, open_⟩ := inv.own_at at_
  cases outcome with
  | stays status now =>
      obtain ⟨rfl, kept, _, sound⟩ := proper
      have accounts := kept.accounts
      have moved : Inv (s.goto number .ready) := inv.goto at_.live nofun (.inl open_) nofun
      refine moved.put at_.row ((Conn.id_same accounts).trans same) (steady.same accounts) sound
        (.inr free) fun life' there giving => ?_
      rw [mine] at there
      rcases goto_cases at_.live there with ⟨_, rfl⟩ | ⟨different, _⟩
      · cases giving
      · exact absurd rfl different
  | closes status now =>
      obtain ⟨kept, closing⟩ := proper
      have accounts := kept.accounts
      have id_ : now.id = number := ((Conn.id_same accounts).trans same).trans mine
      have pc : status.pc = .ended status := by
        cases status with
        | waiting => exact absurd rfl closing.over_
        | done => rfl
        | error => rfl
      have closed := inv.close at_.row ((Conn.id_same accounts).trans same)
        (steady.same accounts) closing free
      rw [id_, ← pc] at closed
      exact closed
  | torn => cases proper

theorem Inv.parked (inv : Inv s) (at_ : At number s life c) (same : now.accounts = c.accounts)
    (waits : now.step = 3) (asking : Asking now) (unheld : now.takes = 0)
    (unready : now.deferReady = false) {pc : Pc} (notDone : pc ≠ .ended .done) :
    Inv ((s.put life.slot now).goto number pc) := by
  obtain ⟨_, open_⟩ := inv.own_at at_
  have put := inv.put at_.row (Conn.id_same same) ((inv.row _ _ at_.row).1.same same)
    (.waiting waits asking fun _ => unheld) (.inl ⟨waits, unready⟩) fun _ _ _ => waits
  refine put.goto at_.live notDone (.inl open_) fun _ c' row => ?_
  rcases set_cases row with ⟨_, found⟩ | ⟨different, _⟩
  · cases found
    exact waits
  · exact absurd rfl different

theorem sleep_pc (answers : Answers) : answers.sleep.pc ≠ .ended .done := by
  unfold Answers.sleep
  split <;> exact nofun

theorem Inv.unheld (inv : Inv s) (here : s.conns[slot]? = some (some c))
    (waits : c.step = 0 ∨ c.step = 3 ∧ c.deferReady = false) :
    Asking c ∧ c.takes = 0 := by
  obtain ⟨_, sound, _⟩ := inv.row _ _ here
  cases sound with
  | receiving _ asking unheld => exact ⟨asking, unheld⟩
  | waiting step asking unheld =>
      rcases waits with receives | ⟨_, unready⟩
      · cases step.symm.trans receives
      · exact ⟨asking, unheld unready⟩
  | heading heads => rcases waits with step | ⟨step, _⟩ <;> cases step.symm.trans heads
  | plain sends
  | streaming sends => rcases waits with step | ⟨step, _⟩ <;> cases step.symm.trans sends

theorem Inv.stepped (inv : Inv s) {answers : Answers} (stepped : Stepped number answers s t) :
    Inv t := by
  cases stepped with
  | idle => exact inv
  | lost at_ => exact inv.goto at_ nofun (.inr (.inl ⟨.error, rfl⟩)) nofun
  | settles at_ quieted steady same _ proper =>
      obtain ⟨conns, lives, _⟩ := quieted.frame
      exact (inv.quieted at_.row quieted).settle ⟨lives ▸ at_.live, at_.going, conns ▸ at_.row⟩
        quieted.unqueued steady same proper
  | tears => exact { inv with }
  | @waits _ c at_ _ step unready _ pc_eq =>
      obtain ⟨asking, unheld⟩ := inv.unheld at_.row (.inr ⟨step, unready⟩)
      have asking' : Asking { c with deferWaits := c.deferWaits + 1 } := { asking with }
      have same : Conn.accounts { c with deferWaits := c.deferWaits + 1 } = c.accounts := rfl
      refine inv.parked at_ same step asking' unheld unready ?_
      rcases pc_eq with ⟨rfl, _⟩ | rfl
      · exact sleep_pc answers
      · exact nofun
  | asks at_ _ step _ accounts parked asking unready path more empty unused =>
      have free := inv.unqueued at_.row (by rw [step]; exact nofun)
      have takes := congrArg (fun all => all.2.2.2.2.1) accounts
      have unheld := takes.trans (inv.unheld at_.row (.inl step)).2
      have grown := inv.grow (inv.alive at_.row) more
      have moved := grown.parked ⟨at_.live, at_.going, at_.row⟩ accounts parked asking unheld
        unready (sleep_pc answers)
      exact moved.queue empty unused (set_here at_.row _) parked unready
        (fun j d there used => free j d (grow_used there used) used) path

theorem Inv.deferNext (inv : Inv s) : Inv (deferNext s).1 := by
  rcases deferNext_cases s with same | ⟨i, d, here, used, _, taken⟩
  · rw [same]
    exact inv
  · rw [taken]
    have was {j : Nat} {d' : Defer} (there : (s.defers.set i { d with taken := true })[j]? = some d')
        (used' : d'.used) : ∃ d'', s.defers[j]? = some d'' ∧ d''.used ∧ d''.conn = d'.conn ∧
          d''.by_ = d'.by_ := by
      rcases set_cases there with ⟨rfl, rfl⟩ | ⟨_, there⟩
      · exact ⟨d, here, used, rfl, rfl⟩
      · exact ⟨d', there, used', rfl, rfl⟩
    exact {
      row := inv.row
      life := inv.life
      done := inv.done
      gone := inv.gone
      giving := inv.giving
      empty := fun over_ => by
        rw [(inv.empty over_).2] at here
        cases here
      used := inv.used
      link := fun j d' there used' => by
        obtain ⟨d'', old, used'', conn, by_⟩ := was there used'
        rw [← conn, ← by_]
        exact inv.link j d'' old used''
      apart := fun j k d' e' first second used' used'' same => by
        obtain ⟨d'', old, usedOld, conn, _⟩ := was first used'
        obtain ⟨e'', old', usedOld', conn', _⟩ := was second used''
        exact inv.apart j k d'' e'' old old' usedOld usedOld' (by rw [conn, conn', same])
      cur := fun j current => by
        cases current
        exact ⟨_, set_here here _, used, rfl⟩
      queued := by
        have count := countP_set_add Defer.used here { d with taken := true }
        exact inv.queued.trans (Nat.add_right_cancel count).symm }

theorem Given.body_le {given : Given} (fits : given.fits) : given.body.length ≤ bodyMax := by
  cases given with
  | bytes block => exact of_decide_eq_true fits
  | null len => exact Nat.zero_le _

theorem answered_id (body : Bytes) (ctype : Option CString) (c : Conn) :
    (c.answered body ctype).id = c.id := by
  unfold Conn.answered
  dsimp only
  split <;> rfl

theorem answered_steady (steady : Steady c) (unheld : c.takes = 0) (body : Bytes)
    (ctype : Option CString) : Steady (c.answered body ctype) := by
  unfold Conn.answered
  dsimp only
  split
  · exact { steady with }
  · have balanced := steady.balanced
    refine ⟨steady.open_, steady.closes, ?_, ?_⟩
    · change c.takes + 1 ≤ 1
      omega
    · change c.frees + 1 = c.takes + 1
      omega

theorem answered_sound (step : c.step = 3) (asking : Asking c) {body : Bytes}
    (short : body.length ≤ bodyMax) (ctype : Option CString) : Sound (c.answered body ctype) := by
  have small : body.length < 2 ^ 32 := Nat.lt_of_le_of_lt short (by decide)
  unfold Conn.answered
  dsimp only
  split
  · rename_i empty
    refine .waiting step { asking with small := small, whole := ?_ } nofun
    rw [List.isEmpty_iff.mp empty]
    exact Nat.zero_le _
  · exact .waiting step { asking with small := small, whole := Nat.le_refl _ } nofun

theorem Inv.deferReply (inv : Inv s) (given : Given) (ctype : Option CString) (room : Bool) :
    Inv (deferReply given ctype room s).1 := by
  rcases deferReply_cases given ctype room s with
    same | ⟨cur, d, c, _, here, row, used, fits, replied⟩
  · rw [same]
    exact inv
  · rw [replied]
    obtain ⟨c', row', _, step, unready⟩ := inv.link cur d here used
    rw [row] at row'
    cases row'
    obtain ⟨asking, unheld⟩ := inv.unheld row (.inr ⟨step, unready⟩)
    have now := (inv.unqueue here used).put row (answered_id given.body ctype c)
      (answered_steady (inv.row _ _ row).1 unheld given.body ctype)
      (answered_sound step asking (Given.body_le fits) ctype)
      (.inr (inv.unqueue_unqueued here used)) fun _ _ _ => by
        unfold Conn.answered
        dsimp only
        split <;> exact step
    exact { now with }

end Metal.Net.Asgi
