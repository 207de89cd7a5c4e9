import Metal.Net.Asgi.ServerRun
import Mathlib.Data.List.Nodup

namespace Metal.Net.Asgi

open Metal.Lib

/-! Requests that a renderer answers: each is handed out and answered once, and the answer
goes to the connection that asked and waits. -/

variable {s : State} {number slot : Nat}

structure Book (s : State) : Prop where
  entry : ∀ (i : Nat) d, s.defers[i]? = some d → d.used →
    s.asked[d.req]? = some ⟨d.by_, d.path⟩ ∧ (d.req ∈ s.handed ↔ d.taken)
  single : ∀ (i j : Nat) d d', s.defers[i]? = some d → s.defers[j]? = some d' →
    d.used → d'.used → d.req = d'.req → i = j
  handed : ∀ r ∈ s.handed, r < s.asked.length
  once : s.handed.Nodup
  last : ∀ (i : Nat) d, s.deferCur = some i → s.defers[i]? = some d → d.used →
    s.handed.getLast? = some d.req
  pending : ∀ (i : Nat) d, s.defers[i]? = some d → d.used → some d.req ∉ s.replies.map Reply.last
  replied : ∀ reply ∈ s.replies, reply.waiting = true ∧ ∃ r request,
    reply.last = some r ∧ s.asked[r]? = some request ∧ request.conn = reply.to_
  answered : (s.replies.map Reply.last).Nodup

theorem book_boot (routes : List Route) : Book (State.boot routes) where
  entry _ _ here := by cases here
  single _ _ _ _ here := by cases here
  handed _ member := by cases member
  once := List.nodup_nil
  last _ _ here := by cases here
  pending _ _ here := by cases here
  replied _ member := by cases member
  answered := List.nodup_nil

theorem Book.grow (book : Book s) (more : Nat) : Book (s.grow more) :=
  { book with
    entry := fun i d there used => book.entry i d (grow_used there used) used
    single := fun i j d d' here there used used' =>
      book.single i j d d' (grow_used here used) (grow_used there used') used used'
    last := fun i d current there used => book.last i d current (grow_used there used) used
    pending := fun i d there used => book.pending i d (grow_used there used) used }

theorem Book.queue (book : Book s)
    (cur : ∀ i, s.deferCur = some i → ∃ d, s.defers[i]? = some d ∧ d.used ∧ d.taken)
    {i : Nat} {d : Defer} (empty : s.defers[i]? = some d) (unused : d.used = false)
    (path : Bytes) (id : Nat) : Book (s.queue slot path id i) := by
  have older {r : Nat} {request : Request} (there : s.asked[r]? = some request) :
      (s.asked ++ [⟨id, path.take (pathMax - 1)⟩])[r]? = some request := by
    rw [List.getElem?_append_left (List.getElem?_eq_some_iff.mp there).1, there]
  have asked {j : Nat} {d' : Defer} (there : s.defers[j]? = some d') (used : d'.used) :
      d'.req < s.asked.length :=
    (List.getElem?_eq_some_iff.mp (book.entry j d' there used).1).1
  exact {
    entry := fun j d' there used => by
      rcases set_cases there with ⟨_, rfl⟩ | ⟨_, there⟩
      · refine ⟨List.getElem?_concat_length, fun member => ?_, nofun⟩
        exact absurd (book.handed _ member) (Nat.lt_irrefl _)
      · obtain ⟨request, taken⟩ := book.entry j d' there used
        exact ⟨older request, taken⟩
    single := fun j k d' d'' first second used used' same => by
      rcases set_cases first with ⟨rfl, rfl⟩ | ⟨_, was⟩
      · rcases set_cases second with ⟨rfl, rfl⟩ | ⟨_, was'⟩
        · rfl
        · exact absurd (same ▸ asked was' used') (Nat.lt_irrefl _)
      · rcases set_cases second with ⟨rfl, rfl⟩ | ⟨_, was'⟩
        · exact absurd (same ▸ asked was used) (Nat.lt_irrefl _)
        · exact book.single j k d' d'' was was' used used' same
    handed := fun r member => by
      rw [State.queue, List.length_append]
      exact Nat.lt_add_right _ (book.handed r member)
    once := book.once
    last := fun j d' current there used => by
      rcases set_cases there with ⟨rfl, _⟩ | ⟨_, there⟩
      · obtain ⟨d'', here, used', _⟩ := cur j current
        rw [empty] at here
        cases here
        rw [unused] at used'
        cases used'
      · exact book.last j d' current there used
    pending := fun j d' there used member => by
      rcases set_cases there with ⟨_, rfl⟩ | ⟨_, there⟩
      · obtain ⟨reply, among, same⟩ := List.mem_map.mp member
        obtain ⟨_, r, request, this, there, _⟩ := book.replied reply among
        rw [same] at this
        cases this
        exact absurd (List.getElem?_eq_some_iff.mp there).1 (Nat.lt_irrefl _)
      · exact book.pending j d' there used member
    replied := fun reply member => by
      obtain ⟨waiting, r, request, this, there, mine⟩ := book.replied reply member
      exact ⟨waiting, r, request, this, older there, mine⟩
    answered := book.answered }

theorem Book.unqueue (book : Book s) (i : Nat) (d : Defer) : Book (s.unqueue i d) :=
  { book with
    entry := fun j d' there used => book.entry j d' (unqueue_used there used).2 used
    single := fun j k d' d'' first second used used' =>
      book.single j k d' d'' (unqueue_used first used).2 (unqueue_used second used').2 used used'
    last := fun j d' current there used => by
      refine book.last j d' ?_ (unqueue_used there used).2 used
      rw [State.unqueue] at current
      dsimp only at current
      split at current
      · cases current
      · exact current
    pending := fun j d' there used => book.pending j d' (unqueue_used there used).2 used }

variable {t : State}

theorem Book.quieted (book : Book s) (quieted : Quieted slot s t) : Book t := by
  cases quieted with
  | grown more free => exact book.grow more
  | dropped => exact deferDrop_induct Book slot book fun _ i d book _ _ _ => book.unqueue i d

variable {answers : Answers}

theorem Book.stepped (book : Book s) (inv : Inv s) (stepped : Stepped number answers s t) :
    Book t := by
  cases stepped with
  | idle => exact book
  | lost => exact { book with }
  | settles _ quieted _ _ _ _ =>
      rename_i outcome _
      have before := book.quieted quieted
      cases outcome with
      | stays | closes | torn => exact { before with }
  | tears => exact { book with }
  | waits => exact { book with }
  | @asks life c now at_ ready step parking accounts parked asking unready path more i d empty
      unused =>
      have grown := book.grow more
      have moved : Book (((s.grow more).put life.slot now).goto number answers.sleep.pc) :=
        { grown with }
      exact moved.queue (inv.grow (inv.alive at_.row) more).cur empty unused path now.id

theorem Book.deferNext (book : Book s) : Book (deferNext s).1 := by
  rcases deferNext_cases s with same | ⟨i, d, here, used, untaken, taken⟩
  · rw [same]
    exact book
  · rw [taken]
    obtain ⟨request, handed⟩ := book.entry i d here used
    have fresh : d.req ∉ s.handed := fun member => by
      cases untaken.symm.trans (handed.mp member)
    have was {j : Nat} {d' : Defer} (there : (s.defers.set i { d with taken := true })[j]? = some d')
        (used' : d'.used) : ∃ d'', s.defers[j]? = some d'' ∧ d''.used ∧ d''.req = d'.req := by
      rcases set_cases there with ⟨rfl, rfl⟩ | ⟨_, there⟩
      · exact ⟨d, here, used, rfl⟩
      · exact ⟨d', there, used', rfl⟩
    exact {
      entry := fun j d' there used' => by
        rcases set_cases there with ⟨_, rfl⟩ | ⟨different, there⟩
        · exact ⟨request, fun _ => rfl, fun _ => List.mem_append_right _ (List.mem_singleton_self _)⟩
        · obtain ⟨request', handed'⟩ := book.entry j d' there used'
          refine ⟨request', fun member => ?_, fun taken => ?_⟩
          · rcases List.mem_append.mp member with member | new
            · exact handed'.mp member
            · exact absurd (book.single j i d' d there here used' used
                (List.mem_singleton.mp new)) different
          · exact List.mem_append_left _ (handed'.mpr taken)
      single := fun j k d' e' first second used' used'' same => by
        obtain ⟨d'', old, usedOld, req⟩ := was first used'
        obtain ⟨e'', old', usedOld', req'⟩ := was second used''
        exact book.single j k d'' e'' old old' usedOld usedOld' (by rw [req, req', same])
      handed := fun r member => by
        rcases List.mem_append.mp member with member | new
        · exact book.handed r member
        · rw [List.mem_singleton.mp new]
          exact (List.getElem?_eq_some_iff.mp request).1
      once := List.concat_eq_append ▸ book.once.concat fresh
      last := fun j d' current there used' => by
        cases current
        rw [set_here here] at there
        cases there
        exact List.getLast?_concat
      pending := fun j d' there used' => by
        obtain ⟨d'', old, usedOld, req⟩ := was there used'
        exact req ▸ book.pending j d'' old usedOld
      replied := book.replied
      answered := book.answered }

variable {life : Life} {c : Conn}

theorem waits_of (at_ : s.lives[c.id]? = some life) (ready : life.pc = .ready) (step : c.step = 3)
    (unready : c.deferReady = false) : s.waits c = true := by
  rw [State.waits, step, unready, at_, Option.map_some, ready]
  rfl

theorem Book.deferReply (book : Book s) (inv : Inv s) (ended : Ended s) (given : Given)
    (ctype : Option CString) (room : Bool)
    (outside : ∀ cur ∈ s.deferCur, ∀ d ∈ s.defers[cur]?, ∀ life ∈ s.lives[d.by_]?,
      life.pc ≠ .givingUp) : Book (deferReply given ctype room s).1 := by
  rcases deferReply_cases given ctype room s with
    same | ⟨cur, d, c, current, here, row, used, _, replied⟩
  · rw [same]
    exact book
  · rw [replied]
    obtain ⟨c', row', mine, step, unready⟩ := inv.link cur d here used
    rw [row] at row'
    cases row'
    obtain ⟨_, _, life, at_, _, open_⟩ := inv.row d.conn c row
    have waits : s.waits c = true := by
      refine waits_of at_ ?_ step unready
      cases pc : life.pc with
      | ready => rfl
      | givingUp => exact absurd pc (outside cur current d here life (mine ▸ at_))
      | ended status => exact absurd open_ (ended c.id life at_ status pc)
    have last := book.last cur d current here used
    obtain ⟨request, _⟩ := book.entry cur d here used
    have before := book.unqueue cur d
    exact { before with
      pending := fun j d' there used' member => by
        obtain ⟨different, old⟩ := unqueue_used there used'
        rw [List.map_append, List.mem_append] at member
        rcases member with member | new
        · exact before.pending j d' there used' member
        · rw [last] at new
          exact different (book.single j cur d' d old here used' used
            (Option.some.inj (List.mem_singleton.mp new)))
      replied := fun reply member => by
        rcases List.mem_append.mp member with member | new
        · exact book.replied reply member
        · rw [List.mem_singleton.mp new]
          exact ⟨waits, d.req, _, last, request, mine.symm⟩
      answered := by
        rw [List.map_append, List.map_cons, List.map_nil, last]
        exact List.concat_eq_append ▸ book.answered.concat (book.pending cur d here used) }

theorem foldl_closeRow_book (book : Book s) (slots : List Nat) :
    Book (slots.foldl closeRow s) := by
  induction slots generalizing s with
  | nil => exact book
  | cons slot slots ih =>
      apply ih
      unfold closeRow
      split
      · exact book
      · exact { book with }

theorem Book.deinit (book : Book s) : Book (deinit s) :=
  { foldl_closeRow_book book (List.range s.conns.length) with
    entry := nofun
    single := nofun
    last := nofun
    pending := nofun }

theorem Book.spawnConn (book : Book s) (fd : Nat) (answers : Spawn) :
    Book (spawnConn fd answers s) := by
  unfold Asgi.spawnConn
  dsimp only
  rcases connSlot_cases answers s with none_ | ⟨_, more, none_ | ⟨slot, _, found⟩⟩
  · rw [none_]
    exact { book with }
  · rw [none_]
    exact { book with }
  · rw [found]
    dsimp only
    split
    · exact { book with }
    · exact { book with }

def Conn.held (c : Conn) : Option (Bytes × Nat × Bool × Bool) :=
  if c.deferReady then some c.answer else none

def State.held (s : State) (number : Nat) : Option (Bytes × Nat × Bool × Bool) :=
  (s.conn number).bind Conn.held

theorem Conn.held_same {was : Conn} (same : c.answer = was.answer) : c.held = was.held := by
  have ready : c.deferReady = was.deferReady := congrArg (fun all => all.2.2.1) same
  rw [Conn.held, Conn.held, ready, same]

theorem Conn.held_unready (unready : c.deferReady = false) : c.held = none := by
  rw [Conn.held, unready]
  rfl

theorem goto_conn (number : Nat) (pc : Pc) : (s.goto number pc).conn = s.conn := by
  funext number'
  unfold State.conn State.goto
  dsimp only
  rw [List.getElem?_modify]
  cases s.lives[number']? with
  | none => rfl
  | some life =>
      rw [Option.map_eq_map, Option.map_some]
      by_cases same : number = number'
      · rw [if_pos same]
        rfl
      · rw [if_neg same]
        rfl

theorem Rows.conn_row (rows : Rows s) (here : s.conns[slot]? = some (some c)) :
    s.conn c.id = some c := by
  obtain ⟨_, _, life, at_, mine, open_⟩ := rows.row slot c here
  rw [State.conn, at_]
  dsimp only
  rw [open_, mine, connAt_some.mpr here]
  rfl

variable {now : Conn}

section Rows

variable (rows : Rows s) (here : s.conns[slot]? = some (some c))
include rows here

theorem Rows.put_conn (number : Nat) :
    (s.put slot now).conn number = if number = c.id then some now else s.conn number := by
  obtain ⟨_, _, life, at_, mine, open_⟩ := rows.row slot c here
  have moved := set_here here (some now)
  split
  · rename_i same
    rw [State.conn, State.put, same, at_]
    dsimp only
    rw [open_, mine, connAt_some.mpr moved]
    rfl
  · rename_i different
    unfold State.conn
    cases there : s.lives[number]? with
    | none =>
        rw [State.put, there]
    | some life' =>
        rw [State.put, there]
        dsimp only
        rcases rows.life number life' there with ⟨_, c', row, theirs⟩ | ⟨c', closed, _⟩
        · have apart : life'.slot ≠ slot := by
            intro same
            rw [same, here] at row
            cases row
            exact different theirs.symm
          rw [connAt, connAt, set_there apart]
        · rw [closed]
          rfl

theorem Rows.close_conn (same : now.id = c.id) (number : Nat) :
    (s.close slot now).conn number = if number = c.id then some now.release else s.conn number := by
  obtain ⟨_, _, life, at_, mine, open_⟩ := rows.row slot c here
  rw [← same] at at_
  rw [State.close, modify_eq_set_of at_]
  by_cases this : number = c.id
  · rw [if_pos this, State.conn, this, ← same, set_here at_]
    rfl
  · rw [if_neg this]
    unfold State.conn
    dsimp only
    rw [set_there (same ▸ this)]
    cases there : s.lives[number]? with
    | none => rfl
    | some life' =>
        dsimp only
        rcases rows.life number life' there with ⟨_, c', row, theirs⟩ | ⟨c', closed, _⟩
        · have apart : life'.slot ≠ slot := by
            intro taken
            rw [taken, here] at row
            cases row
            exact this theirs.symm
          rw [connAt, connAt, set_there apart]
        · rw [closed]
          rfl

theorem Rows.put_held (same : now.held = c.held) : (s.put slot now).held = s.held := by
  funext number
  rw [State.held, State.held, rows.put_conn here]
  split
  · rename_i this
    rw [this, rows.conn_row here]
    exact same
  · rfl

theorem Rows.close_held
    (same : now.id = c.id) (held : now.held = c.held) : (s.close slot now).held = s.held := by
  funext number
  rw [State.held, State.held, rows.close_conn here same]
  split
  · rename_i this
    rw [this, rows.conn_row here]
    exact held
  · rfl

end Rows

theorem goto_held (number : Nat) (pc : Pc) : (s.goto number pc).held = s.held := by
  funext number'
  rw [State.held, State.held, goto_conn]

theorem held_frame (conns : t.conns = s.conns) (lives : t.lives = s.lives) : t.held = s.held := by
  funext number
  unfold State.held State.conn connAt
  rw [conns, lives]

/-- The coroutine has looked at `defer_ready` for the last time. -/
def State.GivesUp (s : State) (number : Nat) : Prop :=
  s.lives[number]?.map Life.pc = some .givingUp

def Unanswered (s : State) : Prop := ∀ number, s.GivesUp number → s.held number = none

theorem Rows.settle_held (rows : Rows s) {was : Conn} (at_ : At number s life c)
    (same : was.id = c.id) (held : was.held = c.held) {outcome : Outcome}
    (proper : outcome.Proper was) : (settle number life.slot s outcome).held = s.held := by
  cases outcome with
  | stays status now =>
      have kept := (Conn.held_same proper.2.1.answer).trans held
      exact (goto_held number status.pc).trans (rows.put_held at_.row kept)
  | closes status now =>
      have kept := (Conn.held_same proper.1.answer).trans held
      have mine := (Conn.id_same proper.1.accounts).trans same
      exact (goto_held number status.pc).trans (rows.close_held at_.row mine kept)
  | torn => cases proper

theorem Stepped.held (stepped : Stepped number answers s t) (inv : Inv s)
    (unanswered : Unanswered s) : t.held = s.held := by
  cases stepped with
  | idle => rfl
  | lost => exact goto_held number _
  | @settles life c was t at_ quieted _ same kept _ proper =>
      obtain ⟨conns, lives, _⟩ := quieted.frame
      have held : was.held = c.held := by
        rcases kept with answer | ⟨ready, unready | giving⟩
        · exact Conn.held_same answer
        · rw [Conn.held_unready unready, Conn.held_unready (ready.trans unready)]
        · have none_ := unanswered number (by
            rw [State.GivesUp, at_.live, Option.map_some, giving])
          have mine := inv.conn_row at_.row
          rw [(inv.own_at at_).1] at mine
          rw [State.held, mine, Option.bind_some] at none_
          cases unready : c.deferReady with
          | true =>
              rw [Conn.held, unready] at none_
              cases none_
          | false => rw [Conn.held_unready unready, Conn.held_unready (ready.trans unready)]
      exact ((inv.quieted at_.row quieted).settle_held ⟨lives ▸ at_.live, at_.going,
        conns ▸ at_.row⟩ same held proper).trans (held_frame conns lives)
  | tears => rfl
  | waits at_ => exact (goto_held number _).trans (inv.put_held at_.row rfl)
  | @asks life c now at_ _ step _ _ _ _ unready _ more =>
      have unasked : c.deferReady = false := by
        obtain ⟨_, sound, _⟩ := inv.row _ _ at_.row
        cases sound with
        | receiving _ _ _ unready => exact unready
        | waiting waits => cases step.symm.trans waits
        | heading heads => cases step.symm.trans heads
        | plain sends => cases step.symm.trans sends
        | streaming sends => cases step.symm.trans sends
      have kept : now.held = c.held := by
        rw [Conn.held_unready unready, Conn.held_unready unasked]
      have grown : Rows (s.grow more) := (inv.grow (inv.alive at_.row) more).toRows
      exact (goto_held number _).trans (grown.put_held at_.row kept)

theorem goto_givesUp {number' : Nat} {pc : Pc} (gives : (s.goto number pc).GivesUp number') :
    pc = .givingUp ∧ number' = number ∨ s.GivesUp number' := by
  rw [State.GivesUp, State.goto, List.getElem?_modify] at gives
  unfold State.GivesUp
  cases there : s.lives[number']? with
  | none =>
      rw [there] at gives
      cases gives
  | some life =>
      rw [there, Option.map_eq_map, Option.map_some, Option.map_some] at gives
      split at gives
      · rename_i same
        exact .inl ⟨Option.some.inj gives, same.symm⟩
      · exact .inr gives

theorem close_givesUp (gives : (s.close slot c).GivesUp number) : s.GivesUp number := by
  rw [State.GivesUp, State.close, List.getElem?_modify] at gives
  unfold State.GivesUp
  cases there : s.lives[number]? with
  | none =>
      rw [there] at gives
      cases gives
  | some life =>
      rw [there, Option.map_eq_map, Option.map_some, Option.map_some] at gives
      split at gives <;> exact gives

theorem status_pc (status : Status) : status.pc ≠ .givingUp := by
  cases status <;> exact nofun

theorem settle_givesUp {number' : Nat} {outcome : Outcome}
    (gives : (settle number slot s outcome).GivesUp number') : s.GivesUp number' := by
  cases outcome with
  | stays status c =>
      rcases goto_givesUp gives with ⟨never, _⟩ | gives
      · exact absurd never (status_pc status)
      · exact gives
  | closes status c =>
      rcases goto_givesUp gives with ⟨never, _⟩ | gives
      · exact absurd never (status_pc status)
      · exact close_givesUp gives
  | torn => exact gives

theorem Unanswered.stepped (unanswered : Unanswered s) (inv : Inv s)
    (stepped : Stepped number answers s t) : Unanswered t := by
  intro number' gives
  rw [stepped.held inv unanswered]
  cases stepped with
  | idle => exact unanswered number' gives
  | lost =>
      rcases goto_givesUp gives with ⟨never, _⟩ | gives
      · cases never
      · exact unanswered number' gives
  | settles _ quieted =>
      obtain ⟨_, lives, _⟩ := quieted.frame
      have before := settle_givesUp gives
      rw [State.GivesUp, lives] at before
      exact unanswered number' before
  | tears => exact unanswered number' gives
  | @waits _ c at_ _ _ unready =>
      rcases goto_givesUp gives with ⟨_, rfl⟩ | gives
      · have mine := inv.conn_row at_.row
        rw [(inv.own_at at_).1] at mine
        rw [State.held, mine]
        exact Conn.held_unready unready
      · exact unanswered number' gives
  | asks =>
      rcases goto_givesUp gives with ⟨never, _⟩ | gives
      · exact absurd never (status_pc _)
      · exact unanswered number' gives

theorem append_held (life : Life) (c : Conn) (last : life.last = some c) (none_ : c.held = none) :
    State.held { s with lives := s.lives ++ [life] } = s.held := by
  funext number
  unfold State.held State.conn
  dsimp only
  rcases Nat.lt_trichotomy number s.lives.length with inside | rfl | beyond
  · rw [List.getElem?_append_left inside]
    rfl
  · rw [List.getElem?_concat_length, List.getElem?_eq_none (Nat.le_refl _)]
    dsimp only
    rw [last]
    exact none_
  · rw [List.getElem?_eq_none (Nat.le_of_lt beyond), List.getElem?_eq_none]
    rw [List.length_append]
    exact beyond

theorem growRows_held (more : Nat) : (s.growRows more).held = s.held := by
  have rows (slot : Nat) : connAt slot (s.growRows more) = connAt slot s := by
    unfold connAt State.growRows
    dsimp only
    rcases Nat.lt_or_ge slot s.conns.length with inside | outside
    · rw [List.getElem?_append_left inside]
    · rw [List.getElem?_append_right outside, List.getElem?_eq_none outside,
        List.getElem?_replicate]
      split <;> rfl
  funext number
  unfold State.held State.conn
  simp only [rows]
  rfl

theorem Rows.admit_held (rows : Rows s) (free : s.conns[slot]? = some none) (fd : Nat) :
    State.held { s with
      conns := s.conns.set slot (some (Conn.fresh s.lives.length fd))
      connsUsed := s.connsUsed + 1
      lives := s.lives ++ [⟨slot, .ready, none⟩] } = s.held := by
  funext number
  unfold State.held State.conn
  dsimp only
  rcases Nat.lt_trichotomy number s.lives.length with inside | rfl | beyond
  · rw [List.getElem?_append_left inside, List.getElem?_eq_getElem inside]
    dsimp only
    rcases rows.life number _ (List.getElem?_eq_getElem inside) with
      ⟨_, c, row, _⟩ | ⟨c, closed, _⟩
    · have apart : s.lives[number].slot ≠ slot := by
        intro same
        rw [same, free] at row
        cases row
      unfold connAt
      dsimp only
      rw [set_there apart]
    · rw [closed]
      rfl
  · rw [List.getElem?_concat_length, List.getElem?_eq_none (Nat.le_refl _)]
    dsimp only
    rw [connAt, set_here free]
    rfl
  · rw [List.getElem?_eq_none (Nat.le_of_lt beyond), List.getElem?_eq_none]
    rw [List.length_append]
    exact beyond

theorem Inv.spawnConn_held (inv : Inv s) (fd : Nat) (answers : Spawn) :
    (Asgi.spawnConn fd answers s).held = s.held := by
  have reject (s : State) : (s.reject (Conn.fresh s.lives.length fd)).held = s.held :=
    append_held _ _ rfl rfl
  unfold Asgi.spawnConn
  dsimp only
  rcases connSlot_cases answers s with none_ | ⟨alive, more, none_ | ⟨slot, free, found⟩⟩
  · rw [none_]
    exact reject s
  · rw [none_]
    exact (reject (s.growRows more)).trans (growRows_held more)
  · rw [found]
    have grown := inv.growRows alive more
    dsimp only
    split
    · rw [set_same free]
      exact (reject (s.growRows more)).trans (growRows_held more)
    · exact (grown.admit_held free fd).trans (growRows_held more)

theorem spawnConn_givesUp {fd : Nat} {answers : Spawn}
    (gives : (spawnConn fd answers s).GivesUp number) : s.GivesUp number := by
  have append (t : State) (life : Life) (lives : t.lives = s.lives ++ [life])
      (going : life.pc ≠ .givingUp) (gives : t.GivesUp number) : s.GivesUp number := by
    obtain ⟨life', there, giving⟩ := Option.map_eq_some_iff.mp gives
    rw [lives] at there
    rcases append_cases there with ⟨_, rfl⟩ | there
    · exact absurd giving going
    · exact Option.map_eq_some_iff.mpr ⟨life', there, giving⟩
  unfold spawnConn at gives
  dsimp only at gives
  rcases connSlot_cases answers s with none_ | ⟨_, more, none_ | ⟨slot, _, found⟩⟩
  · rw [none_] at gives
    exact append _ _ rfl (by exact nofun) gives
  · rw [none_] at gives
    exact append _ _ rfl (by exact nofun) gives
  · rw [found] at gives
    dsimp only at gives
    split at gives
    · exact append _ _ rfl (by exact nofun) gives
    · exact append _ _ rfl (by exact nofun) gives

theorem foldl_closeRow_held (rows : Rows s) (slots : List Nat) :
    (slots.foldl closeRow s).held = s.held := by
  induction slots generalizing s with
  | nil => rfl
  | cons slot slots ih =>
      rw [List.foldl_cons, ih (rows.closeRow slot)]
      unfold closeRow
      split
      · rfl
      · rename_i c row
        exact rows.close_held (connAt_some.mp row) rfl rfl

theorem Inv.deinit_held (inv : Inv s) : (Asgi.deinit s).held = s.held := by
  rw [← foldl_closeRow_held inv.toRows (List.range s.conns.length)]
  funext number
  have closed := inv.deinit.life number
  unfold State.held State.conn
  have lives : (Asgi.deinit s).lives =
      ((List.range s.conns.length).foldl closeRow s).lives := rfl
  rw [← lives]
  cases there : (Asgi.deinit s).lives[number]? with
  | none => rfl
  | some life =>
      rcases closed life there with ⟨_, c, row, _⟩ | ⟨c, last, _⟩
      · cases row
      · dsimp only
        rw [last]
        rfl

/-- The connections that got an answer are those that the replies went to. -/
structure Holds (s : State) : Prop where
  got : ∀ reply ∈ s.replies, ∃ body,
    s.held reply.to_ = some (body, reply.body.length, true, false) ∧
      body.take reply.body.length = reply.body
  only : ∀ number, s.held number ≠ none → number ∈ s.replies.map Reply.to_
  apart : (s.replies.map Reply.to_).Nodup
  unanswered : Unanswered s

theorem Holds.same (holds : Holds s) (replies : t.replies = s.replies) (held : t.held = s.held)
    (unanswered : Unanswered t) : Holds t where
  got reply member := held ▸ holds.got reply (replies ▸ member)
  only number got := replies ▸ holds.only number (held ▸ got)
  apart := replies ▸ holds.apart
  unanswered := unanswered

theorem answered_held (body : Bytes) (ctype : Option CString) (answering : c.busy = false) :
    ∃ block,
      (c.answered body ctype).held = some (block, body.length, true, false) ∧
        block.take body.length = body := by
  unfold Conn.answered
  dsimp only
  split
  · rename_i empty
    refine ⟨c.body, ?_, ?_⟩
    · rw [← answering]
      rfl
    · rw [List.isEmpty_iff.mp empty]
      rfl
  · refine ⟨body, ?_, List.take_length⟩
    rw [← answering]
    rfl

theorem Holds.deferReply (holds : Holds s) (inv : Inv s) (given : Given)
    (ctype : Option CString) (room : Bool)
    (outside : ∀ cur ∈ s.deferCur, ∀ d ∈ s.defers[cur]?, ∀ life ∈ s.lives[d.by_]?,
      life.pc ≠ .givingUp) : Holds (deferReply given ctype room s).1 := by
  rcases deferReply_cases given ctype room s with
    same | ⟨cur, d, c, current, here, row, used, _, replied⟩
  · rw [same]
    exact holds
  · rw [replied]
    obtain ⟨c', row', mine, step, unready⟩ := inv.link cur d here used
    rw [row] at row'
    cases row'
    have before : s.held c.id = none := by
      rw [State.held, inv.conn_row row]
      exact Conn.held_unready unready
    have fresh : c.id ∉ s.replies.map Reply.to_ := fun member => by
      obtain ⟨reply, among, same⟩ := List.mem_map.mp member
      obtain ⟨body, held, _⟩ := holds.got reply among
      rw [same, before] at held
      cases held
    have after (number : Nat) (apart : number ≠ c.id) :
        ((s.unqueue cur d).put d.conn (c.answered given.body ctype)).held number =
          s.held number := by
      rw [State.held, (inv.unqueue here used).put_conn row, if_neg apart]
      rfl
    obtain ⟨block, held, whole⟩ :=
      answered_held given.body ctype (inv.unheld row (.inr ⟨step, unready⟩)).1.busy
    have now : ((s.unqueue cur d).put d.conn (c.answered given.body ctype)).held c.id =
        some (block, given.body.length, true, false) := by
      rw [State.held, (inv.unqueue here used).put_conn row, if_pos rfl]
      exact held
    exact {
      got := fun reply member => by
        rcases List.mem_append.mp member with member | new
        · obtain ⟨body, was, whole⟩ := holds.got reply member
          refine ⟨body, (after reply.to_ fun same => ?_).trans was, whole⟩
          exact fresh (same ▸ List.mem_map_of_mem member)
        · rw [List.mem_singleton.mp new]
          exact ⟨block, now, whole⟩
      only := fun number got => by
        rw [List.map_append]
        by_cases same : number = c.id
        · rw [same]
          exact List.mem_append_right _ (List.mem_singleton_self _)
        · refine List.mem_append_left _ (holds.only number ?_)
          exact after number same ▸ got
      apart := by
        rw [List.map_append]
        exact List.concat_eq_append ▸ holds.apart.concat fresh
      unanswered := fun number gives => by
        refine (after number fun same => ?_).trans (holds.unanswered number gives)
        obtain ⟨life, there, giving⟩ := Option.map_eq_some_iff.mp gives
        exact outside cur current d here life (mine ▸ same ▸ there) giving }

/-- A step keeps its row; and when the renderer answers, the connection of the current
request is not between its last look at `defer_ready` and `defer_drop`. -/
def KeepsQueue (s : State) : Event → Prop
  | .run number answers => KeepsRows s (.run number answers)
  | .reply _ _ _ => ∀ cur ∈ s.deferCur, ∀ d ∈ s.defers[cur]?, ∀ life ∈ s.lives[d.by_]?,
      life.pc ≠ .givingUp
  | _ => True

instance (s : State) : ∀ event, Decidable (KeepsQueue s event)
  | .run number answers => inferInstanceAs (Decidable (KeepsRows s (.run number answers)))
  | .reply _ _ _ => by
      unfold KeepsQueue
      infer_instance
  | .spawn _ _ | .next | .deinit | .knobs _ _ => isTrue trivial

variable {event : Event}

theorem KeepsQueue.rows (keeps : KeepsQueue s event) : KeepsRows s event := by
  cases event with
  | run => exact keeps
  | spawn | next | reply | deinit | knobs => trivial

structure Serving (s : State) : Prop extends Settled s where
  book : Book s
  holds : Holds s

theorem serving_boot (routes : List Route) : Serving (State.boot routes) :=
  { settled_boot routes with
    book := book_boot routes
    holds := ⟨nofun, fun _ got => absurd rfl got, List.nodup_nil, fun _ _ => rfl⟩ }

theorem Quieted.replies (quieted : Quieted slot s t) : t.replies = s.replies := by
  cases quieted with
  | grown => rfl
  | dropped =>
      exact deferDrop_induct (fun t => t.replies = s.replies) slot rfl
        fun _ _ _ same _ _ _ => same

theorem Stepped.replies (stepped : Stepped number answers s t) : t.replies = s.replies := by
  cases stepped with
  | idle => rfl
  | lost => rfl
  | settles _ quieted =>
      rename_i outcome _
      have before := quieted.replies
      cases outcome with
      | stays | closes | torn => exact before
  | tears => rfl
  | waits => rfl
  | asks => rfl

theorem spawnConn_replies (fd : Nat) (answers : Spawn) :
    (spawnConn fd answers s).replies = s.replies := by
  unfold spawnConn
  dsimp only
  rcases connSlot_cases answers s with none_ | ⟨_, more, none_ | ⟨slot, _, found⟩⟩
  · rw [none_]
    rfl
  · rw [none_]
    rfl
  · rw [found]
    dsimp only
    split <;> rfl

theorem deinit_replies : (deinit s).replies = s.replies := by
  have all (slots : List Nat) (t : State) : (slots.foldl closeRow t).replies = t.replies := by
    induction slots generalizing t with
    | nil => rfl
    | cons slot slots ih =>
        rw [List.foldl_cons, ih]
        unfold closeRow
        split <;> rfl
  exact all _ s

theorem deinit_givesUp (gives : (deinit s).GivesUp number) : s.GivesUp number := by
  have all (slots : List Nat) (t : State) (gives : (slots.foldl closeRow t).GivesUp number) :
      t.GivesUp number := by
    induction slots generalizing t with
    | nil => exact gives
    | cons slot slots ih =>
        have before := ih _ gives
        unfold closeRow at before
        split at before
        · exact before
        · exact close_givesUp before
  exact all _ s gives

theorem Book.step (book : Book s) (settled : Settled s) (keeps : KeepsQueue s event) :
    Book (step s event) := by
  unfold Asgi.step
  split
  · exact book
  · cases event with
    | spawn fd answers => exact book.spawnConn fd answers
    | run number answers =>
        exact book.stepped settled.toInv (stepConnFrame_stepped settled.toInv number answers)
    | next => exact book.deferNext
    | reply given ctype room =>
        exact book.deferReply settled.toInv settled.ended given ctype room keeps
    | deinit =>
        dsimp only
        split
        · exact book.deinit
        · exact book
    | knobs => exact { book with }

theorem Holds.step (holds : Holds s) (inv : Inv s) (keeps : KeepsQueue s event) :
    Holds (step s event) := by
  unfold Asgi.step
  split
  · exact holds
  · cases event with
    | spawn fd answers =>
        have held := inv.spawnConn_held fd answers
        refine holds.same (spawnConn_replies fd answers) held fun number gives => ?_
        rw [held]
        exact holds.unanswered number (spawnConn_givesUp gives)
    | run number answers =>
        have stepped := stepConnFrame_stepped inv number answers
        exact holds.same stepped.replies (stepped.held inv holds.unanswered)
          (holds.unanswered.stepped inv stepped)
    | next =>
        dsimp only
        rcases deferNext_cases s with same | ⟨i, d, _, _, _, taken⟩
        · rw [same]
          exact holds
        · rw [taken]
          exact holds.same rfl rfl holds.unanswered
    | reply given ctype room => exact holds.deferReply inv given ctype room keeps
    | deinit =>
        dsimp only
        split
        · refine holds.same deinit_replies inv.deinit_held fun number gives => ?_
          rw [inv.deinit_held]
          exact holds.unanswered number (deinit_givesUp gives)
        · exact holds
    | knobs => exact holds.same rfl rfl holds.unanswered

theorem Serving.step (serving : Serving s) (keeps : KeepsQueue s event) : Serving (step s event) :=
  { serving.toSettled.step keeps.rows with
    book := serving.book.step serving.toSettled keeps
    holds := serving.holds.step serving.toInv keeps }

/-- Every answer went to the connection that asked for the path that was handed out last,
while it waited, and it has this body; no other connection has one. -/
structure Delivered (s : State) : Prop where
  whole : s.torn = false
  own : ∀ reply ∈ s.replies, reply.waiting = true ∧ ∃ r request,
    reply.last = some r ∧ s.asked[r]? = some request ∧ request.conn = reply.to_
  got : ∀ reply ∈ s.replies, ∃ c, s.conn reply.to_ = some c ∧ c.deferReady ∧ c.busy = false ∧
    c.bodyLen = reply.body.length ∧ c.body.take c.bodyLen = reply.body
  only : ∀ number c, s.conn number = some c → c.deferReady →
    number ∈ s.replies.map Reply.to_
  apart : (s.replies.map Reply.to_).Nodup
  handedOnce : s.handed.Nodup
  handedOut : ∀ path, (deferNext s).2 = some path → ∃ r request,
    (deferNext s).1.handed = s.handed ++ [r] ∧ s.asked[r]? = some request ∧ request.path = path
  answeredOnce : (s.replies.map Reply.last).Nodup
  used : s.defersUsed = s.defers.countP Defer.used

theorem Serving.delivered (serving : Serving s) : Delivered s where
  whole := serving.whole
  own := serving.book.replied
  got reply member := by
    obtain ⟨body, held, whole⟩ := serving.holds.got reply member
    obtain ⟨c, here, answer⟩ := Option.bind_eq_some_iff.mp held
    rw [Conn.held] at answer
    split at answer
    · rename_i ready
      obtain ⟨rfl, length, _, answering⟩ : c.body = body ∧ c.bodyLen = reply.body.length ∧
          c.deferReady = true ∧ c.busy = false := by
        simpa only [Conn.answer, Option.some.injEq, Prod.mk.injEq] using answer
      exact ⟨c, here, ready, answering, length, length ▸ whole⟩
    · cases answer
  only number c here ready := by
    refine serving.holds.only number ?_
    rw [State.held, here, Option.bind_some, Conn.held, if_pos ready]
    exact nofun
  apart := serving.holds.apart
  handedOnce := serving.book.once
  handedOut path found := by
    rcases deferNext_cases s with same | ⟨i, d, here, used, _, taken⟩
    · rw [same] at found
      cases found
    · rw [taken] at found ⊢
      cases found
      exact ⟨d.req, _, rfl, (serving.book.entry i d here used).1, rfl⟩
  answeredOnce := serving.book.answered
  used := serving.queued

theorem delivered_of_keeps (routes : List Route) (run : List Event)
    (keeps : Along step KeepsQueue (State.boot routes) run) :
    Delivered (run.foldl step (State.boot routes)) :=
  (keeps.invariant (fun _ _ serving keeps => serving.step keeps) (serving_boot routes)).delivered

/-- Two requests, of which the first is answered; its row is used again. -/
def inTurn : List Event :=
  [.spawn 7 granted, .run 0 { Answers.idle with recv := some (request "/d") },
    .spawn 8 granted, .run 1 { Answers.idle with recv := some (request "/d") }, .next, .next,
    .reply (.bytes [1, 2]) none false, .reply (.bytes [1, 2]) none true,
    .run 1 { Answers.idle with header := some 1000, body := some 9 },
    .spawn 9 granted, .run 2 { Answers.idle with recv := some (request "/d") }, .next,
    .reply (.null 0) none true]

theorem delivered_of_keeps_inTurn : Delivered (inTurn.foldl step (State.boot [deferRoute])) :=
  delivered_of_keeps [deferRoute] inTurn (by decide +kernel)

/-- The sleep of the parked request fails, and its coroutine is over when the answer comes. -/
def answeredLate : List Event :=
  sleepless ++ [Event.next, .reply (.bytes [1, 2, 3]) none true]

section Shared

variable (whole : s.torn = false)
  (at_ : At number s life c)
  (ready : life.pc = .ready)
  (asks : c.step = 3)
  (unready : c.deferReady = false)
include whole at_ ready asks unready

theorem step_waits (few : c.deferWaits < deferMaxWaits) :
    step s (.run number Answers.idle) =
      s.put life.slot { c with deferWaits := c.deferWaits + 1 } := by
  have same : (s.put life.slot { c with deferWaits := c.deferWaits + 1 }).goto number .ready =
      s.put life.slot { c with deferWaits := c.deferWaits + 1 } := by
    rw [State.goto, State.put, modify_eq_set_of at_.live, ← ready, set_same at_.live]
  rw [step, if_neg (by rw [whole]; decide)]
  rw [stepConnFrame, at_.live]
  dsimp only
  rw [ready]
  dsimp only
  rw [connAt_some.mpr at_.row]
  dsimp only
  rw [if_neg (by rw [asks]; decide), if_pos asks, stepWait, if_neg (by rw [unready]; decide)]
  dsimp only
  rw [if_pos (by exact few)]
  exact same

theorem foldl_waits (n : Nat) (few : c.deferWaits + n ≤ deferMaxWaits) :
    (List.replicate n (.run number Answers.idle)).foldl step s =
      s.put life.slot { c with deferWaits := c.deferWaits + n } := by
  induction n with
  | zero =>
      have same := set_same at_.row
      rw [List.replicate_zero, List.foldl_nil]
      change s = { s with conns := s.conns.set life.slot (some c) }
      rw [same]
  | succ n ih =>
      have row := set_here at_.row (some { c with deferWaits := c.deferWaits + n })
      rw [List.replicate_succ', List.foldl_append, ih (Nat.le_of_succ_le few),
        List.foldl_cons, List.foldl_nil]
      have waits := step_waits (s := s.put life.slot { c with deferWaits := c.deferWaits + n })
        whole ⟨at_.live, at_.going, row⟩ ready asks unready few
      rw [waits, State.put, State.put, State.put, List.set_set]
      rfl

end Shared

def asksOnce : List Event :=
  [.spawn 7 granted, .run 0 { Answers.idle with recv := some (request "/d") }, .next]

/-- The answer comes after the last look at `defer_ready`. -/
def answeredBetween : List Event :=
  asksOnce ++ (List.replicate deferMaxWaits (Event.run 0 Answers.idle) ++
    [Event.run 0 Answers.idle, .reply (.bytes [1, 2, 3]) none true, .run 0 Answers.idle])

def asker : Conn :=
  { Conn.fresh 0 7 with step := 3, rx := request "/d", ctype := deferRoute.ctype }

theorem answeredBetween_replies :
    (answeredBetween.foldl step (State.boot [deferRoute])).replies =
      [⟨some 0, 0, false, [1, 2, 3]⟩] := by
  have rows : (asksOnce.foldl step (State.boot [deferRoute])).conns = [some asker] := by
    decide +kernel
  have lives : (asksOnce.foldl step (State.boot [deferRoute])).lives = [⟨0, .ready, none⟩] := by
    decide +kernel
  have whole : (asksOnce.foldl step (State.boot [deferRoute])).torn = false := by
    decide +kernel
  have at_ : At 0 (asksOnce.foldl step (State.boot [deferRoute])) ⟨0, .ready, none⟩ asker :=
    ⟨by rw [lives]; rfl, fun _ => nofun, by rw [rows]; rfl⟩
  rw [answeredBetween, List.foldl_append, List.foldl_append,
    foldl_waits whole at_ rfl rfl rfl deferMaxWaits (by decide)]
  decide +kernel

theorem delivered_fails :
    ¬ Delivered (answeredLate.foldl step (State.boot [deferRoute])) ∧
      ¬ Delivered (answeredBetween.foldl step (State.boot [deferRoute])) := by
  constructor
  · intro delivered
    have replies : (answeredLate.foldl step (State.boot [deferRoute])).replies =
        [⟨some 0, 0, false, [1, 2, 3]⟩] := by
      decide +kernel
    cases (delivered.own ⟨some 0, 0, false, [1, 2, 3]⟩ (by rw [replies]; exact .head _)).1
  · intro delivered
    have own := delivered.own ⟨some 0, 0, false, [1, 2, 3]⟩ (by
      rw [answeredBetween_replies]
      exact .head _)
    cases own.1

end Metal.Net.Asgi
