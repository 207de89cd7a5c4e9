import Metal.Net.Asgi.Rows

namespace Metal.Net.Asgi

open Metal.Lib

/-! Runs of the server: what is sent on a connection, and when its row comes back. -/

variable {s : State} {slot : Nat}

theorem Inv.reject (inv : Inv s) (fd : Nat) : Inv (s.reject (Conn.fresh s.lives.length fd)) := by
  have older {number : Nat} {life : Life} (there : s.lives[number]? = some life) :
      (s.lives ++ [⟨0, .ended .error,
        some { Conn.fresh s.lives.length fd with closes := 0 + 1 }⟩])[number]? = some life := by
    rw [List.getElem?_append_left (List.getElem?_eq_some_iff.mp there).1, there]
  have blank : Blank { Conn.fresh s.lives.length fd with closes := 0 + 1 } :=
    ⟨rfl, rfl, rfl, rfl, rfl, rfl, Nat.two_pow_pos 32⟩
  exact {
    row := fun slot c here => by
      obtain ⟨steady, sound, life, there, mine⟩ := inv.row slot c here
      exact ⟨steady, sound, life, older there, mine⟩
    life := fun number life there => by
      rcases append_cases there with ⟨rfl, rfl⟩ | there
      · exact .inr ⟨_, rfl, rfl, rfl, Nat.zero_le 1, rfl, blank.inOrder, fun _ => rfl⟩
      · exact inv.life number life there
    done := fun number life there isDone => by
      rcases append_cases there with ⟨_, rfl⟩ | there
      · cases isDone
      · exact inv.done number life there isDone
    gone := fun number life there closed => by
      rcases append_cases there with ⟨_, rfl⟩ | there
      · exact .inl ⟨_, rfl⟩
      · exact inv.gone number life there closed
    giving := fun number life there giving => by
      rcases append_cases there with ⟨_, rfl⟩ | there
      · cases giving
      · exact inv.giving number life there giving
    empty := inv.empty
    used := inv.used
    link := inv.link
    apart := inv.apart
    cur := inv.cur
    queued := inv.queued }

def State.growRows (more : Nat) (s : State) : State :=
  { s with conns := s.conns ++ List.replicate more none }

theorem freeRow_cases (grown : Option Nat) (s : State) :
    ∃ more, (freeRow grown s).2 = s.growRows more ∧
      ∀ slot, (freeRow grown s).1 = some slot → (s.growRows more).conns[slot]? = some none := by
  have same : s = s.growRows 0 := by
    rw [State.growRows, List.replicate_zero, List.append_nil]
  unfold freeRow
  split
  · rename_i slot found
    refine ⟨0, same, fun slot' this => ?_⟩
    obtain rfl := Option.some.inj this
    obtain ⟨inside, holds, _⟩ := List.findIdx?_eq_some_iff_getElem.mp found
    rw [← same, List.getElem?_eq_getElem inside, Option.isNone_iff_eq_none.mp holds]
  · split
    · exact ⟨0, same, nofun⟩
    · rename_i more
      refine ⟨more + 1, rfl, fun slot this => ?_⟩
      obtain rfl := Option.some.inj this
      rw [State.growRows, List.getElem?_append_right (Nat.le_refl _), Nat.sub_self,
        List.getElem?_replicate, if_pos (Nat.succ_pos more)]

theorem connSlot_cases (answers : Spawn) (s : State) :
    connSlot answers s = (none, s) ∨
      s.arena = true ∧ ∃ more, connSlot answers s = (none, s.growRows more) ∨
        ∃ slot, (s.growRows more).conns[slot]? = some none ∧
          connSlot answers s =
            (some slot, { s.growRows more with connsUsed := s.connsUsed + 1 }) := by
  unfold connSlot
  split
  · exact .inl rfl
  · rename_i fine
    rw [Bool.or_eq_true, not_or, Bool.not_eq_true', Bool.not_eq_false] at fine
    obtain ⟨more, after, free⟩ := freeRow_cases answers.grown s
    refine .inr ⟨fine.1, more, ?_⟩
    split
    · rename_i s' found
      rw [found] at after
      exact .inl (by rw [← after])
    · rename_i slot s' found
      rw [found] at after free
      obtain rfl := after
      split
      · exact .inl rfl
      · exact .inr ⟨slot, free slot rfl, rfl⟩

theorem growRows_row {more : Nat} {c : Conn}
    (here : (s.growRows more).conns[slot]? = some (some c)) : s.conns[slot]? = some (some c) := by
  rcases append_replicate_cases here with here | never
  · exact here
  · cases never

theorem row_growRows (more : Nat) {c : Conn} (here : s.conns[slot]? = some (some c)) :
    (s.growRows more).conns[slot]? = some (some c) := by
  rw [State.growRows, List.getElem?_append_left (List.getElem?_eq_some_iff.mp here).1, here]

theorem Inv.growRows (inv : Inv s) (alive : s.arena = true) (more : Nat) :
    Inv (s.growRows more) where
  row slot c here := inv.row slot c (growRows_row here)
  life number life at_ := by
    rcases inv.life number life at_ with ⟨open_, c, row, mine⟩ | shut
    · exact .inl ⟨open_, c, row_growRows more row, mine⟩
    · exact .inr shut
  done := inv.done
  gone := inv.gone
  giving number life at_ giving c row := inv.giving number life at_ giving c (growRows_row row)
  empty over_ := by
    have over_ : s.arena = false := over_
    rw [alive] at over_
    cases over_
  used := by
    rw [State.growRows, List.countP_append, List.countP_replicate]
    exact inv.used
  link i d here used := by
    obtain ⟨c, row, waits⟩ := inv.link i d here used
    exact ⟨c, row_growRows more row, waits⟩
  apart := inv.apart
  cur := inv.cur
  queued := inv.queued

theorem Inv.admit (inv : Inv s) (alive : s.arena = true) (free : s.conns[slot]? = some none)
    (fd : Nat) :
    Inv { s with
      conns := s.conns.set slot (some (Conn.fresh s.lives.length fd))
      connsUsed := s.connsUsed + 1
      lives := s.lives ++ [⟨slot, .ready, none⟩] } := by
  have asking : Asking (Conn.fresh s.lives.length fd) :=
    ⟨⟨rfl, rfl, rfl, rfl, rfl, rfl, Nat.two_pow_pos 32⟩, rfl, rfl, Nat.le_refl 0⟩
  have older {number : Nat} {life : Life} (there : s.lives[number]? = some life) :
      (s.lives ++ [⟨slot, .ready, none⟩])[number]? = some life := by
    rw [List.getElem?_append_left (List.getElem?_eq_some_iff.mp there).1, there]
  have stays {slot' : Nat} {c : Conn} (row : s.conns[slot']? = some (some c)) :
      (s.conns.set slot (some (Conn.fresh s.lives.length fd)))[slot']? = some (some c) := by
    rw [set_there ?_, row]
    rintro rfl
    rw [free] at row
    cases row
  exact {
    row := fun slot' c here => by
      rcases set_cases here with ⟨rfl, found⟩ | ⟨_, here⟩
      · cases found
        refine ⟨⟨rfl, rfl, Nat.zero_le 1, rfl⟩, .receiving rfl asking rfl rfl,
          ⟨slot', .ready, none⟩, ?_, rfl, rfl⟩
        exact List.getElem?_concat_length
      · obtain ⟨steady, sound, life, there, mine⟩ := inv.row slot' c here
        exact ⟨steady, sound, life, older there, mine⟩
    life := fun number life there => by
      rcases append_cases there with ⟨rfl, rfl⟩ | there
      · exact .inl ⟨rfl, _, set_here free _, rfl⟩
      · rcases inv.life number life there with ⟨open_, c, row, mine⟩ | shut
        · exact .inl ⟨open_, c, stays row, mine⟩
        · exact .inr shut
    done := fun number life there isDone => by
      rcases append_cases there with ⟨_, rfl⟩ | there
      · cases isDone
      · exact inv.done number life there isDone
    gone := fun number life there closed => by
      rcases append_cases there with ⟨_, rfl⟩ | there
      · exact absurd rfl closed
      · exact inv.gone number life there closed
    giving := fun number life there giving c row => by
      rcases append_cases there with ⟨_, rfl⟩ | there
      · cases giving
      · rcases set_cases row with ⟨same, _⟩ | ⟨_, row⟩
        · rcases inv.life number life there with ⟨_, c', row', _⟩ | ⟨c', closed, _⟩
          · rw [same, free] at row'
            cases row'
          · rcases inv.gone number life there (by rw [closed]; exact nofun) with
              ⟨status, ended⟩ | over_
            · cases ended.symm.trans giving
            · cases alive.symm.trans over_
        · exact inv.giving number life there giving c row
    empty := fun over_ => by cases alive.symm.trans over_
    used := by
      have count := countP_set_add Option.isSome free (some (Conn.fresh s.lives.length fd))
      rw [← inv.used] at count
      exact count.symm
    link := fun i d here used => by
      obtain ⟨c, row, waits⟩ := inv.link i d here used
      exact ⟨c, stays row, waits⟩
    apart := inv.apart
    cur := inv.cur
    queued := inv.queued }

theorem Inv.spawnConn (inv : Inv s) (fd : Nat) (answers : Spawn) :
    Inv (spawnConn fd answers s) := by
  unfold Asgi.spawnConn
  dsimp only
  rcases connSlot_cases answers s with none_ | ⟨alive, more, none_ | ⟨slot, free, found⟩⟩
  · rw [none_]
    exact inv.reject fd
  · rw [none_]
    exact (inv.growRows alive more).reject fd
  · rw [found]
    have grown := inv.growRows alive more
    dsimp only
    split
    · rw [set_same free]
      exact grown.reject fd
    · exact grown.admit alive free fd

theorem Rows.closeRow (rows : Rows s) (slot : Nat) : Rows (closeRow s slot) := by
  unfold Asgi.closeRow
  split
  · exact rows
  · rename_i c row
    have here := connAt_some.mp row
    obtain ⟨steady, sound, _⟩ := rows.row slot c here
    exact rows.close here rfl (release_shut steady sound.inOrder sound.strays)

theorem foldl_closeRow (rows : Rows s) (k : Nat) :
    Rows ((List.range k).foldl closeRow s) ∧
      ((List.range k).foldl closeRow s).conns.length = s.conns.length ∧
        ∀ (slot : Nat) c, slot < k →
          ((List.range k).foldl closeRow s).conns[slot]? ≠ some (some c) := by
  induction k with
  | zero => exact ⟨rows, rfl, nofun⟩
  | succ k ih =>
      obtain ⟨rows, length, before⟩ := ih
      rw [List.range_succ, List.foldl_append, List.foldl_cons, List.foldl_nil]
      generalize (List.range k).foldl closeRow s = t at rows length before
      refine ⟨rows.closeRow k, ?_, fun slot c below row => ?_⟩
      · unfold closeRow
        split
        · exact length
        · exact (List.length_set ..).trans length
      · unfold closeRow at row
        split at row
        · rename_i absent
          rcases Nat.lt_succ_iff_lt_or_eq.mp below with earlier | rfl
          · exact before slot c earlier row
          · rw [connAt_some.mpr row] at absent
            cases absent
        · rcases set_cases row with ⟨_, found⟩ | ⟨different, row⟩
          · cases found
          · exact before slot c (Nat.lt_of_le_of_ne (Nat.le_of_lt_succ below) different) row

theorem Inv.deinit (inv : Inv s) : Inv (deinit s) := by
  obtain ⟨rows, length, all⟩ := foldl_closeRow inv.toRows s.conns.length
  exact {
    row := nofun
    life := fun number life at_ => by
      rcases rows.life number life at_ with ⟨_, c, row, _⟩ | shut
      · have inside := (List.getElem?_eq_some_iff.mp row).1
        exact absurd row (all life.slot c (length ▸ inside))
      · exact .inr shut
    done := rows.done
    gone := fun _ _ _ _ => .inr rfl
    giving := fun _ _ _ _ => nofun
    empty := fun _ => ⟨rfl, rfl⟩
    used := rfl
    link := nofun
    apart := nofun
    cur := nofun
    queued := rfl }

theorem Inv.step (inv : Inv s) (event : Event) : Inv (step s event) := by
  unfold Asgi.step
  split
  · exact inv
  · cases event with
    | spawn fd answers => exact inv.spawnConn fd answers
    | run number answers => exact inv.stepped (stepConnFrame_stepped inv number answers)
    | next => exact inv.deferNext
    | reply given ctype room => exact inv.deferReply given ctype room
    | deinit =>
        dsimp only
        split
        · exact inv.deinit
        · exact inv
    | knobs => exact { inv with }

def Fits (s : State) : Event → Prop
  | .run number answers => ∀ built ∈ headed number answers s,
      (built.1.header built.2).length ≤ hdrMax
  | _ => True

instance (s : State) : ∀ event, Decidable (Fits s event)
  | .run _ _ => by
      unfold Fits
      infer_instance
  | .spawn _ _ | .next | .reply _ _ _ | .deinit | .knobs _ _ => isTrue trivial

/-- The connection of a call of `spawn_conn`: on its row, or as it was handed back. -/
def State.conn (s : State) (number : Nat) : Option Conn :=
  match s.lives[number]? with
  | none => none
  | some life => life.last <|> connAt life.slot s

/-- What is sent on every connection, except that the answer of a missing renderer may be
read too far. -/
structure Responds (s : State) : Prop where
  whole : s.torn = false
  inOrder : ∀ number c, s.conn number = some c → c.InOrder
  inside : ∀ number c, s.conn number = some c → c.busy = false → c.strays = false
  done : ∀ (number : Nat) life, s.lives[number]? = some life → life.pc = .ended .done →
    ∃ c, s.conn number = some c ∧ c.Answered

theorem Inv.conn (inv : Inv s) {number : Nat} {c : Conn} (here : s.conn number = some c) :
    c.InOrder ∧ (c.busy = false → c.strays = false) := by
  unfold State.conn at here
  split at here
  · cases here
  · rename_i life at_
    rcases inv.life number life at_ with ⟨open_, c', row, _⟩ | ⟨c', closed, _, shut⟩
    · rw [open_] at here
      have row' := connAt_some.mp here
      obtain ⟨_, sound, _⟩ := inv.row _ _ row'
      exact ⟨sound.inOrder, sound.strays⟩
    · rw [closed] at here
      cases here
      exact ⟨shut.inOrder, shut.strays⟩

theorem settle_whole {number : Nat} {outcome : Outcome} {was : Conn}
    (proper : outcome.Proper was) : (settle number slot s outcome).torn = s.torn := by
  cases outcome with
  | stays => rfl
  | closes => rfl
  | torn => cases proper

theorem Stepped.whole {number : Nat} {answers : Answers} {t : State}
    (stepped : Stepped number answers s t) (fits : Fits s (.run number answers)) :
    t.torn = s.torn := by
  cases stepped with
  | idle => rfl
  | lost => rfl
  | settles _ quieted _ _ _ proper =>
      rw [settle_whole proper]
      exact quieted.frame.2.2
  | tears built long => exact absurd (fits _ built) long
  | waits => rfl
  | asks => rfl

theorem foldl_closeRow_torn (s : State) (slots : List Nat) :
    (slots.foldl closeRow s).torn = s.torn := by
  induction slots generalizing s with
  | nil => rfl
  | cons slot slots ih =>
      rw [List.foldl_cons, ih]
      unfold closeRow
      split <;> rfl

variable {event : Event}

theorem step_whole (inv : Inv s) (whole : s.torn = false) (fits : Fits s event) :
    (step s event).torn = false := by
  unfold step
  rw [if_neg (by rw [whole]; decide)]
  cases event with
  | spawn fd answers =>
      dsimp only
      unfold spawnConn
      dsimp only
      rcases connSlot_cases answers s with none_ | ⟨_, more, none_ | ⟨slot, _, found⟩⟩
      · rw [none_]
        exact whole
      · rw [none_]
        exact whole
      · rw [found]
        dsimp only
        split <;> exact whole
  | run number answers =>
      exact ((stepConnFrame_stepped inv number answers).whole fits).trans whole
  | next =>
      dsimp only
      rcases deferNext_cases s with same | ⟨i, d, _, _, _, taken⟩
      · rw [same]
        exact whole
      · rw [taken]
        exact whole
  | reply given ctype room =>
      dsimp only
      rcases deferReply_cases given ctype room s with same | ⟨_, _, _, _, _, _, _, _, replied⟩
      · rw [same]
        exact whole
      · rw [replied]
        exact whole
  | deinit =>
      dsimp only
      split
      · exact (foldl_closeRow_torn s _).trans whole
      · exact whole
  | knobs => exact whole

structure Runs (s : State) : Prop extends Inv s where
  whole : s.torn = false

theorem Runs.step (runs : Runs s) (fits : Fits s event) : Runs (step s event) :=
  ⟨runs.toInv.step event, step_whole runs.toInv runs.whole fits⟩

theorem runs_boot (routes : List Route) : Runs (State.boot routes) := ⟨inv_boot routes, rfl⟩

theorem Runs.responds (runs : Runs s) : Responds s where
  whole := runs.whole
  inOrder _ _ here := (runs.toInv.conn here).1
  inside _ _ here := (runs.toInv.conn here).2
  done number life at_ isDone := by
    obtain ⟨c, closed, answered⟩ := runs.done number life at_ isDone
    refine ⟨c, ?_, answered⟩
    rw [State.conn, at_]
    dsimp only
    rw [closed]
    rfl

theorem responds_of_fits (routes : List Route) (run : List Event)
    (fits : Along step Fits (State.boot routes) run) :
    Responds (run.foldl step (State.boot routes)) :=
  (fits.invariant (fun _ _ runs fits => runs.step fits) (runs_boot routes)).responds

def streamRoute : Route where
  used := true
  method := ⟨ascii "GET", by decide +kernel⟩
  path := ⟨ascii "/s", by decide +kernel⟩
  body := []
  bodyLen := 0
  handler := false
  ext := none
  ctype := none
  stream := true
  streamSize := true
  defer := false
  whole := Nat.le_refl 0
  small := Nat.two_pow_pos 32

def granted : Spawn := ⟨some 0, true, true, true⟩

def Answers.idle : Answers where
  recv := some []
  callbacks := ⟨true, none, 5⟩
  grown := some 0
  slept := true
  header := some 0
  body := some 0
  turns := []
  beyond _ := 0

def request (path : String) : Bytes :=
  ascii "GET " ++ ascii path ++ ascii " HTTP/1.0" ++ [13, 10, 13, 10]

/-- The request comes in two parts, and the header and the body go in parts. -/
def inParts : List Event :=
  [.spawn 7 granted, .run 0 { Answers.idle with recv := some ((request "/s").take 9) },
    .run 0 { Answers.idle with recv := some ((request "/s").drop 9), header := some 30 },
    .run 0 { Answers.idle with header := some 1000, turns := [⟨some [1, 2, 3], some 2⟩] },
    .run 0 { Answers.idle with turns := [⟨none, some 9⟩, ⟨some [4, 5, 6], some 9⟩] }]

theorem responds_of_fits_inParts :
    Responds (inParts.foldl step (State.boot [streamRoute])) :=
  responds_of_fits [streamRoute] inParts (by decide +kernel)

example : ((inParts.foldl step (State.boot [streamRoute])).conn 0).map Conn.sent =
    some (Conn.header { Conn.fresh 0 7 with bodyLen := 5 } (ascii "/s") ++ [1, 2, 3, 4, 5]) := by
  decide +kernel

/-- `Responds` without its exceptions: each body that is sent whole has the length that was told,
and nothing outside of it is read. -/
structure RespondsExactly (s : State) : Prop where
  whole : s.torn = false
  inOrder : ∀ number c, s.conn number = some c → c.InOrder
  inside : ∀ number c, s.conn number = some c → c.strays = false
  done : ∀ (number : Nat) life, s.lives[number]? = some life → life.pc = .ended .done →
    ∃ c, s.conn number = some c ∧
      ∃ hdr body, WellFormed hdr body.length ∧ c.Body body ∧ c.sent = hdr ++ body

def runsDry : List Event :=
  [.spawn 7 granted,
    .run 0 { Answers.idle with
      recv := some (request "/s"), header := some 1000
      turns := [⟨some [1, 2, 3], some 3⟩, ⟨some [], some 0⟩] }]

theorem wellFormed_single {hdr : Bytes} {n m : Nat} (first : WellFormed hdr n)
    (second : WellFormed hdr m) : n = m := by
  obtain ⟨type, digits, decimal, rfl⟩ := first
  obtain ⟨type', digits', decimal', same⟩ := second
  have label : ascii "Content-Length: " = ascii "Content-Length:" ++ [32] := by decide +kernel
  have last {front digits : Bytes} {n : Nat} (decimal : Decimal digits n) :
      (front ++ 32 :: digits).reverse.takeWhile (· ≠ 32) = digits.reverse := by
    rw [List.reverse_append, List.reverse_cons, List.append_assoc, List.takeWhile_append_of_pos]
    · rw [List.singleton_append, List.takeWhile_cons_of_neg (by simp), List.append_nil]
    · intro digit member
      have bounds := decimal.each digit (List.mem_reverse.mp member)
      rw [decide_eq_true_iff]
      rintro rfl
      exact absurd bounds.1 (by decide)
  have fronts := List.append_cancel_right same
  rw [label] at fronts
  simp only [← List.append_assoc] at fronts
  rw [List.append_assoc _ [32] digits, List.append_assoc _ [32] digits'] at fronts
  have digits_eq := congrArg (fun all => all.reverse.takeWhile (· ≠ 32)) fronts
  dsimp only [List.singleton_append] at digits_eq
  rw [last decimal, last decimal', List.reverse_inj] at digits_eq
  rw [← decimal.value, ← decimal'.value, digits_eq]

def toldFive : Bytes := Conn.header { Conn.fresh 0 7 with bodyLen := 5 } (ascii "/s")

theorem toldFive_blank : ∀ k < (toldFive ++ [1, 2, 3]).length,
    ((toldFive ++ [1, 2, 3]).drop k).take 4 = tailText → k + 4 = toldFive.length := by
  decide +kernel

theorem responds_exactly_fails :
    ¬ RespondsExactly (runsDry.foldl step (State.boot [streamRoute])) := by
  intro exactly
  have ended : (runsDry.foldl step (State.boot [streamRoute])).lives[0]?.map Life.pc =
      some (.ended .done) := by
    decide +kernel
  obtain ⟨life, at_, isDone⟩ := Option.map_eq_some_iff.mp ended
  obtain ⟨c, here, hdr, body, header, -, sent⟩ := exactly.done 0 life at_ isDone
  have all : ((runsDry.foldl step (State.boot [streamRoute])).conn 0).map Conn.sent =
      some (toldFive ++ [1, 2, 3]) := by
    decide +kernel
  rw [here, Option.map_some, Option.some.injEq, sent] at all
  have five : WellFormed toldFive 5 := header_wellFormed _ _ (by decide)
  obtain ⟨front, rfl⟩ : ∃ front, hdr = front ++ tailText := by
    obtain ⟨type, digits, _, rfl⟩ := header
    exact ⟨_, rfl⟩
  have inside : front.length < (toldFive ++ [1, 2, 3]).length := by
    rw [← all, List.length_append, List.length_append, tailText, List.length_cons]
    omega
  have blank := toldFive_blank front.length inside (by
    rw [← all, List.append_assoc, List.drop_left]
    rfl)
  have parts := List.append_inj all (by
    rw [List.length_append]
    exact blank)
  rw [parts.1, parts.2] at header
  exact absurd (wellFormed_single header five) (by decide)

def KeepsRows (s : State) : Event → Prop
  | .run number answers => Fits s (.run number answers) ∧ (parks number answers s → answers.slept)
  | _ => True

instance (s : State) : ∀ event, Decidable (KeepsRows s event)
  | .run _ _ => by
      unfold KeepsRows
      infer_instance
  | .spawn _ _ | .next | .reply _ _ _ | .deinit | .knobs _ _ => isTrue trivial

theorem KeepsRows.fits (keeps : KeepsRows s event) : Fits s event := by
  cases event with
  | run => exact keeps.1
  | spawn | next | reply | deinit | knobs => trivial

/-- Whenever a step returned anything but `WAITING`, or `spawn_conn` failed, all is given
back. -/
structure Returned (s : State) : Prop where
  whole : s.torn = false
  ended : ∀ (number : Nat) life, s.lives[number]? = some life →
    ∀ status, life.pc = .ended status →
      ∃ c, life.last = some c ∧ c.closes = 1 ∧ c.takes ≤ 1 ∧ c.frees = c.takes ∧
        (∀ (slot : Nat) c', s.conns[slot]? = some (some c') → c'.id ≠ number) ∧
          ∀ (i : Nat) d, s.defers[i]? = some d → d.used → d.by_ ≠ number
  used : s.connsUsed = s.conns.countP Option.isSome

def Ended (s : State) : Prop :=
  ∀ (number : Nat) life, s.lives[number]? = some life →
    ∀ status, life.pc = .ended status → life.last ≠ none

variable {number : Nat}

section Ended

variable (ended : Ended s)
include ended

theorem Ended.goto {life : Life} (at_ : s.lives[number]? = some life) {pc : Pc}
    (closed : ∀ status, pc = .ended status → life.last ≠ none) : Ended (s.goto number pc) := by
  intro number' life' there status isEnded
  rcases goto_cases at_ there with ⟨_, rfl⟩ | ⟨_, there⟩
  · exact closed status isEnded
  · exact ended number' life' there status isEnded

theorem Ended.settle (inv : Inv s) {life : Life} {c was : Conn}
    (at_ : At number s life c) (same : was.id = c.id) {outcome : Outcome}
    (proper : outcome.Proper was) : Ended (settle number life.slot s outcome) := by
  cases outcome with
  | stays status now =>
      obtain ⟨rfl, _⟩ := proper
      have moved : Ended (s.goto number .ready) := ended.goto at_.live nofun
      exact moved
  | closes status now =>
      have mine := ((Conn.id_same proper.1.accounts).trans same).trans (inv.own_at at_).1
      have live : s.lives[now.id]? = some life := mine ▸ at_.live
      have closed : Ended (s.close life.slot now) := by
        intro number' life' there status' isEnded
        rcases close_cases live there with ⟨_, rfl⟩ | ⟨_, there⟩
        · exact nofun
        · exact ended number' life' there status' isEnded
      have at' : (s.close life.slot now).lives[number]? =
          some { life with last := some now.release } := by
        rw [State.close, modify_eq_set_of live, mine, set_here at_.live]
      exact closed.goto at' fun _ _ => nofun
  | torn => cases proper

theorem Ended.stepped (inv : Inv s) {answers : Answers} {t : State}
    (stepped : Stepped number answers s t) (slept : parks number answers s → answers.slept) :
    Ended t := by
  have sleeps (parking : parks number answers s) (status : Status) :
      answers.sleep.pc ≠ .ended status := by
    rw [Answers.sleep, if_pos (slept parking)]
    exact nofun
  cases stepped with
  | idle => exact ended
  | lost at_ _ absent =>
      refine ended.goto at_ fun _ _ open_ => ?_
      rcases inv.life number _ at_ with ⟨_, c, row, _⟩ | ⟨c, closed, _⟩
      · rw [connAt_some.mpr row] at absent
        cases absent
      · rw [open_] at closed
        cases closed
  | settles at_ quieted _ same _ proper =>
      obtain ⟨conns, lives, _⟩ := quieted.frame
      have before : Ended _ := fun number' life' there => ended number' life' (lives ▸ there)
      exact before.settle (inv.quieted at_.row quieted)
        ⟨lives ▸ at_.live, at_.going, conns ▸ at_.row⟩ same proper
  | tears => exact ended
  | waits at_ _ _ _ pc_eq =>
      refine Ended.goto (s := s.put _ _) ended at_.live fun status isEnded => ?_
      rcases pc_eq with ⟨rfl, parking⟩ | rfl
      · exact absurd isEnded (sleeps parking status)
      · cases isEnded
  | asks at_ _ _ parking =>
      have moved : Ended (s.goto number answers.sleep.pc) :=
        ended.goto at_.live fun status isEnded => absurd isEnded (sleeps parking status)
      exact moved

theorem Ended.closeRow (rows : Rows s) (slot : Nat) : Ended (closeRow s slot) := by
  unfold Asgi.closeRow
  split
  · exact ended
  · rename_i c row
    obtain ⟨_, _, life, at_, _⟩ := rows.row slot c (connAt_some.mp row)
    intro number' life' there status isEnded
    rcases close_cases at_ there with ⟨_, rfl⟩ | ⟨_, there⟩
    · exact nofun
    · exact ended number' life' there status isEnded

theorem Ended.deinit (inv : Inv s) : Ended (deinit s) := by
  have all (slots : List Nat) (t : State) (ended : Ended t) (rows : Rows t) :
      Ended (slots.foldl Asgi.closeRow t) := by
    induction slots generalizing t with
    | nil => exact ended
    | cons slot slots ih =>
        exact ih _ (ended.closeRow rows slot) (rows.closeRow slot)
  exact all _ s ended inv.toRows

theorem Ended.append (life : Life)
    (closed : ∀ status, life.pc = .ended status → life.last ≠ none) :
    Ended { s with lives := s.lives ++ [life] } := by
  intro number' life' there status isEnded
  rcases append_cases there with ⟨_, rfl⟩ | there
  · exact closed status isEnded
  · exact ended number' life' there status isEnded

theorem Ended.spawnConn (fd : Nat) (answers : Spawn) : Ended (spawnConn fd answers s) := by
  have reject := ended.append ⟨0, .ended .error,
    some { Conn.fresh s.lives.length fd with closes := 0 + 1 }⟩ fun _ _ => nofun
  unfold Asgi.spawnConn
  dsimp only
  rcases connSlot_cases answers s with none_ | ⟨_, more, none_ | ⟨slot, _, found⟩⟩
  · rw [none_]
    exact reject
  · rw [none_]
    exact reject
  · rw [found]
    dsimp only
    split
    · exact reject
    · exact ended.append ⟨slot, .ready, none⟩ nofun

theorem Ended.step (inv : Inv s) (keeps : KeepsRows s event) : Ended (step s event) := by
  unfold Asgi.step
  split
  · exact ended
  · cases event with
    | spawn fd answers => exact ended.spawnConn fd answers
    | run number answers =>
        exact ended.stepped inv (stepConnFrame_stepped inv number answers) keeps.2
    | next =>
        dsimp only
        rcases deferNext_cases s with same | ⟨i, d, _, _, _, taken⟩
        · rw [same]
          exact ended
        · rw [taken]
          exact ended
    | reply given ctype room =>
        dsimp only
        rcases deferReply_cases given ctype room s with same | ⟨_, _, _, _, _, _, _, _, replied⟩
        · rw [same]
          exact ended
        · rw [replied]
          exact ended
    | deinit =>
        dsimp only
        split
        · exact ended.deinit inv
        · exact ended
    | knobs => exact ended

end Ended

structure Settled (s : State) : Prop extends Runs s where
  ended : Ended s

theorem settled_boot (routes : List Route) : Settled (State.boot routes) :=
  { runs_boot routes with ended := fun _ _ here => by cases here }

theorem Settled.step (settled : Settled s) (keeps : KeepsRows s event) : Settled (step s event) :=
  { settled.toRuns.step keeps.fits with ended := settled.ended.step settled.toInv keeps }

theorem Settled.returned (settled : Settled s) : Returned s where
  whole := settled.whole
  used := settled.used
  ended number life at_ status isEnded := by
    rcases settled.life number life at_ with ⟨open_, _⟩ | ⟨c, closed, _, shut⟩
    · exact absurd open_ (settled.ended number life at_ status isEnded)
    · have away (slot : Nat) (c' : Conn) (row : s.conns[slot]? = some (some c')) :
          c'.id ≠ number := by
        rintro rfl
        obtain ⟨_, _, life', at', _, fresh⟩ := settled.row slot c' row
        rw [at_] at at'
        cases at'
        rw [fresh] at closed
        cases closed
      refine ⟨c, closed, shut.closes, shut.once, shut.freed, away, fun i d here used => ?_⟩
      obtain ⟨c', row, mine, _⟩ := settled.link i d here used
      exact mine ▸ away d.conn c' row

theorem returned_of_keeps (routes : List Route) (run : List Event)
    (keeps : Along step KeepsRows (State.boot routes) run) :
    Returned (run.foldl step (State.boot routes)) :=
  (keeps.invariant (fun _ _ settled keeps => settled.step keeps) (settled_boot routes)).returned

def deferRoute : Route where
  used := true
  method := ⟨ascii "GET", by decide +kernel⟩
  path := ⟨ascii "/d", by decide +kernel⟩
  body := []
  bodyLen := 0
  handler := false
  ext := none
  ctype := some ⟨ascii "text/html", by decide +kernel⟩
  stream := false
  streamSize := false
  defer := true
  whole := Nat.le_refl 0
  small := Nat.two_pow_pos 32

/-- A reply that is sent, a failed `spawn_conn`, and `deinit` before the second answer. -/
def answeredOnce : List Event :=
  [.spawn 7 granted, .spawn 8 { granted with task := false },
    .run 0 { Answers.idle with recv := some (request "/d") }, .next,
    .reply (.bytes [1, 2, 3]) none true,
    .run 0 { Answers.idle with header := some 1000, body := some 9 },
    .spawn 9 granted, .run 2 { Answers.idle with recv := some (request "/d") }, .deinit,
    .run 2 Answers.idle]

theorem returned_of_keeps_answeredOnce :
    Returned (answeredOnce.foldl step (State.boot [deferRoute])) :=
  returned_of_keeps [deferRoute] answeredOnce (by decide +kernel)

def sleepless : List Event :=
  [.spawn 7 granted, .run 0 { Answers.idle with recv := some (request "/d"), slept := false }]

theorem returned_fails : ¬ Returned (sleepless.foldl step (State.boot [deferRoute])) := by
  intro returned
  have ended : (sleepless.foldl step (State.boot [deferRoute])).lives =
      [⟨0, .ended .error, none⟩] := by
    decide +kernel
  obtain ⟨c, closed, _⟩ := returned.ended 0 ⟨0, .ended .error, none⟩ (by rw [ended]; rfl) .error rfl
  cases closed

end Metal.Net.Asgi
