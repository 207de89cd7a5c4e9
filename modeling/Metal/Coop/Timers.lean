import Metal.Coop.Plain
import Metal.Coop.Schedule

namespace Metal.Coop

open Metal.Lib

/-! The timer list, over calls of `sleep_us` and `fire_timers` at clock readings that do not
go back. -/

variable {N : Nat} {α β : Type}

-- `armedFor` is the task of the last timer given to `timer_insert`, `popped` the timers
-- taken off the list, in order.
structure Clocked (N : Nat) where
  mem : Memory N
  reading : Nat
  armedFor : TaskPtr
  popped : List Timer

def Clocked.after (s : Clocked N) (mem : Memory N) : (o : Op) → o.Ret → Clocked N
  | .clock, now => { s with mem := mem, reading := now }
  | .insertTimer tm, _ => { s with mem := mem, armedFor := tm.task }
  | .popTimer _, some _ => { s with mem := mem, popped := s.popped ++ s.mem.timers.take 1 }
  | _, _ => { s with mem := mem }

/-- One operation of core `r`, after other cores moved anything but the timers. The clock is
of 64 bits and does not go back. -/
def timerExec (r : Fin N) (o : Op) (s : Clocked N) (answer : o.Ret) (s' : Clocked N) : Prop :=
  ∃ seen choice mem, seen.timers = s.mem.timers ∧
    memExec r o choice seen = some (answer, mem) ∧ s' = s.after mem o answer ∧
    s.reading ≤ s'.reading ∧ s'.reading < 2 ^ 64

/-! The timers that were armed, and the calls that could have fired them. -/

inductive Event
  | arm (due : Nat) (task : TaskPtr)
  | fire (reading : Nat)

/-- A timer by the place of its arming in the run and its exact due time. -/
structure Armed where
  place : Nat
  due : Nat
  task : TaskPtr

def Armed.timer (a : Armed) : Timer := ⟨a.due, a.task⟩

def armingAt : Event × Nat → Option Armed
  | (.arm due task, place) => some ⟨place, due, task⟩
  | (.fire _, _) => none

def armings (events : List Event) : List Armed := events.zipIdx.filterMap armingAt

/-- No call of `fire_timers` since the arming has read the exact due time or more. -/
def Waiting (events : List Event) (a : Armed) : Prop :=
  ∀ place reading, a.place < place → events[place]? = some (.fire reading) → reading < a.due

def InTurn (queue : List Armed) : Prop :=
  queue.Pairwise fun a b => a.due < b.due ∨ a.due = b.due ∧ a.place < b.place

/-- A run, with the calls of `sleep_us` that armed a timer and those of `fire_timers`. -/
inductive TimerRun (fits : Nat → Nat → Prop) (r : Fin N) (n : Nat) :
    List Event → Clocked N → Prop
  | start {s : Clocked N} (empty : s.mem.timers = []) (fresh : s.popped = []) :
      TimerRun fits r n [] s
  | slept {events : List Event} {s s' : Clocked N} {self : CoroPtr} {us : Nat}
      (before : TimerRun fits r n events s) (word : us < 2 ^ 64)
      (ends : Program.Ends (timerExec r) (body n) (sleepUs self us) s .waiting s')
      (fit : fits s'.reading us) :
      TimerRun fits r n (events ++ [Event.arm (s'.reading + us) s'.armedFor]) s'
  | refused {events : List Event} {s s' : Clocked N} {self : CoroPtr} {us : Nat}
      (before : TimerRun fits r n events s)
      (ends : Program.Ends (timerExec r) (body n) (sleepUs self us) s .error s') :
      TimerRun fits r n events s'
  | fired {events : List Event} {s s' : Clocked N} (before : TimerRun fits r n events s)
      (ends : Program.Ends (timerExec r) (body n) fireTimers s () s') :
      TimerRun fits r n (events ++ [Event.fire s'.reading]) s'

/-- Every armed timer is fired once or still in the list, in its turn; it is in the list
until a call of `fire_timers` reads its exact due time or more. -/
def TimersExact (events : List Event) (s : Clocked N) : Prop :=
  ∃ fired queue : List Armed, s.popped = fired.map Armed.timer ∧
    s.mem.timers = queue.map Armed.timer ∧ (fired ++ queue).Perm (armings events) ∧
    InTurn queue ∧ ∀ a ∈ armings events, a ∈ queue ↔ Waiting events a

def timerPre : Proc → Clocked N → Prop
  | .taskOf _, _ => True
  | .fireTimers now, s => s.reading = now
  | _, _ => False

/-- What `fire_timers` has done: the timers up to its last reading are gone, in order. -/
structure Fired (s s' : Clocked N) (gone : List Timer) : Prop where
  timers : s.mem.timers = gone ++ s'.mem.timers
  popped : s'.popped = s.popped ++ gone
  due : ∀ tm ∈ gone, tm.deadlineUs ≤ s'.reading
  rest : ∀ tm ∈ s'.mem.timers.head?, s'.reading < tm.deadlineUs
  later : s.reading ≤ s'.reading

structure Unfired (s s' : Clocked N) : Prop where
  timers : s'.mem.timers = s.mem.timers
  popped : s'.popped = s.popped
  reading : s'.reading = s.reading
  armedFor : s'.armedFor = s.armedFor

def timerPost : (p : Proc) → Clocked N → p.Res → Clocked N → Prop
  | .taskOf _, s, _, s' => Unfired s s'
  | .fireTimers _, s, _, s' => ∃ gone, Fired s s' gone
  | _, _, _, _ => True

def timerContract (r : Fin N) : Contract CoopSig (Clocked N) Unit where
  exec := timerExec r
  enter _ place := place
  sees _ _ _ := True
  pre _ := timerPre
  post _ := timerPost

theorem Unfired.refl (s : Clocked N) : Unfired s s := ⟨rfl, rfl, rfl, rfl⟩

theorem Unfired.trans {s s' s'' : Clocked N} (first : Unfired s s') (second : Unfired s' s'') :
    Unfired s s'' where
  timers := second.timers.trans first.timers
  popped := second.popped.trans first.popped
  reading := second.reading.trans first.reading
  armedFor := second.armedFor.trans first.armedFor

section Exec

variable {r : Fin N} {s s' : Clocked N}

def Op.timeless : Op → Bool
  | .clock | .insertTimer _ | .popTimer _ => false
  | _ => true

theorem timeless_of_plain {o : Op} (plain : o.plain = true) : o.timeless = true := by
  cases o <;> first | rfl | cases plain

theorem timerExec_unfired {o : Op} {answer : o.Ret} (timeless : o.timeless = true)
    (ran : timerExec r o s answer s') : Unfired s s' := by
  obtain ⟨seen, choice, mem, same, result, rfl, _⟩ := ran
  have timers := (memExec_follows result).timers
  rw [same] at timers
  cases o with
  | clock | insertTimer tm | popTimer now => cases timeless
  | _ => exact ⟨timers, rfl, rfl, rfl⟩

theorem timerExec_clock {now : Nat} (ran : timerExec r .clock s now s') :
    s'.mem.timers = s.mem.timers ∧ s'.popped = s.popped ∧ s'.reading = now ∧
      s.reading ≤ now := by
  obtain ⟨seen, choice, mem, same, result, rfl, later, _⟩ := ran
  have timers := (memExec_follows result).timers
  rw [same] at timers
  exact ⟨timers, rfl, rfl, later⟩

theorem timerExec_insert {tm : Timer} (ran : timerExec r (.insertTimer tm) s () s') :
    s'.mem.timers = timerInsert tm s.mem.timers ∧ s'.popped = s.popped ∧
      s'.reading = s.reading ∧ s'.armedFor = tm.task := by
  obtain ⟨seen, choice, mem, same, result, rfl, _⟩ := ran
  have timers := (memExec_follows result).timers
  rw [same] at timers
  exact ⟨timers, rfl, rfl, rfl⟩

theorem timerExec_none {now : Nat} (ran : timerExec r (.popTimer now) s none s') :
    Unfired s s' ∧ ∀ tm ∈ s.mem.timers.head?, now < tm.deadlineUs := by
  obtain ⟨seen, choice, mem, same, result, rfl, _⟩ := ran
  have timers := (memExec_follows result).timers
  rw [same] at timers
  refine ⟨⟨timers, rfl, rfl, rfl⟩, ?_⟩
  rw [← same]
  simp only [memExec] at result
  split at result
  · rename_i empty
    simp [empty]
  · rename_i tm rest found
    split at result
    · cases result
    · rename_i early
      simpa [found] using early

theorem timerExec_some {now : Nat} {t : TaskPtr}
    (ran : timerExec r (.popTimer now) s (some t) s') :
    ∃ tm, s.mem.timers = tm :: s'.mem.timers ∧ s'.popped = s.popped ++ [tm] ∧
      s'.reading = s.reading ∧ tm.deadlineUs ≤ now := by
  obtain ⟨seen, choice, mem, same, result, rfl, _⟩ := ran
  simp only [memExec] at result
  split at result
  · cases result
  · rename_i tm rest found
    split at result
    · rename_i due
      cases result
      rw [same] at found
      exact ⟨tm, found, by simp [Clocked.after, found], rfl, due⟩
    · cases result

theorem Plain.unfired {program : CoopProgram α} (plain : Plain program) :
    (timerContract r).wp () program s fun _ s' => Unfired s s' := by
  refine Contract.wp_of_only ?_ (fun _ _ => False.elim) plain (.refl s)
  intro o (s' : Clocked N) fits (kept : Unfired s s')
  exact ⟨trivial, fun answer s'' ran =>
    kept.trans (timerExec_unfired (timeless_of_plain fits) ran)⟩

theorem timer_plain {program : CoopProgram α} {f : α → CoopProgram β}
    {holds : β → Clocked N → Prop} (plain : Plain program)
    (rest : ∀ value s', Unfired s s' → (timerContract r).wp () (f value) s' holds) :
    (timerContract r).wp () (program.bind f) s holds :=
  Contract.wp_bind.mpr (Contract.wp_mono rest plain.unfired)

theorem timer_op {o : Op} {next : o.Ret → CoopProgram β} {holds : β → Clocked N → Prop}
    (timeless : o.timeless = true)
    (rest : ∀ answer s', Unfired s s' → (timerContract r).wp () (next answer) s' holds) :
    (timerContract r).wp () (.op o next) s holds :=
  ⟨trivial, fun answer s' ran => rest answer s' (timerExec_unfired timeless ran)⟩

end Exec

section Functions

variable {r : Fin N} {n : Nat} {s s' : Clocked N} {self : CoroPtr}

/-- What `sleep_us` has done: it has armed one timer, or none. -/
def Slept (us : Nat) (s : Clocked N) (st : Status) (s' : Clocked N) : Prop :=
  (st = .waiting ∧ s'.popped = s.popped ∧ s.reading ≤ s'.reading ∧
    s'.mem.timers = timerInsert ⟨deadline s'.reading us, s'.armedFor⟩ s.mem.timers) ∨
  (st = .error ∧ Unfired s s')

theorem timer_sleepUs (us : Nat) :
    (timerContract r).wp () (sleepUs self us) s (Slept us s) := by
  refine ⟨trivial, fun found s₁ (kept : Unfired s s₁) => ?_⟩
  cases found with
  | none => exact .inr ⟨rfl, kept⟩
  | some t =>
      refine timer_op rfl fun _ s₂ kept₂ => timer_op rfl fun granted s₃ kept₃ => ?_
      have still := (kept.trans kept₂).trans kept₃
      cases granted with
      | false => exact .inr ⟨rfl, still⟩
      | true =>
          refine ⟨trivial, fun now s₄ ranClock => timer_op rfl fun _ s₅ kept₅ => ?_⟩
          refine ⟨trivial, fun _ s₆ ranInsert => timer_op rfl fun _ s₇ kept₇ => ?_⟩
          obtain ⟨timers₄, popped₄, reading₄, later⟩ := timerExec_clock ranClock
          obtain ⟨timers₆, popped₆, reading₆, task₆⟩ := timerExec_insert ranInsert
          have readingOf : s₇.reading = now :=
            kept₇.reading.trans (reading₆.trans (kept₅.reading.trans reading₄))
          refine .inl ⟨rfl, ?_, ?_, ?_⟩
          · rw [kept₇.popped, popped₆, kept₅.popped, popped₄, still.popped]
          · rw [readingOf, ← still.reading]
            exact later
          · rw [kept₇.timers, timers₆, kept₅.timers, timers₄, still.timers, readingOf,
              kept₇.armedFor, task₆]

theorem timer_fireTimersBody {now : Nat} (reads : s.reading = now) :
    (timerContract r).wp () (body n (.fireTimers now)) s fun _ s' => ∃ gone, Fired s s' gone := by
  refine ⟨trivial, fun popped s₁ ran => ?_⟩
  cases popped with
  | none =>
      obtain ⟨kept, early⟩ := timerExec_none ran
      refine ⟨[], by simp [kept.timers], by simp [kept.popped], by simp, ?_, kept.reading.ge⟩
      rw [kept.timers, kept.reading, reads]
      exact early
  | some t =>
      obtain ⟨tm, timers₁, popped₁, reading₁, due⟩ := timerExec_some ran
      change (timerContract r).wp () ((pushTaskRef n t).bind fun _ =>
        (taskUnref t).bind fun _ => clock.bind fun later => invoke (.fireTimers later)) s₁ _
      refine timer_plain plain_pushTaskRef fun _ s₂ kept₂ => ?_
      refine timer_plain plain_taskUnref fun _ s₃ kept₃ => ?_
      refine ⟨trivial, fun later s₄ ranClock => ?_⟩
      obtain ⟨timers₄, popped₄, reading₄, grew⟩ := timerExec_clock ranClock
      refine ⟨reading₄, fun _ s₅ ⟨gone, fired⟩ => ⟨tm :: gone, ?_⟩⟩
      have kept := kept₂.trans kept₃
      have start : s.reading ≤ s₄.reading := by
        rw [← reading₁, ← kept.reading, reading₄]
        exact grew
      refine ⟨?_, ?_, ?_, fired.rest, start.trans fired.later⟩
      · rw [timers₁, ← kept.timers, ← timers₄, fired.timers, List.cons_append]
      · rw [fired.popped, popped₄, kept.popped, popped₁, List.append_assoc, List.singleton_append]
      · intro other among
        rcases List.mem_cons.mp among with rfl | among
        · exact (due.trans (reads.symm.le.trans start)).trans fired.later
        · exact fired.due other among

theorem timers_verified : (timerContract r).Verified (body n) := by
  intro _ p s pre
  cases p with
  | taskOf c =>
      refine timer_op rfl fun found s₁ kept₁ => ?_
      cases found with
      | some t => exact kept₁
      | none =>
          refine timer_op rfl fun parent s₂ kept₂ => ?_
          cases parent with
          | none => exact kept₁.trans kept₂
          | some parent => exact ⟨trivial, fun _ s₃ kept₃ => (kept₁.trans kept₂).trans kept₃⟩
  | fireTimers now => exact timer_fireTimersBody pre
  | _ => cases pre

theorem timer_fireTimers :
    (timerContract r).wp () fireTimers s fun _ s' => ∃ gone, Fired s s' gone := by
  refine ⟨trivial, fun now s₁ ran => ?_⟩
  obtain ⟨timers, popped, reading, later⟩ := timerExec_clock ran
  refine ⟨reading, fun _ s₂ ⟨gone, fired⟩ => ⟨gone, ?_, ?_, fired.due, fired.rest, ?_⟩⟩
  · rw [← timers, fired.timers]
  · rw [fired.popped, popped]
  · exact (reading ▸ later).trans fired.later

end Functions

/-! The list against the timers that were armed. -/

section Events

variable {events : List Event} {event : Event} {queue : List Armed} {a : Armed}

theorem timerInsert_cons (a first : Armed) (rest : List Armed) :
    timerInsert a.timer ((first :: rest).map Armed.timer) =
      if first.due ≤ a.due then first.timer :: timerInsert a.timer (rest.map Armed.timer)
      else a.timer :: (first :: rest).map Armed.timer := rfl

theorem InTurn.late {now : Nat} (turn : InTurn queue)
    (early : ∀ tm ∈ (queue.map Armed.timer).head?, now < tm.deadlineUs) :
    ∀ a ∈ queue, now < a.due := by
  cases queue with
  | nil => simp
  | cons first rest =>
      have earlyFirst : now < first.due := early first.timer rfl
      intro a among
      rcases List.mem_cons.mp among with rfl | among
      · exact earlyFirst
      · rcases (List.pairwise_cons.mp turn).1 a among with before | ⟨same, -⟩
        · exact earlyFirst.trans before
        · exact same ▸ earlyFirst

theorem inTurn_insert (turn : InTurn queue) (newest : ∀ b ∈ queue, b.place < a.place) :
    ∃ queue', timerInsert a.timer (queue.map Armed.timer) = queue'.map Armed.timer ∧
      queue'.Perm (a :: queue) ∧ InTurn queue' := by
  induction queue with
  | nil => exact ⟨[a], rfl, .refl _, List.pairwise_singleton _ a⟩
  | cons first rest ih =>
      obtain ⟨behind, turn'⟩ := List.pairwise_cons.mp turn
      have older := newest first List.mem_cons_self
      by_cases notLater : first.due ≤ a.due
      · obtain ⟨queue', inserted, perm, turn''⟩ :=
          ih turn' fun b among => newest b (List.mem_cons_of_mem _ among)
        refine ⟨first :: queue', ?_, ?_, ?_⟩
        · rw [timerInsert_cons, if_pos notLater, inserted, List.map_cons]
        · exact (perm.cons first).trans (.swap a first rest)
        · refine List.pairwise_cons.mpr ⟨fun b among => ?_, turn''⟩
          rcases List.mem_cons.mp (perm.mem_iff.mp among) with rfl | among
          · omega
          · exact behind b among
      · refine ⟨a :: first :: rest, ?_, .refl _, ?_⟩
        · rw [timerInsert_cons, if_neg notLater]
          rfl
        · refine List.pairwise_cons.mpr ⟨fun b among => ?_, turn⟩
          rcases List.mem_cons.mp among with rfl | among
          · omega
          · have := behind b among
            omega

theorem armings_append (events : List Event) (event : Event) :
    armings (events ++ [event]) = armings events ++ (armingAt (event, events.length)).toList := by
  unfold armings
  rw [List.zipIdx_append, List.filterMap_append]
  cases event <;> simp [armingAt]

theorem place_of_armings (among : a ∈ armings events) : a.place < events.length := by
  obtain ⟨⟨event, place⟩, there, found⟩ := List.mem_filterMap.mp among
  have bound := (List.mem_zipIdx there).2.1
  cases event with
  | arm due task =>
      cases found
      simpa using bound
  | fire reading => cases found

theorem waiting_append :
    Waiting (events ++ [event]) a ↔ Waiting events a ∧
      ∀ reading, event = .fire reading → a.place < events.length → reading < a.due := by
  constructor
  · intro waiting
    refine ⟨fun place reading after found => waiting place reading after ?_, ?_⟩
    · rw [List.getElem?_append_left (List.getElem?_eq_some_iff.mp found).1]
      exact found
    · rintro reading rfl after
      exact waiting events.length reading after List.getElem?_concat_length
  · rintro ⟨waiting, last⟩ place reading after found
    rcases Nat.lt_or_ge place events.length with inside | outside
    · rw [List.getElem?_append_left inside] at found
      exact waiting place reading after found
    · have there := (List.getElem?_eq_some_iff.mp found).1
      rw [List.length_append, List.length_singleton] at there
      obtain rfl : place = events.length := by omega
      rw [List.getElem?_concat_length] at found
      exact last reading (Option.some.inj found) after

end Events

section Runs

variable {r : Fin N} {n : Nat} {events : List Event} {s s' : Clocked N}

theorem Unfired.exact (kept : Unfired s s') (exactly : TimersExact events s) :
    TimersExact events s' := by
  obtain ⟨fired, queue, popped, timers, rest⟩ := exactly
  exact ⟨fired, queue, kept.popped.trans popped, kept.timers.trans timers, rest⟩

theorem TimersExact.arm {due : Nat} {task : TaskPtr} (exactly : TimersExact events s)
    (popped : s'.popped = s.popped) (timers : s'.mem.timers = timerInsert ⟨due, task⟩ s.mem.timers) :
    TimersExact (events ++ [Event.arm due task]) s' := by
  obtain ⟨fired, queue, poppedBefore, before, perm, turn, waits⟩ := exactly
  have all : armings (events ++ [Event.arm due task]) =
      armings events ++ [⟨events.length, due, task⟩] :=
    armings_append events _
  have older {b : Armed} (among : b ∈ queue) : b ∈ armings events :=
    perm.mem_iff.mp (List.mem_append_right fired among)
  obtain ⟨queue', inserted, perm', turn'⟩ :=
    inTurn_insert (a := ⟨events.length, due, task⟩) turn fun b among => place_of_armings (older among)
  refine ⟨fired, queue', popped.trans poppedBefore, ?_, ?_, turn', fun b among => ?_⟩
  · rw [timers, before]
    exact inserted
  · rw [all]
    refine (perm'.append_left fired).trans (List.perm_middle.trans ?_)
    exact (perm.cons _).trans (List.perm_append_singleton _ _).symm
  · have same : Waiting (events ++ [Event.arm due task]) b ↔ Waiting events b := by
      rw [waiting_append]
      exact and_iff_left fun _ other => nomatch other
    rw [perm'.mem_iff, same, List.mem_cons]
    rcases List.mem_append.mp (all ▸ among) with among | among
    · rw [← waits b among]
      refine or_iff_right fun fresh => ?_
      have := place_of_armings among
      rw [fresh] at this
      exact absurd this (Nat.lt_irrefl _)
    · obtain rfl := List.mem_singleton.mp among
      refine iff_of_true (.inl rfl) fun place reading after found => ?_
      have := (List.getElem?_eq_some_iff.mp found).1
      exact absurd after (by simpa using this.le)

theorem TimersExact.fire {gone : List Timer} (exactly : TimersExact events s)
    (fires : Fired s s' gone) : TimersExact (events ++ [Event.fire s'.reading]) s' := by
  obtain ⟨fired, queue, poppedBefore, before, perm, turn, waits⟩ := exactly
  have all : armings (events ++ [Event.fire s'.reading]) = armings events := by
    rw [armings_append]
    exact List.append_nil _
  obtain ⟨now, left, rfl, nowGone, stillThere⟩ :=
    List.map_eq_append_iff.mp (before.symm.trans fires.timers)
  have later : InTurn left := (List.pairwise_append.mp turn).2.1
  refine ⟨fired ++ now, left, ?_, stillThere.symm, ?_, ?_, fun a among => ?_⟩
  · rw [fires.popped, poppedBefore, List.map_append, nowGone]
  · rw [all, List.append_assoc]
    exact perm
  · exact later
  · rw [all] at among
    have inTime : Waiting (events ++ [Event.fire s'.reading]) a ↔
        Waiting events a ∧ s'.reading < a.due := by
      rw [waiting_append]
      refine and_congr_right fun _ => ⟨fun last => last _ rfl (place_of_armings among), ?_⟩
      rintro early _ same -
      cases same
      exact early
    rw [inTime, ← waits a among, List.mem_append]
    constructor
    · intro stays
      exact ⟨.inr stays, later.late (stillThere ▸ fires.rest) a stays⟩
    · rintro ⟨isNow | stays, early⟩
      · have due := fires.due a.timer (nowGone ▸ List.mem_map_of_mem isNow)
        exact absurd early (Nat.not_lt.mpr due)
      · exact stays

/-- As long as no sum of a clock reading and a sleep passes 64 bits. -/
theorem timers_exact (run : TimerRun (fun now us => now + us < 2 ^ 64) r n events s) :
    TimersExact events s := by
  induction run with
  | start empty fresh =>
      exact ⟨[], [], fresh, empty, .refl _, .nil, fun a among => nomatch among⟩
  | @slept events s s' self us _ word ends fit exactly =>
      have slept : Slept us s .waiting s' :=
        Contract.holds_of_ends timers_verified (timer_sleepUs us) ends
      rcases slept with ⟨-, popped, -, timers⟩ | ⟨other, -⟩
      · rw [deadline, Nat.mod_eq_of_lt fit] at timers
        exact exactly.arm popped timers
      · cases other
  | @refused events s s' self us _ ends exactly =>
      have slept : Slept us s .error s' :=
        Contract.holds_of_ends timers_verified (timer_sleepUs us) ends
      rcases slept with ⟨other, -⟩ | ⟨-, kept⟩
      · cases other
      · exact kept.exact exactly
  | fired _ ends exactly =>
      obtain ⟨gone, fires⟩ := Contract.holds_of_ends timers_verified timer_fireTimers ends
      exact exactly.fire fires

end Runs

/-! One timer for task 1, and one call of `fire_timers`. -/

def resting : Memory 2 :=
  { pair.memory with
    tasks := Function.update pair.memory.tasks 1 (Task.fresh 5)
    coros := Function.update pair.memory.coros 5 { pair.memory.coros 5 with task := some 1 } }

def playTimer (o : Op) (s : Clocked 2 × List Choice) :
    Option (o.Ret × Clocked 2 × List Choice) :=
  match playOp (fun _ _ _ => true) o (s.1.mem, s.2) with
  | none => none
  | some (answer, mem, script) =>
      let after := s.1.after mem o answer
      if s.1.reading ≤ after.reading ∧ after.reading < 2 ^ 64 then some (answer, after, script)
      else none

theorem playTimer_follows (o : Op) (s : Clocked 2 × List Choice) (answer : o.Ret)
    (t : Clocked 2 × List Choice) (played : playTimer o s = some (answer, t)) :
    timerExec 0 o s.1 answer t.1 := by
  unfold playTimer at played
  split at played
  · cases played
  · rename_i reply mem script result
    dsimp only at played
    split at played
    · rename_i fits
      cases played
      obtain ⟨_, choice, ran⟩ := playOp_result result
      exact ⟨s.1.mem, choice, mem, rfl, ran, rfl, fits⟩
    · cases played

def sleepThenFire (us : Nat) : CoopProgram Unit :=
  (sleepUs 5 us).bind fun st => if st = .waiting then fireTimers else perform .crash >>= nofun

theorem run_sleepThenFire (fits : Nat → Nat → Prop) {n us : Nat} {s t : Clocked 2}
    (empty : s.mem.timers = []) (fresh : s.popped = []) (word : us < 2 ^ 64)
    (fit : ∀ now, now ≤ t.reading → fits now us)
    (ends : Program.Ends (timerExec 0) (body n) (sleepThenFire us) s () t) :
    ∃ now task, TimerRun fits 0 n [.arm (now + us) task, .fire t.reading] t := by
  obtain ⟨st, s₁, slept, rest⟩ := Program.ends_bind.mp ends
  split at rest
  · rename_i waits
    subst waits
    obtain ⟨gone, fires⟩ := Contract.holds_of_ends timers_verified timer_fireTimers rest
    exact ⟨_, _, .fired (.slept (.start empty fresh) word slept (fit _ fires.later)) rest⟩
  · cases rest with
    | op answers _ =>
        obtain ⟨_, _, _, _, result, _⟩ := answers
        cases result

/-- Armed at 2 for 5 microseconds, and fired at 9. -/
theorem timers_exact_one :
    ∃ events s, s.popped = [⟨7, 1⟩] ∧ s.mem.timers = [] ∧
      TimerRun (fun now us => now + us < 2 ^ 64) (0 : Fin 2) pair.n events s ∧
        TimersExact events s := by
  have played : (Program.play playTimer (body pair.n) (fun _ place => place)
      (fun _ _ _ => false) 200 () (sleepThenFire 5)
      (⟨resting, 0, 0, []⟩, [.grant, .tick 2, .tick 9, .tick 9])).any
        (Program.Outcome.endsIn fun s => s.1.popped == [⟨7, 1⟩] && s.1.mem.timers == [] &&
          s.1.reading == 9) = true := by decide +kernel
  obtain ⟨value, s, ends, found⟩ := Program.ends_of_play playTimer_follows played
  simp only [Bool.and_eq_true, beq_iff_eq] at found
  obtain ⟨⟨popped, timers⟩, reading⟩ := found
  have inRange (now : Nat) (early : now ≤ s.1.reading) : now + 5 < 2 ^ 64 := by omega
  obtain ⟨now, task, run⟩ := run_sleepThenFire (fun now us => now + us < 2 ^ 64) rfl rfl
    (by decide) inRange ends
  exact ⟨_, s.1, popped, timers, run, timers_exact run⟩

/-- The longest sleep, asked for at 1, has the deadline 0. -/
theorem timers_exact_fails :
    ¬∀ events s, TimerRun (fun _ _ => True) (0 : Fin 2) pair.n events s →
      TimersExact events s := by
  intro claim
  have played : (Program.play playTimer (body pair.n) (fun _ place => place)
      (fun _ _ _ => false) 200 () (sleepThenFire (2 ^ 64 - 1))
      (⟨resting, 0, 0, []⟩, [.grant, .tick 1, .tick 1, .tick 1])).any
        (Program.Outcome.endsIn fun s => s.1.popped == [⟨0, 1⟩]) = true := by decide +kernel
  obtain ⟨value, s, ends, found⟩ := Program.ends_of_play playTimer_follows played
  obtain ⟨now, task, run⟩ := run_sleepThenFire (fun _ _ => True) rfl rfl (by decide)
    (fun _ _ => trivial) ends
  obtain ⟨fired, queue, popped, _, perm, _⟩ := claim _ _ run
  rw [beq_iff_eq.mp found] at popped
  obtain ⟨a, rest, rfl, early, _⟩ := List.map_eq_cons_iff.mp popped.symm
  have among : a ∈ armings [.arm (now + (2 ^ 64 - 1)) task, .fire s.1.reading] :=
    perm.mem_iff.mp (List.mem_append_left queue List.mem_cons_self)
  obtain rfl := List.mem_singleton.mp among
  have due : now + (2 ^ 64 - 1) = 0 := congrArg Timer.deadlineUs early
  omega

end Metal.Coop
