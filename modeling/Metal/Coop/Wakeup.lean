import Metal.Coop.Refs

namespace Metal.Coop

open Metal.Lib

/-! Posts and the words that answer them. -/

variable {N : Nat} {setup : Setup N}

/-- A word of `t` in hand, if its state `counts`. -/
def Section.word (counts : Hand → Bool) (t : TaskPtr) : Section → Bool
  | .drive t' hand | .wake t' hand => t' == t && counts hand
  | _ => false

def Hand.pending : Hand → Bool
  | .served => false
  | _ => true

namespace Context

variable {counts : Hand → Bool} {t t' : TaskPtr}

theorem any_serve (other : t' ≠ t) (context : Context) :
    (context.serve t').any (Section.word counts t) =
      context.any (Section.word counts t) := by
  induction context with
  | nil => rfl
  | cons entry rest ih =>
      cases entry with
      | drive t'' hand | wake t'' hand =>
          simp only [serve]
          split
          · rename_i same
            simp [Section.word, same.1, beq_eq_false_iff_ne.mpr other]
          · simp only [List.any_cons, ih]
      | _ => simp only [serve, List.any_cons, ih]

theorem any_tries (same : t' ≠ t ∨ counts .tried = counts .fresh)
    (context : Context) :
    (context.tries t').any (Section.word counts t) =
      context.any (Section.word counts t) := by
  induction context with
  | nil => rfl
  | cons entry rest ih =>
      cases entry with
      | drive t'' hand =>
          simp only [tries]
          split
          · rename_i mine
            rcases same with other | alike
            · simp [Section.word, mine.1, beq_eq_false_iff_ne.mpr other]
            · simp [Section.word, mine.1, mine.2, alike]
          · simp only [List.any_cons, ih]
      | _ => simp only [tries, List.any_cons, ih]

theorem any_setVm (vm : Bool) (context : Context) :
    (context.setVm t' vm).any (Section.word counts t) =
      context.any (Section.word counts t) := by
  cases context with
  | nil => rfl
  | cons entry rest => cases entry <;> rfl

end Context

def servedBy : (o : Op) → o.Ret → Option TaskPtr
  | .ring (.casSlot _ expected desired), stored =>
      if stored = true ∧ expected = ringStEmpty then some (wordTask desired)
      else none
  | .enterTask t, root => if Option.isNone root then some t else none
  | .frame t (.loadStatus _), st =>
      if Status.terminal st then some t else none
  | .park t _, claimed => if Option.isNone claimed then some t else none
  | .stepLeaf t, _ => some t
  | .mark (.drop t), _ | .mark (.refused t), _ | .mark (.leak t), _ => some t
  | _, _ => none

attribute [grind =] servedBy

def triedBy : (o : Op) → o.Ret → Option TaskPtr
  | .ownerIs t _, same => if same then none else some t
  | _, _ => none

section Kept

variable {n : Nat} {r : Fin N} {o : Op} {choice : Choice} {w : World N}
  {answer : o.Ret} {m' : Memory N} {counts : Hand → Bool} {t : TaskPtr}
  {context : Context}

theorem word_of_settled {entry : Section} (served : counts .served = false)
    (settled : entry.settled = true) : entry.word counts t = false := by
  cases entry with
  | drive t' hand | wake t' hand =>
      have done : hand = .served := by simpa [Section.settled] using settled
      simp [Section.word, done, served]
  | _ => rfl

theorem word_track (served : counts .served = false)
    (pre : preOp n o context) (kept : servedBy o answer ≠ some t)
    (tried : triedBy o answer ≠ some t ∨ counts .tried = counts .fresh)
    (held : context.any (Section.word counts t) = true) :
    (track o answer context).any (Section.word counts t) = true := by
  cases o with
  | ring o => cases o with
    | casSlot idx expected desired =>
        cases answer with
        | false => exact held
        | true =>
            rcases pre.2 with ⟨rfl, t', rest, rfl, rfl⟩ | ⟨ready, _⟩
            · have other : t' ≠ t := by simpa [servedBy] using kept
              simp [Context.any_serve other]
              simpa [Section.word] using held
            · simp [ne_empty_of_ready ready]
              exact .inr (by simpa using held)
    | clearSlot idx =>
        obtain ⟨_, t', rest, rfl⟩ := pre
        simp [Section.word] at held ⊢
        exact .inr held
    | _ => exact held
  | subRef t' =>
      obtain ⟨entry, rest, rfl, _, settled⟩ := pre
      simp only [List.any_cons, word_of_settled served settled, Bool.false_or]
        at held
      simp only [track]
      split
      · simpa [Section.word] using held
      · exact held
  | taskFree t' | clearRunning t' | insertTimer tm =>
      obtain ⟨rest, rfl⟩ := pre
      simpa [Section.word] using held
  | addRef t' =>
      simp only [track, List.any_cons, held, Bool.or_true]
  | orDead t' =>
      simp only [track]
      split
      · simp only [List.any_cons, held, Bool.or_true]
      · exact held
  | clearRoot t' outside | casRunning t' =>
      simp only [track]
      split
      · simp only [List.any_cons, held, Bool.or_true]
      · exact held
  | enterTask t' =>
      cases answer with
      | none =>
          have other : t' ≠ t := by simpa [servedBy] using kept
          simpa only [track, Context.any_serve other] using held
      | some c => simp only [track, List.any_cons, held, Bool.or_true]
  | frame t' access => cases access with
    | loadStatus c =>
        simp only [track]
        split
        · rename_i ended
          have other : t' ≠ t := by simpa [servedBy, ended] using kept
          rw [Context.any_serve other]
          exact held
        · exact held
    | _ => exact held
  | popTimer now =>
      cases answer with
      | none => exact held
      | some t' => simp only [track, List.any_cons, held, Bool.or_true]
  | ownerIs t' holder =>
      cases answer with
      | false =>
          have same : t' ≠ t ∨ counts .tried = counts .fresh := by
            simpa [triedBy] using tried
          simpa [Context.any_tries same] using held
      | true => simpa [Context.any_setVm] using held
  | casOwner t' holder =>
      cases answer with
      | false => exact held
      | true => simpa [Context.any_setVm] using held
  | park t' holder =>
      obtain ⟨c, hand, rest, rfl, _⟩ := pre
      rw [List.any_cons] at held
      rcases answer with _ | _ | _
      · have other : t' ≠ t := by simpa [servedBy] using kept
        simp only [track, List.tail_cons, Context.any_serve other]
        exact held
      · simp only [track, List.tail_cons, Context.any_setVm]
        exact held
      · simp only [track, List.tail_cons, List.any_cons, Context.any_setVm]
        exact held
  | handOver t' =>
      cases answer with
      | none => simpa [Context.any_setVm] using held
      | some wake =>
          simp only [track, List.any_cons, Context.any_setVm, held,
            Bool.or_true]
  | stepLeaf t' =>
      have other : t' ≠ t := by simpa [servedBy] using kept
      simpa only [track, Context.any_serve other] using held
  | mark m => cases m with
    | enterPost t' =>
        simp only [track, trackMark, List.any_cons, held, Bool.or_true]
    | leavePost t' | retired t' =>
        obtain ⟨rest, rfl⟩ := pre
        simpa [Section.word] using held
    | leaveTask t' =>
        obtain ⟨c, rest, rfl⟩ := pre
        simpa [Section.word] using held
    | drop t' | refused t' =>
        have other : t' ≠ t := by simpa [servedBy] using kept
        simpa only [track, trackMark, Context.any_serve other] using held
    | leak t' =>
        obtain ⟨hand, rest, rfl⟩ := pre
        have other : t' ≠ t := by simpa [servedBy] using kept
        simpa [Section.word, other] using held
    | unlocked t' =>
        simpa only [track, trackMark, Context.any_setVm] using held
    | _ => exact held
  | _ => exact held

theorem mem_track_of_drive (idx : Nat) {rest : Context}
    (top : context = .claim idx t :: rest) :
    .drive t .fresh ∈ track (.ring (.clearSlot idx)) () context := by
  subst top
  exact List.mem_cons_self

theorem slots_kept (based : Based w) (pre : preOp n o (w.context r))
    (result : memExec r o choice w.mem = some (answer, m'))
    (held : 0 < w.mem.slots n t) :
    0 < m'.slots n t ∨
      .drive t .fresh ∈ track o answer (w.context r) := by
  rw [Memory.slots] at held
  rw [Memory.slots, (memExec_follows result).slot]
  cases o with
  | ring o => cases o with
    | casSlot idx expected desired =>
        left
        cases answer with
        | false => exact held
        | true =>
            have was := casSlot_stored result
            have moved := slots_update pre.1 t w.mem.inbox.slot desired
            rw [was] at moved
            simp only [slotAfter, if_true]
            rcases pre.2 with ⟨rfl, _⟩ | ⟨ready, rfl⟩
            · rw [slotOf_empty] at moved
              omega
            · rw [slotOf_claimedWord t ready] at moved
              omega
    | clearSlot idx =>
        obtain ⟨inside, t', rest, context⟩ := pre
        have member : .claim idx t' ∈ w.context r := by simp [context]
        have moved := slots_update inside t w.mem.inbox.slot ringStEmpty
        rw [slotOf_empty, slotOf_of_claimed t (based.claim_busy member),
          based.claimed r idx t' member] at moved
        by_cases same : t' = t
        · subst same
          exact .inr (mem_track_of_drive idx context)
        · rw [if_neg same] at moved
          simp only [slotAfter]
          omega
    | _ => exact .inl held
  | _ => exact .inl held

theorem slots_pushed {idx : Nat} {desired : Word}
    (pre : preOp n (.ring (.casSlot idx ringStEmpty desired)) (w.context r))
    (result : memExec r (.ring (.casSlot idx ringStEmpty desired)) choice w.mem =
      some (true, m')) :
    0 < m'.slots n (wordTask desired) := by
  have was := casSlot_stored result
  obtain ⟨inside, outcome⟩ := pre
  rcases outcome with ⟨_, t', rest, rfl, _⟩ | ⟨ready, _⟩
  · have moved := slots_update inside t' w.mem.inbox.slot (taskWord t')
    rw [was, slotOf_empty, slotOf_taskWord, if_pos rfl] at moved
    rw [Memory.slots, (memExec_follows result).slot, wordTask_taskWord]
    simp only [slotAfter, if_true]
    omega
  · exact absurd ready (by decide)

end Kept

/-! A post is answered: until the leaf is stepped, the task has a ring slot, a
word in hand that is still pending, or a place on the FIFO. -/

def World.Runnable (n : Nat) (w : World N) (t : TaskPtr) : Prop :=
  0 < w.mem.slots n t ∨ w.mem.Queued t ∨
    ∃ r, (w.context r).any (Section.word Hand.pending t) = true

def NoLostWakeup (n : Nat) (w : World N) : Prop :=
  ∀ t, w.posted t = true → w.Runnable n t

/-- No word is given up while a post of its task is unanswered: not by the
branches that drop it, not by a refused push, and not by parking another
task. -/
def keepsWords : Op → World N → Bool
  | .mark (.drop t), w | .mark (.refused t), w | .mark (.leak t), w =>
      !w.posted t
  | .park t holder, w => t = holder || !w.posted t
  | _, _ => true

structure Answered (n : Nat) (w : World N) : Prop where
  waiters : ∃ l, Waiters w l
  live : ∀ t, w.posted t = true → w.mem.terminal t = false
  runnable : NoLostWakeup n w

section Kept

variable {n : Nat} {r : Fin N} {o : Op} {choice : Choice} {w : World N}
  {answer : o.Ret} {m' : Memory N} {t : TaskPtr} {l l' : List TaskPtr}

theorem terminal_of_ended {c : CoroPtr} {st : Status} (based : Based w)
    (pre : preOp n (.frame t (.loadStatus c)) (w.context r))
    (result : memExec r (.frame t (.loadStatus c)) choice w.mem =
      some (st, m')) (ended : st.terminal = true) :
    w.mem.terminal t = true := by
  cases result
  unfold Memory.terminal
  rcases based.rooted r t c pre with root | root
  · rw [root]
  · rw [root]
    exact ended

theorem terminal_of_entered
    (result : memExec r (.enterTask t) choice w.mem = some (none, m')) :
    w.mem.terminal t = true := by
  have root : (w.mem.tasks t).root = none := by
    cases result' : (w.mem.tasks t).root with
    | none => rfl
    | some c =>
        simp only [memExec, result'] at result
        cases result
  rw [Memory.terminal, root]

/-- A word that is served was pushed, parked or stepped, or its task has
ended. -/
theorem served_answered (based : Based w) (kept : keepsWords o w = true)
    (waiters : Waiters w l) (once : ParksOnce o w)
    (pre : preOp n o (w.context r))
    (touched : ∀ t, o.block = some t → (w.mem.tasks t).born = true)
    (result : memExec r o choice w.mem = some (answer, m'))
    (posted : w.posted t = true) (live : w.mem.terminal t = false)
    (unstepped : steppedBy o ≠ some t) (served : servedBy o answer = some t) :
    0 < m'.slots n t ∨ m'.Queued t := by
  cases o with
  | ring o => cases o with
    | casSlot idx expected desired =>
        simp only [servedBy] at served
        split at served
        · rename_i stored
          obtain ⟨rfl, rfl⟩ := stored
          cases served
          exact .inl (slots_pushed pre result)
        · cases served
    | _ => cases served
  | enterTask t' =>
      cases answer with
      | none =>
          cases served
          rw [terminal_of_entered result] at live
          cases live
      | some c => cases served
  | frame t' access => cases access with
    | loadStatus c =>
        simp only [servedBy] at served
        split at served
        · rename_i ended
          cases served
          rw [terminal_of_ended based pre result ended] at live
          cases live
        · cases served
    | _ => cases served
  | park t' holder =>
      cases answer with
      | some claimed => cases served
      | none =>
          cases served
          have mine : t = holder := by simpa [keepsWords, posted] using kept
          subst mine
          have parked := waiters_park once (touched t rfl) result waiters
          right
          exact (parked.queued_iff t).mpr (by simp)
  | stepLeaf t' =>
      cases served
      exact absurd rfl unstepped
  | mark m => cases m with
    | drop t' | refused t' | leak t' =>
        cases served
        simp [keepsWords, posted] at kept
    | _ => cases served
  | _ => cases served

theorem slots_posted (pre : preOp n o (w.context r))
    (result : memExec r o choice w.mem = some (answer, m'))
    (posted : postedBy o answer (w.context r) = some t) :
    0 < m'.slots n t := by
  cases o with
  | ring o => cases o with
    | casSlot idx expected desired =>
        simp only [postedBy] at posted
        split at posted
        · rename_i stored
          obtain ⟨rfl, rfl, _⟩ := stored
          cases posted
          exact slots_pushed pre result
        · cases posted
    | _ => cases posted
  | _ => cases posted

theorem queued_kept (once : ParksOnce o w)
    (touched : ∀ t, o.block = some t → (w.mem.tasks t).born = true)
    (result : memExec r o choice w.mem = some (answer, m'))
    (waiters : Waiters w l) (queued : t ∈ l) :
    m'.Queued t ∨ .wake t .fresh ∈ track o answer (w.context r) := by
  cases o with
  | park t' holder =>
      have parked := waiters_park once (touched holder rfl) result waiters
      left
      apply (parked.queued_iff t).mpr
      split
      · exact List.mem_append_left _ queued
      · exact queued
  | handOver t' =>
      obtain ⟨released, head⟩ := waiters_handOver result waiters
      cases l with
      | nil => cases queued
      | cons wake rest =>
          cases head
          rcases List.mem_cons.mp queued with rfl | behind
          · exact .inr List.mem_cons_self
          · exact .inl ((released.queued_iff t).mpr behind)
  | _ => exact .inl (((waiters_other rfl result waiters).queued_iff t).mpr queued)

section Based

variable (based : Based w)
  (kept : keepsWords o w = true)
  (once : ParksOnce o w)
  (pre : preOp n o (w.context r))
  (touched : ∀ t, o.block = some t → (w.mem.tasks t).born = true)
  (result : memExec r o choice w.mem = some (answer, m'))
  (answered : Answered n w)
include based kept once pre touched result answered

theorem runnable_kept (posted : w.posted t = true) (unstepped : steppedBy o ≠ some t) :
    (note r o answer w m').Runnable n t := by
  obtain ⟨⟨l, waiters⟩, live, runnable⟩ := answered
  have fresh : ∀ entry ∈ track o answer (w.context r),
      entry.word Hand.pending t = true → (note r o answer w m').Runnable n t := by
    intro entry member word
    refine .inr (.inr ⟨r, ?_⟩)
    simp only [note, Function.update_self]
    exact List.any_eq_true.mpr ⟨entry, member, word⟩
  rcases runnable t posted with slot | queued | ⟨r', held⟩
  · rcases slots_kept based pre result slot with slot | driven
    · exact .inl slot
    · exact fresh _ driven (by simp [Section.word, Hand.pending])
  · have member := (waiters.queued_iff t).mp queued
    rcases queued_kept once touched result waiters member with queued | woken
    · exact .inr (.inl queued)
    · exact fresh _ woken (by simp [Section.word, Hand.pending])
  · by_cases other : r' = r
    · subst other
      by_cases served : servedBy o answer = some t
      · rcases served_answered based kept waiters once pre touched result posted
          (live t posted) unstepped served with slot | queued
        · exact .inl slot
        · exact .inr (.inl queued)
      · refine .inr (.inr ⟨r', ?_⟩)
        simp only [note, Function.update_self]
        exact word_track rfl pre served (.inr rfl) held
    · refine .inr (.inr ⟨r', ?_⟩)
      simpa only [note, Function.update_of_ne other] using held

theorem answered_kept : Answered n (note r o answer w m') := by
  refine ⟨waiters_kept once touched result answered.waiters.choose_spec, ?_, ?_⟩
  · intro t posted
    change m'.terminal t = false
    simp only [note, Bool.and_eq_true] at posted
    simpa using posted.2
  · intro t posted
    simp only [note, Bool.and_eq_true, Bool.or_eq_true, decide_eq_true_eq]
      at posted
    obtain ⟨⟨old | fresh, unstepped⟩, _⟩ := posted
    · exact runnable_kept based kept once pre touched result answered old
        unstepped
    · exact .inl (slots_posted pre result fresh)

end Based

end Kept

theorem start_answered (setup : Setup N) : Answered setup.n setup.start.state :=
  ⟨⟨[], start_waiters setup⟩, nofun, nofun⟩

/-- No wakeup is lost in every run in which no word is given up while a post of
its task is unanswered and no task is parked while it is on the FIFO. -/
theorem noLostWakeup_of_keepsWords {config : setup.machine.Config}
    (reach : Machine.Reach (M := setup.machine)
      (fun _ o w => keepsWords o w = true ∧ ParksOnce o w)
      setup.start config) :
    NoLostWakeup setup.n config.state := by
  obtain ⟨answered, _⟩ := Setup.invariant (Answered setup.n)
    (start_answered setup)
    (fun r o choice w answer m' allowed based pre touched result answered =>
      answered_kept based allowed.1 allowed.2 pre touched result answered) reach
  exact answered.runnable

theorem noLostWakeup_of_keepsWords_parked :
    ∃ config, Machine.Reach (M := pair.machine)
      (fun _ o w => keepsWords o w = true ∧ ParksOnce o w) pair.start config ∧
      config.state.posted 2 = true ∧ NoLostWakeup pair.n config.state := by
  obtain ⟨config, reach, posted⟩ := Machine.exists_reach (M := pair.machine)
    (fun _ o w => keepsWords o w = true ∧ ParksOnce o w)
    (fun _ o w => keepsWords o w && parksOnEmpty o w)
    (fun _ _ _ ok => by
      simp only [Bool.and_eq_true] at ok
      exact ⟨ok.1, parksOnce_of_empty ok.2⟩)
    pair.start parksSecond (fun config => config.state.posted 2)
    (by decide +kernel)
  exact ⟨config, reach, posted, noLostWakeup_of_keepsWords reach⟩

/-- A step of task 1 waits in `run_until`; the network pump posts the task, and
`run_until` claims the slot of the task it runs on. -/
def dropsOwn : Schedule :=
  wakes 0 ++ creates 0 5 1 ++ pass 0 ++ solo 0 29 ++ call 0 (.runUntil 6) ++
  solo 0 2 ++ [(0, Choice.tick 0)] ++ solo 0 5 ++ call 0 (.postTask 1) ++
  solo 0 12 ++ returns 0 .pending ++ [(0, Choice.tick 0)] ++ solo 0 9 ++
  [(0, Choice.tick 0)] ++ solo 0 7

theorem wakeup_fails :
    ¬∀ config, Machine.Reach (M := pair.machine)
      (fun r o w => callersOk r o w = true) pair.start config →
        NoLostWakeup pair.n config.state := by
  intro claim
  obtain ⟨config, reach, dropped⟩ := exists_called dropsOwn
    (fun config => decide (
      config.state.posted 1 = true ∧ config.state.mem.slots pair.n 1 = 0 ∧
      config.state.mem.waitersHead = none ∧
      ∀ r, (config.state.context r).any (Section.word Hand.pending 1) = false))
    (by decide +kernel)
  obtain ⟨posted, slots, head, idle⟩ := of_decide_eq_true dropped
  rcases claim config reach 1 posted with slot | queued | ⟨r, held⟩
  · omega
  · obtain ⟨l, path, member⟩ := queued
    rw [head] at path
    cases l with
    | nil => cases member
    | cons first rest => cases path.1
  · rw [idle r] at held
    cases held

end Metal.Coop
