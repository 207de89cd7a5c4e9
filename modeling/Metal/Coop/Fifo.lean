import Metal.Lib.Path
import Metal.Coop.Base
import Metal.Coop.Schedule

namespace Metal.Coop

open Metal.Lib

/-! The mutex FIFO.  Its links always form a path of distinct tasks that ends
at `waiters_tail`; a second park of a queued task can leave the tail linked to
itself, or cut off the tasks behind it. -/

variable {N : Nat} {setup : Setup N}

namespace Memory

def next (m : Memory N) (t : TaskPtr) : Option TaskPtr := (m.tasks t).mutexNext

structure Shaped (m : Memory N) (l : List TaskPtr) (stop : Option TaskPtr) :
    Prop where
  path : Path m.next m.waitersHead l stop
  nodup : l.Nodup
  last : m.waitersTail = l.getLast?
  closed : stop = none ∨ stop = l.getLast?

theorem next_setNext (m : Memory N) (t : TaskPtr) (link : Option TaskPtr) :
    (m.setNext t link).next = Function.update m.next t link := by
  funext t'
  by_cases same : t' = t
  · subst same
    simp [next, setNext, setTask]
  · simp [next, setNext, setTask, same]

variable {m : Memory N} {l : List TaskPtr} {stop : Option TaskPtr} {t : TaskPtr}

theorem shaped_nil_iff :
    m.Shaped [] stop ↔
      m.waitersHead = none ∧ m.waitersTail = none ∧ stop = none := by
  constructor
  · rintro ⟨path, _, last, closed⟩
    have ended : stop = none := by simpa using closed
    subst ended
    exact ⟨path, last, rfl⟩
  · rintro ⟨head, tail, rfl⟩
    exact ⟨head, List.nodup_nil, tail, .inl rfl⟩

theorem append_none (tail : m.waitersTail = none) :
    m.append t =
      { m.setNext t none with waitersHead := some t, waitersTail := some t } := by
  have same : (m.setNext t none).waitersTail = none := tail
  simp only [append, same]

theorem append_some {last : TaskPtr} (tail : m.waitersTail = some last) :
    m.append t =
      { (m.setNext t none).setNext last (some t) with
        waitersTail := some t } := by
  have same : (m.setNext t none).waitersTail = some last := tail
  simp only [append, same]

theorem next_append_none (tail : m.waitersTail = none) :
    (m.append t).next = Function.update m.next t none := by
  rw [append_none tail]
  exact next_setNext m t none

theorem next_append_some {last : TaskPtr} (tail : m.waitersTail = some last) :
    (m.append t).next =
      Function.update (Function.update m.next t none) last (some t) := by
  rw [append_some tail, ← next_setNext, ← next_setNext]
  rfl

theorem append_tail (m : Memory N) (t : TaskPtr) :
    (m.append t).waitersTail = some t := by
  cases tail : m.waitersTail with
  | none => rw [append_none tail]
  | some last => rw [append_some tail]

/-- A task that was not queued goes to the end, and a loop at the tail is
undone by its link. -/
theorem Shaped.append_new (shaped : m.Shaped l stop) (off : t ∉ l) :
    (m.append t).Shaped (l ++ [t]) none := by
  obtain ⟨path, nodup, last, closed⟩ := shaped
  refine ⟨?_, ?_, ?_, .inl rfl⟩
  · rcases List.eq_nil_or_concat' l with rfl | ⟨front, b, rfl⟩
    · have tail : m.waitersTail = none := last
      rw [next_append_none tail, append_none tail]
      simp
    · have tail : m.waitersTail = some b := by simpa using last
      have distinct : t ≠ b := by
        rintro rfl
        exact off (by simp)
      have offFront : b ∉ front := fun inside =>
        (List.nodup_append.mp nodup).2.2 b inside b (by simp) rfl
      have cleared : Path (Function.update m.next t none) m.waitersHead
          (front ++ [b]) stop := path.update_of_not_mem off
      rw [next_append_some tail, append_some tail]
      refine Path.append_iff.mpr ⟨some t, cleared.relink_last offFront, rfl, ?_⟩
      rw [Function.update_of_ne distinct]
      simp
  · rw [List.nodup_append]
    refine ⟨nodup, by simp, ?_⟩
    rintro a inside b last same
    rw [List.mem_singleton] at last
    subst last same
    exact off inside
  · rw [append_tail]
    simp

theorem Shaped.append_last {front : List TaskPtr}
    (shaped : m.Shaped (front ++ [t]) stop) :
    (m.append t).Shaped (front ++ [t]) (some t) := by
  obtain ⟨path, nodup, last, closed⟩ := shaped
  have tail : m.waitersTail = some t := by simpa using last
  have offFront : t ∉ front := fun inside =>
    (List.nodup_append.mp nodup).2.2 t inside t (by simp) rfl
  refine ⟨?_, nodup, ?_, .inr (by simp)⟩
  · rw [next_append_some tail, append_some tail, Function.update_idem]
    exact path.relink_last offFront
  · rw [append_tail]
    simp

theorem Shaped.append_middle {front back : List TaskPtr}
    (shaped : m.Shaped (front ++ t :: back) stop) (behind : back ≠ []) :
    (m.append t).Shaped (front ++ [t]) none := by
  obtain ⟨path, nodup, last, closed⟩ := shaped
  obtain ⟨rest, b, rfl⟩ := (List.eq_nil_or_concat' back).resolve_left behind
  have regroup : front ++ t :: (rest ++ [b]) = front ++ [t] ++ (rest ++ [b]) := by
    simp
  have tail : m.waitersTail = some b := by
    rw [regroup, ← List.append_assoc, List.getLast?_concat] at last
    exact last
  have split : (front ++ [t] ++ (rest ++ [b])).Nodup := by simpa using nodup
  have first := List.nodup_append.mp split
  have offFront : t ∉ front := fun inside =>
    (List.nodup_append.mp first.1).2.2 t inside t (by simp) rfl
  have off : b ∉ front ++ [t] := fun inside =>
    first.2.2 b inside b (by simp) rfl
  have upTo : ∃ middle, Path m.next m.waitersHead (front ++ [t]) middle := by
    have whole : Path m.next m.waitersHead (front ++ [t] ++ (rest ++ [b])) stop := by
      simpa using path
    obtain ⟨middle, before, _⟩ := Path.append_iff.mp whole
    exact ⟨middle, before⟩
  obtain ⟨middle, before⟩ := upTo
  refine ⟨?_, first.1, ?_, .inl rfl⟩
  · rw [next_append_some tail, append_some tail]
    exact (before.relink_last offFront).update_of_not_mem off
  · rw [append_tail]
    simp

/-- Whatever is parked, the links keep their shape, and the tasks on the path
are those that were on it and the parked one. -/
theorem Shaped.append (shaped : m.Shaped l stop) (t : TaskPtr) :
    ∃ l' stop', (m.append t).Shaped l' stop' ∧
      (∀ t' ∈ l', t' = t ∨ t' ∈ l) ∧
      (t ∉ l → l' = l ++ [t] ∧ stop' = none) ∧
      (stop' ≠ none → stop' = some t ∧ t ∈ l) := by
  by_cases on : t ∈ l
  · obtain ⟨front, back, rfl⟩ := List.append_of_mem on
    by_cases behind : back = []
    · subst behind
      refine ⟨_, _, shaped.append_last, ?_, fun off => absurd on off,
        fun _ => ⟨rfl, on⟩⟩
      intro t' member
      exact .inr member
    · refine ⟨_, _, shaped.append_middle behind, ?_, fun off => absurd on off,
        fun loop => absurd rfl loop⟩
      intro t' member
      rcases List.mem_append.mp member with before | here
      · exact .inr (by simp [before])
      · exact .inl (by simpa using here)
  · refine ⟨_, _, shaped.append_new on, ?_, fun _ => ⟨rfl, rfl⟩,
      fun loop => absurd rfl loop⟩
    intro t' member
    rcases List.mem_append.mp member with before | here
    · exact .inr before
    · exact .inl (by simpa using here)

theorem popWaiter_none (head : m.waitersHead = none) :
    m.popWaiter = (none, m) := by
  simp only [popWaiter, head]

theorem popWaiter_some (head : m.waitersHead = some t) :
    m.popWaiter.1 = some t ∧
      m.popWaiter.2.next = Function.update m.next t none ∧
      m.popWaiter.2.waitersHead = m.next t ∧
      m.popWaiter.2.waitersTail =
        if m.next t = none then none else m.waitersTail := by
  simp only [popWaiter, head]
  refine ⟨trivial, ?_, ?_, ?_⟩
  · rw [next_setNext]
    split <;> rfl
  · split <;> rfl
  · by_cases ended : (m.tasks t).mutexNext = none
    · simp [ended, next, setNext, setTask]
    · simp [ended, next, setNext, setTask]

/-- Popping the head leaves the rest of the path; a head that is linked to
itself stays on it once more. -/
theorem Shaped.pop (shaped : m.Shaped (t :: l) stop) :
    m.popWaiter.1 = some t ∧
      ∃ l' stop', m.popWaiter.2.Shaped l' stop' ∧
        (∀ t' ∈ l', t' ∈ l ∨ (t' = t ∧ stop = some t)) ∧
        (stop = none → l' = l ∧ stop' = none) ∧
        (stop' ≠ none → stop' = stop ∧ stop ≠ some t) := by
  obtain ⟨⟨head, path⟩, nodup, last, closed⟩ := shaped
  obtain ⟨answer, links, head', tail'⟩ := popWaiter_some head
  refine ⟨answer, ?_⟩
  have off : t ∉ l := (List.nodup_cons.mp nodup).1
  have nodup' : l.Nodup := (List.nodup_cons.mp nodup).2
  cases l with
  | nil =>
      have stopped : m.next t = stop := path
      rcases closed with ended | loop
      · refine ⟨[], none, shaped_nil_iff.mpr ⟨?_, ?_, rfl⟩, by simp,
          fun _ => ⟨rfl, rfl⟩, fun loop => absurd rfl loop⟩
        · rw [head', stopped, ended]
        · rw [tail', stopped, ended]
          rfl
      · have looped : m.next t = some t := stopped.trans (by simpa using loop)
        refine ⟨[t], none, ⟨?_, by simp, ?_, .inl rfl⟩, ?_, ?_,
          fun loop => absurd rfl loop⟩
        · rw [links, head', looped]
          simp
        · rw [tail', looped, last]
          simp
        · intro t' member
          exact .inr ⟨by simpa using member, by simpa using loop⟩
        · intro ended
          rw [ended] at loop
          cases loop
  | cons first rest =>
      obtain ⟨linked, path'⟩ := path
      have whole : Path m.next (m.next t) (first :: rest) stop := ⟨linked, path'⟩
      have ends : (t :: first :: rest).getLast? = (first :: rest).getLast? := by
        simp
      refine ⟨first :: rest, stop, ⟨?_, nodup', ?_, ?_⟩, fun _ => .inl,
        fun ended => ⟨rfl, ended⟩, fun _ => ⟨rfl, ?_⟩⟩
      · rw [links, head']
        exact whole.update_of_not_mem off
      · rw [tail', linked, ← ends, ← last]
        rfl
      · rw [← ends]
        exact closed
      · intro loop
        rcases closed with ended | atLast
        · rw [ended] at loop
          cases loop
        · rw [loop, ends] at atLast
          exact off (List.mem_of_getLast? atLast.symm)

theorem unlink_alone (tail : m.waitersTail = none)
    (owner : Option TaskPtr) :
    ∃ m', { m.append t with owner := owner }.unlink t = some (true, m') ∧
      m'.waitersHead = none ∧ m'.waitersTail = none := by
  have links : ((m.append t).tasks t).mutexNext = none := by
    have updated := congrFun (next_append_none (t := t) tail) t
    simpa [next] using updated
  have found : { m.append t with owner := owner }.seek t (2 ^ 48) none (some t) =
      some (none, some t) := by
    rw [show (2 : Nat) ^ 48 = (2 ^ 48 - 1) + 1 from rfl, seek]
    simp
  have start : { m.append t with owner := owner }.waitersHead = some t := by
    rw [append_none tail]
  unfold unlink
  rw [start, found]
  refine ⟨_, rfl, ?_, ?_⟩
  · simp [setNext, setTask, append_tail, links]
  · simp [setNext, setTask, append_tail]

end Memory

/-- The tasks on the path from `waiters_head`.  A mutex without an owner has no
waiters. -/
structure Queue (m : Memory N) (l : List TaskPtr) (stop : Option TaskPtr) :
    Prop where
  shaped : m.Shaped l stop
  idle : m.owner = none → l = []
  born : ∀ t ∈ l, (m.tasks t).born = true

section Step

variable {r : Fin N} {o : Op} {choice : Choice} {m m' : Memory N}
  {answer : o.Ret} {l : List TaskPtr} {stop : Option TaskPtr}

section Queue

variable (queue : Queue m l stop)
include queue

theorem Queue.other (result : memExec r o choice m = some (answer, m'))
    (quiet : o.queues = false) : Queue m' l stop := by
  have follows := memExec_follows result
  refine ⟨⟨?_, queue.shaped.nodup, ?_, queue.shaped.closed⟩, ?_, ?_⟩
  · rw [follows.head quiet]
    apply queue.shaped.path.congr
    intro t member
    have born := queue.born t member
    refine (follows.next quiet t).trans ?_
    cases o with
    | allocTask c =>
        simp only [taskAfter]
        split
        · rename_i fresh
          subst fresh
          rw [alloc_unborn result] at born
          cases born
        · rfl
    | _ =>
        simp only [taskAfter]
        first
          | rfl
          | split <;> rfl
  · rw [follows.tail quiet]
    exact queue.shaped.last
  · intro free
    apply queue.idle
    rw [follows.owner] at free
    cases o with
    | casOwner t holder =>
        cases answer with
        | false => exact free
        | true => cases free
    | park t holder => cases quiet
    | handOver t => cases quiet
    | _ => exact free
  · intro t member
    exact memExec_born result (queue.born t member)

theorem Queue.claim {t holder : TaskPtr} {answer : Option Bool} (free : m.owner = none)
    (result : memExec r (.park t holder) choice m = some (answer, m')) :
    l = [] ∧ answer = some true ∧ Queue m' [] none := by
  have empty := queue.idle free
  subst empty
  obtain ⟨head, tail, _⟩ := Memory.shaped_nil_iff.mp queue.shaped
  obtain ⟨after, unlinked, head', tail'⟩ :=
    Memory.unlink_alone (t := holder) tail (some holder)
  have owner := (memExec_follows result).owner
  simp only [memExec, free, if_true, unlinked] at result
  cases result
  refine ⟨rfl, rfl, Memory.shaped_nil_iff.mpr ⟨head', tail', rfl⟩, ?_, ?_⟩
  · intro _
    rfl
  · intro t member
    cases member

theorem Queue.park {t holder : TaskPtr} {answer : Option Bool} (held : m.owner ≠ none)
    (born : (m.tasks holder).born = true)
    (result : memExec r (.park t holder) choice m = some (answer, m')) :
    answer = none ∧ ∃ l' stop', Queue m' l' stop' ∧
      (∀ t' ∈ l', t' = holder ∨ t' ∈ l) ∧
      (holder ∉ l → l' = l ++ [holder] ∧ stop' = none) ∧
      (stop' ≠ none → stop' = some holder ∧ holder ∈ l) := by
  have bornAfter := fun t' => memExec_born (t := t') result
  simp only [memExec, held, if_false] at result
  cases result
  obtain ⟨l', stop', shaped, members, fresh, loop⟩ := queue.shaped.append holder
  refine ⟨rfl, l', stop', ⟨shaped, ?_, ?_⟩, members, fresh, loop⟩
  · intro free
    rw [append_owner] at free
    exact absurd free held
  · intro t' member
    rcases members t' member with rfl | old
    · exact bornAfter t' born
    · exact bornAfter t' (queue.born t' old)

theorem Queue.handOver_none {t : TaskPtr}
    (result : memExec r (.handOver t) choice m = some (none, m')) :
    l = [] ∧ Queue m' [] none := by
  cases l with
  | cons first rest =>
      have popped := queue.shaped.pop.1
      simp only [memExec] at result
      rw [popped] at result
      cases result
  | nil =>
      obtain ⟨head, tail, _⟩ := Memory.shaped_nil_iff.mp queue.shaped
      simp only [memExec, Memory.popWaiter_none head] at result
      cases result
      refine ⟨rfl, Memory.shaped_nil_iff.mpr ⟨head, tail, rfl⟩, fun _ => rfl, ?_⟩
      intro t member
      cases member

theorem Queue.handOver_some {t wake : TaskPtr}
    (result : memExec r (.handOver t) choice m = some (some wake, m')) :
    ∃ rest, l = wake :: rest ∧ ∃ l' stop', Queue m' l' stop' ∧
      (∀ t' ∈ l', t' ∈ rest ∨ (t' = wake ∧ stop = some wake)) ∧
      (stop = none → l' = rest ∧ stop' = none) ∧
      (stop' ≠ none → stop' = stop ∧ stop ≠ some wake) := by
  have bornAfter := fun t' => memExec_born (t := t') result
  cases l with
  | nil =>
      obtain ⟨head, tail, _⟩ := Memory.shaped_nil_iff.mp queue.shaped
      simp only [memExec, Memory.popWaiter_none head] at result
      cases result
  | cons first rest =>
      obtain ⟨popped, l', stop', shaped, members, fresh, loop⟩ :=
        queue.shaped.pop
      simp only [memExec, popped] at result
      cases result
      refine ⟨rest, rfl, l', stop', ⟨?_, nofun, ?_⟩, members, fresh, loop⟩
      · exact ⟨shaped.path, shaped.nodup, shaped.last, shaped.closed⟩
      intro t' member
      rcases members t' member with old | ⟨rfl, _⟩
      · exact bornAfter t' (queue.born t' (List.mem_cons_of_mem _ old))
      · exact bornAfter t' (queue.born t' List.mem_cons_self)

end Queue

end Step

/-- `t` is met on a walk from `waiters_head`. -/
def Memory.Linked (m : Memory N) (t : TaskPtr) : Prop :=
  ∃ l stop, Path m.next m.waitersHead l stop ∧ t ∈ l

theorem Queue.linked_iff {m : Memory N} {l : List TaskPtr}
    {stop : Option TaskPtr} (queue : Queue m l stop) (t : TaskPtr) :
    m.Linked t ↔ t ∈ l := by
  constructor
  · rintro ⟨l', stop', path, member⟩
    have last : ∀ t', stop = some t' → t' ∈ l := by
      intro t' looped
      rcases queue.shaped.closed with ended | atLast
      · rw [ended] at looped
        cases looped
      · exact List.mem_of_getLast? (atLast.symm.trans looped)
    apply path.mem_of_closed (p := (· ∈ l)) _ _ member
    · intro t' head
      exact (queue.shaped.path.head_mem head).elim id (last t')
    · intro t' t'' inside link
      exact (queue.shaped.path.next_mem inside link).elim id (last t'')
  · intro member
    exact ⟨l, stop, queue.shaped.path, member⟩

/-- The FIFO is a finite list without duplicates that ends at `waiters_tail`
and holds every task that is waiting for the mutex. -/
def FifoSound (w : World N) : Prop :=
  ∃ l, Path w.mem.next w.mem.waitersHead l none ∧ l.Nodup ∧
    w.mem.waitersTail = l.getLast? ∧ ∀ t, w.waiting t = true → t ∈ l

def Memory.Queued (m : Memory N) (t : TaskPtr) : Prop :=
  ∃ l, Path m.next m.waitersHead l none ∧ t ∈ l

def ParksOnce : Op → World N → Prop
  | .park _ holder, w => ¬w.mem.Queued holder
  | _, _ => True

structure Waiters (w : World N) (l : List TaskPtr) : Prop where
  queue : Queue w.mem l none
  waits : ∀ t, w.waiting t = true → t ∈ l

section Kept

variable {r : Fin N} {o : Op} {choice : Choice} {w : World N}
  {answer : o.Ret} {m' : Memory N} {l : List TaskPtr}

theorem Waiters.queued_iff (waiters : Waiters w l) (t : TaskPtr) :
    w.mem.Queued t ↔ t ∈ l := by
  constructor
  · rintro ⟨l', path, member⟩
    rw [waiters.queue.shaped.path.unique path]
    exact member
  · intro member
    exact ⟨l, waiters.queue.shaped.path, member⟩

theorem waiters_park {t holder : TaskPtr} {answer : Option Bool}
    (once : ¬w.mem.Queued holder) (born : (w.mem.tasks holder).born = true)
    (result : memExec r (.park t holder) choice w.mem = some (answer, m'))
    (waiters : Waiters w l) :
    Waiters (note r (.park t holder) answer w m')
      (if answer = none then l ++ [holder] else l) := by
  have off : holder ∉ l := fun member =>
    once ((waiters.queued_iff holder).mpr member)
  by_cases free : w.mem.owner = none
  · obtain ⟨rfl, rfl, queue⟩ := waiters.queue.claim free result
    refine ⟨queue, fun t' waiting => ?_⟩
    have old : w.waiting t' = true := by
      by_cases same : t' = holder
      · subst same
        simp [note, trackWaiting] at waiting
      · simpa [note, trackWaiting, same] using waiting
    exact waiters.waits t' old
  · obtain ⟨rfl, l', stop', queue, _, fresh, _⟩ :=
      waiters.queue.park free born result
    obtain ⟨rfl, rfl⟩ := fresh off
    refine ⟨queue, fun t' waiting => ?_⟩
    by_cases same : t' = holder
    · simp [same]
    · have old : w.waiting t' = true := by
        simpa [note, trackWaiting, same] using waiting
      simp [waiters.waits t' old]

theorem waiters_handOver {t : TaskPtr} {answer : Option TaskPtr}
    (result : memExec r (.handOver t) choice w.mem = some (answer, m'))
    (waiters : Waiters w l) :
    Waiters (note r (.handOver t) answer w m') l.tail ∧ answer = l.head? := by
  cases answer with
  | none =>
      obtain ⟨rfl, queue⟩ := waiters.queue.handOver_none result
      exact ⟨⟨queue, waiters.waits⟩, rfl⟩
  | some wake =>
      obtain ⟨rest, rfl, l', stop', queue, _, fresh, _⟩ :=
        waiters.queue.handOver_some result
      obtain ⟨rfl, rfl⟩ := fresh rfl
      refine ⟨⟨queue, fun t' waiting => ?_⟩, rfl⟩
      by_cases same : t' = wake
      · simp [note, trackWaiting, same] at waiting
      · have old : w.waiting t' = true := by
          simpa [note, trackWaiting, same] using waiting
        exact (List.mem_cons.mp (waiters.waits t' old)).resolve_left same

theorem waiters_other (quiet : o.queues = false)
    (result : memExec r o choice w.mem = some (answer, m'))
    (waiters : Waiters w l) : Waiters (note r o answer w m') l := by
  refine ⟨waiters.queue.other result quiet, fun t waiting => ?_⟩
  apply waiters.waits t
  cases o with
  | ownerIs t' holder | casOwner t' holder =>
      by_cases same : t = holder
      · subst same
        cases answer with
        | false => exact waiting
        | true => simp [note, trackWaiting] at waiting
      · cases answer with
        | false => exact waiting
        | true => simpa [note, trackWaiting, same] using waiting
  | park t' holder => cases quiet
  | handOver t' => cases quiet
  | _ => exact waiting

theorem waiters_kept (once : ParksOnce o w)
    (touched : ∀ t, o.block = some t → (w.mem.tasks t).born = true)
    (result : memExec r o choice w.mem = some (answer, m'))
    (waiters : Waiters w l) : ∃ l', Waiters (note r o answer w m') l' := by
  cases o with
  | park t holder =>
      exact ⟨_, waiters_park once (touched holder rfl) result waiters⟩
  | handOver t => exact ⟨_, (waiters_handOver result waiters).1⟩
  | _ => exact ⟨l, waiters_other rfl result waiters⟩

end Kept

theorem start_waiters (setup : Setup N) : Waiters setup.start.state [] := by
  refine ⟨⟨Memory.shaped_nil_iff.mpr ⟨rfl, rfl, rfl⟩, fun _ => rfl, ?_⟩, ?_⟩
  · intro t member
    cases member
  · intro t waiting
    cases waiting

/-- The FIFO neither loses nor duplicates a waiter in any run in which no task
is parked while it is on the FIFO. -/
theorem fifoSound_of_parksOnce {config : setup.machine.Config}
    (reach : Machine.Reach (M := setup.machine)
      (fun _ o w => ParksOnce o w) setup.start config) :
    FifoSound config.state := by
  obtain ⟨⟨l, waiters⟩, _⟩ := Setup.invariant
    (fun w => ∃ l, Waiters w l) ⟨[], start_waiters setup⟩
    (fun r o choice w answer m' once _ _ touched result kept =>
      waiters_kept once touched result kept.choose_spec) reach
  exact ⟨l, waiters.queue.shaped.path, waiters.queue.shaped.nodup,
    waiters.queue.shaped.last, waiters.waits⟩

/-- Task 1 is in its `vm_only` step on runner 0 with two ring slots of task 2
behind it; runner 1 steps task 2 once, which parks it. -/
def parksSecond : Schedule :=
  wakes 0 ++ setsVmOnly 0 5 ++ setsVmOnly 0 6 ++ creates 0 5 1 ++
  creates 0 6 2 ++ call 0 (.postTask 2) ++ solo 0 12 ++ pass 0 ++ solo 0 35 ++
  wakes 1 ++ pass 1 ++ solo 1 45

def parksOnEmpty : Op → World N → Bool
  | .park _ _, w => w.mem.waitersHead.isNone
  | _, _ => true

theorem parksOnce_of_empty {o : Op} {w : World N}
    (empty : parksOnEmpty o w = true) : ParksOnce o w := by
  cases o with
  | park t holder =>
      rintro ⟨l, path, member⟩
      have head : w.mem.waitersHead = none := by
        simpa [parksOnEmpty] using empty
      rw [head] at path
      cases l with
      | nil => cases member
      | cons first rest => cases path.1
  | _ => trivial

theorem fifoSound_of_parksOnce_waiting :
    ∃ config, Machine.Reach (M := pair.machine)
      (fun _ o w => ParksOnce o w) pair.start config ∧
      config.state.waiting 2 = true ∧ FifoSound config.state := by
  obtain ⟨config, reach, waiting⟩ := Machine.exists_reach (M := pair.machine)
    (fun _ o w => ParksOnce o w) (fun _ o w => parksOnEmpty o w)
    (fun _ _ _ empty => parksOnce_of_empty empty) pair.start parksSecond
    (fun config => config.state.waiting 2) (by decide +kernel)
  exact ⟨config, reach, waiting, fifoSound_of_parksOnce reach⟩

theorem fifo_fails :
    ¬∀ config, Machine.Reach (M := pair.machine)
      (fun r o w => callersOk r o w = true) pair.start config →
        FifoSound config.state := by
  intro claim
  -- The second slot of task 2 is stepped while the task is on the FIFO.
  obtain ⟨config, reach, twice⟩ := exists_called (parksSecond ++ pass 1 ++ solo 1 45)
    (fun config => config.state.mem.waitersHead == some 2 &&
      config.state.mem.next 2 == some 2) (by decide +kernel)
  simp only [Bool.and_eq_true, beq_iff_eq] at twice
  obtain ⟨head, loop⟩ := twice
  obtain ⟨l, path, _⟩ := claim config reach
  have off := path.not_mem_of_loop loop
  rw [head] at path
  cases l with
  | nil => cases path
  | cons first rest =>
      obtain ⟨same, _⟩ := path
      cases same
      exact off List.mem_cons_self

end Metal.Coop
