import Metal.Coop.Protocol

namespace Metal.Coop

open Metal.Lib

/-! Every function of the card keeps the discipline. -/

section Specs

variable {n : Nat} {context rest outer : Context} {t : TaskPtr}

variable {holds : Unit → Context → Prop}

theorem wp_taskFree (after : holds () rest) :
    (protocol n).wp (taskFree t) (.free t :: rest) holds := by
  simp [taskFree]
  intro root _
  cases root with
  | none =>
      simp
      exact fun _ => after
  | some root =>
      simp [wp_ite]
      exact fun _ => after

theorem wp_taskUnref {entry : Section} (owned : entry.owned = some t)
    (settled : entry.settled = true) (after : holds () rest) :
    (protocol n).wp (taskUnref t) (entry :: rest) holds := by
  simp [taskUnref, owned, settled, wp_ite]
  intro was
  split
  · exact wp_taskFree after
  · exact after

theorem wp_holdTaskRef {holds : Bool → Context → Prop}
    (held : holds true (.ref t :: context)) (refused : holds false context) :
    (protocol n).wp (holdTaskRef t) context holds := by
  simp [holdTaskRef, wp_ite]
  refine ⟨⟨held, ?_⟩, refused⟩
  exact wp_taskUnref rfl rfl refused

theorem wp_ringPushScan {holds : Bool → Context → Prop}
    (positive : 0 < n) (stored : holds true (Context.serve t rest))
    (missed : holds false (.ref t :: rest)) (start left i : Nat) :
    (protocol n).wp (ring (ringPushScan n (taskWord t) start left i))
      (.ref t :: rest) holds := by
  induction left generalizing i with
  | zero => simpa [ringPushScan] using missed
  | succ left ih =>
      simp [ringPushScan, Inbox.casSlot, Inbox.storeTail, Inbox.addCount, ring_ite, wp_ite]
      exact ⟨ringIndex_lt positive start i, ih (i + 1), stored⟩

theorem wp_ringPushAttempt {holds : Bool → Context → Prop}
    (positive : 0 < n) (stored : holds true (Context.serve t rest))
    (missed : holds false (.ref t :: rest)) (attempts : Nat) :
    (protocol n).wp (ring (ringPushAttempt n (taskWord t) attempts))
      (.ref t :: rest) holds := by
  induction attempts with
  | zero => simpa [ringPushAttempt] using missed
  | succ attempts ih =>
      simp [ringPushAttempt, Inbox.loadTail, Inbox.loadCount, ring_ite, wp_ite]
      intro start count
      refine wp_ringPushScan positive ?_ ?_ start _ 0
      · simpa using stored
      · simp
        intro count
        split
        · exact missed
        · exact ih

theorem wp_pushTaskRef {holds : Bool → Context → Prop} (positive : 0 < n)
    (stored : holds true (Context.serve t context))
    (refused : holds false context) :
    (protocol n).wp (pushTaskRef n t) context holds := by
  simp [pushTaskRef]
  refine wp_holdTaskRef ?_ ?_
  · simp
    refine wp_ringPushAttempt positive ?_ ?_ 4
    · simpa using stored
    · simp
      exact wp_taskUnref rfl rfl refused
  · simpa using refused

theorem wp_rePush (positive : 0 < n) (after : holds () (Context.serve t context)) :
    (protocol n).wp (rePush n t) context holds := by
  simp [rePush]
  refine wp_pushTaskRef positive ?_ ?_
  · simpa using after
  · simp
    exact fun _ => after

theorem wp_taskMarkDead (after : holds () context) :
    (protocol n).wp (taskMarkDead t) context holds := by
  simp [taskMarkDead, wp_ite]
  intro prev
  split
  · exact wp_taskFree after
  · exact after

theorem wp_taskIsTerminal {holds : Bool → Context → Prop}
    (after : ∀ ended, holds ended context) :
    (protocol n).wp (taskIsTerminal t) context holds := by
  simp [taskIsTerminal]
  intro root _
  cases root with
  | none => exact after true
  | some _ =>
      simp
      intro root _
      cases root with
      | none => simp [crash]
      | some root =>
          simp
          exact fun st => after _

theorem wp_taskReclaim {holds : Bool → Context → Prop}
    (after : ∀ done, holds done context) :
    (protocol n).wp (taskReclaim t) context holds := by
  simp [taskReclaim]
  refine wp_taskIsTerminal fun ended => ?_
  cases ended
  · simpa using after false
  · simp
    exact wp_taskMarkDead (after true)

theorem wp_taskDetach {holds : Bool → Context → Prop}
    (after : ∀ done, holds done context) :
    (protocol n).wp (taskDetach t) context holds := by
  simp [taskDetach]
  refine wp_taskIsTerminal fun ended => ?_
  cases ended
  · simpa using after false
  · simp
    exact wp_taskMarkDead (after true)

theorem wp_taskRetire {holds : Bool → Context → Prop}
    (after : ∀ done, holds done context) :
    (protocol n).wp (taskRetire t) context holds := by
  simp [taskRetire, wp_ite]
  intro current
  split
  · exact wp_taskMarkDead (after true)
  · refine ⟨wp_taskMarkDead ?_, after false⟩
    simpa using after true

variable {hand : Hand} {c : CoroPtr}

theorem wp_mutexTryAcquire {holds : Status → Context → Prop} (self : CoroPtr)
    (settled : outer.Settled) (pending : ∀ hand,
      holds .pending (.run t true :: .step t c :: .drive t hand :: outer)) (waiting :
      holds .waiting (.run t false :: .step t c :: .drive t .served :: outer)) (failed : ∀ hand,
      holds .error (.run t false :: .step t c :: .drive t hand :: outer)) :
    (protocol n).wp (mutexTryAcquire t self)
      (.run t false :: .step t c :: .drive t hand :: outer) holds := by
  obtain ⟨after, drive, tried⟩ := Context.tries_drive t hand settled
  simp [mutexTryAcquire, taskOf]
  intro holder
  cases holder with
  | none => exact failed hand
  | some holder =>
      simp [wp_ite, drive]
      refine ⟨⟨?_, pending after⟩, pending hand⟩
      refine wp_holdTaskRef ?_ ?_
      · simp [tried, settled]
        intro claimed
        cases claimed with
        | none => simpa [Context.serve_drive t after settled] using waiting
        | some wasQueued =>
            cases wasQueued with
            | false => simpa using pending after
            | true =>
                simp
                exact wp_taskUnref rfl rfl (pending after)
      · simpa using failed after

theorem wp_mutexRelease (positive : 0 < n) (settled : rest.Settled)
    (after : holds () (.run t false :: rest)) :
    (protocol n).wp (mutexRelease n t) (.run t true :: rest) holds := by
  have settledRun : Context.Settled (.run t false :: rest) := settled.cons rfl
  simp [mutexRelease]
  intro woken
  cases woken with
  | none =>
      simp
      exact fun _ => after
  | some wake =>
      simp
      refine wp_rePush positive ?_
      rw [Context.serve_wake wake .fresh settledRun]
      exact wp_taskUnref rfl rfl after

theorem wp_stepAside (after : holds () rest) :
    (protocol n).wp (stepAside t) (.run t false :: rest) holds := by
  simp [stepAside]
  exact fun _ => after

theorem wp_handBack {holds : Bool → Context → Prop} (positive : 0 < n) (settled : outer.Settled)
    (after : holds false (.drive t .served :: outer)) :
    (protocol n).wp (handBack n t)
      (.run t false :: .step t c :: .drive t hand :: outer) holds := by
  simp [handBack]
  refine wp_stepAside ?_
  simp
  refine wp_rePush positive ?_
  rw [Context.serve_drive t hand settled]
  exact after

theorem wp_vmClaim {holds : Bool → Context → Prop} (leaf : CoroPtr) (settled : outer.Settled)
    (entered : ∀ hand,
      holds true (.run t true :: .step t c :: .drive t hand :: outer))
    (left : holds false (.drive t .served :: outer)) :
    (protocol n).wp (vmClaim t leaf)
      (.run t false :: .step t c :: .drive t hand :: outer) holds := by
  simp [vmClaim]
  refine wp_mutexTryAcquire leaf settled ?_ ?_ ?_
  · intro hand
    simpa using entered hand
  · simp
    refine wp_stepAside ?_
    simpa using left
  · intro hand
    simpa using entered hand

theorem wp_vmGate {holds : Bool → Context → Prop} (leaf : CoroPtr) (positive : 0 < n)
    (settled : outer.Settled) (entered : ∀ hand,
      holds true (.run t true :: .step t c :: .drive t hand :: outer))
    (left : holds false (.drive t .served :: outer)) :
    (protocol n).wp (vmGate n t leaf)
      (.run t false :: .step t c :: .drive t hand :: outer) holds := by
  have claim : (protocol n).wp (vmClaim t leaf)
      (.run t false :: .step t c :: .drive t hand :: outer) holds :=
    wp_vmClaim leaf settled entered left
  simp [vmGate, wp_ite]
  exact ⟨claim, wp_handBack positive settled left, claim⟩

theorem wp_stepLoop {holds : Bool → Context → Prop} (settled : outer.Settled) (broke : holds true
      (.run t false :: .step t c :: .drive t .served :: outer))
    (left : holds false (.drive t .served :: outer)) :
    (protocol n).wp (invoke (.stepLoop t))
      (.run t false :: .step t c :: .drive t hand :: outer) holds := by
  simp
  exact ⟨settled, left, broke⟩

theorem wp_vmLeave (vmHeld : Bool) (positive : 0 < n) (settled : rest.Settled)
    (after : holds () (.run t false :: rest)) :
    (protocol n).wp (vmLeave n t vmHeld) (.run t vmHeld :: rest) holds := by
  cases vmHeld with
  | false => simpa [vmLeave] using after
  | true =>
      simp [vmLeave]
      exact wp_mutexRelease positive settled after

theorem wp_leafReturned {holds : Bool → Context → Prop} (leaf : CoroPtr) (st : Status)
    (settled : outer.Settled) (broke : holds true
      (.run t false :: .step t c :: .drive t .served :: outer))
    (left : holds false (.drive t .served :: outer)) :
    (protocol n).wp (leafReturned t leaf st)
      (.run t false :: .step t c :: .drive t .served :: outer) holds := by
  have again : (protocol n).wp (invoke (.stepLoop t))
      (.run t false :: .step t c :: .drive t .served :: outer) holds :=
    wp_stepLoop settled broke left
  cases st with
  | waiting =>
      simp [leafReturned]
      intro awaiting
      cases awaiting with
      | none => exact broke
      | some child => exact again
  | finished =>
      simp [leafReturned]
      intro waiter
      cases waiter with
      | none => exact broke
      | some _ =>
          simp
          intro waiter
          cases waiter with
          | none => simp [fault]
          | some parent =>
              simp
              exact ⟨settled, left, broke⟩
  | pending | cancelled | error => simpa [leafReturned] using broke

theorem wp_runLeaf {holds : Bool → Context → Prop} (leaf : CoroPtr) (vmHeld : Bool)
    (positive : 0 < n) (settled : outer.Settled) (broke : holds true
      (.run t false :: .step t c :: .drive t .served :: outer))
    (left : holds false (.drive t .served :: outer)) :
    (protocol n).wp (runLeaf n t leaf vmHeld)
      (.run t vmHeld :: .step t c :: .drive t hand :: outer) holds := by
  have settledStep : Context.Settled (.step t c :: .drive t .served :: outer) :=
    (settled.cons rfl).cons rfl
  have settledRun : Context.Settled
      (.run t vmHeld :: .step t c :: .drive t .served :: outer) :=
    settledStep.cons rfl
  simp [runLeaf, userStep, Context.serve_drive t hand settled, settledRun]
  intro st
  refine wp_vmLeave vmHeld positive settledStep ?_
  exact wp_leafReturned leaf st settled broke left

theorem wp_stepTurn {holds : Bool → Context → Prop} (positive : 0 < n) (settled : outer.Settled)
    (broke : holds true
      (.run t false :: .step t c :: .drive t .served :: outer))
    (left : holds false (.drive t .served :: outer)) :
    (protocol n).wp (stepTurn n t)
      (.run t false :: .step t c :: .drive t hand :: outer) holds := by
  simp [stepTurn]
  intro root _
  cases root with
  | none => simp [fault]
  | some root =>
      simp [wp_ite]
      intro leaf
      refine ⟨?_, wp_runLeaf leaf false positive settled broke left, ?_⟩
      · rw [Context.serve_drive t hand settled]
        exact broke
      · refine wp_vmGate leaf positive settled (fun hand => ?_) ?_
        · simpa using wp_runLeaf leaf true positive settled broke left
        · simpa using left

theorem wp_rootTerminal {holds : Bool → Context → Prop} (settled : rest.Settled)
    (after : ∀ ended, holds ended (.step t c :: rest)) :
    (protocol n).wp (stepEpilogue.rootTerminal t) (.step t c :: rest)
      holds := by
  simp [stepEpilogue.rootTerminal]
  intro root known
  cases root with
  | none => simp [fault]
  | some root =>
      have same : c = root := known root c rfl (.inl rfl)
      simp [same, Context.serve_of_settled t settled]
      intro st
      subst same
      exact after _

theorem wp_stepEpilogue (settled : rest.Settled) (after : holds () rest) :
    (protocol n).wp (stepEpilogue t) (.step t c :: rest) holds := by
  simp [stepEpilogue]
  intro root _
  cases root with
  | none => simpa using fun _ => after
  | some _ =>
      simp
      refine wp_rootTerminal settled fun ended => ?_
      cases ended with
      | false => simpa using fun _ => after
      | true =>
          simp
          intro root _
          cases root with
          | none => simpa using fun _ => after
          | some _ =>
              simp
              intro root _
              cases root with
              | none => simp [fault]
              | some root =>
                  simp [wp_ite]
                  exact ⟨fun _ => after, wp_taskMarkDead after⟩

theorem wp_rootStatusIs {holds : Bool → Context → Prop} (st : Status) (ends : st.terminal = true)
    (settled : outer.Settled) (yes : holds true (.step t c :: .drive t .served :: outer))
    (no : ∀ hand, holds false (.step t c :: .drive t hand :: outer)) :
    (protocol n).wp (rootStatusIs t st) (.step t c :: .drive t hand :: outer)
      holds := by
  simp [rootStatusIs]
  intro root known
  cases root with
  | none => simp [fault]
  | some root =>
      have same : c = root := known root c rfl (.inl rfl)
      subst same
      simp [Context.serve_drive t hand settled]
      intro found
      by_cases hit : found = st
      · subst hit
        simpa [ends] using yes
      · simp [hit]
        split
        · exact no _
        · exact no _

theorem wp_rootEnded {holds : Bool → Context → Prop} (settled : outer.Settled)
    (yes : holds true (.step t c :: .drive t .served :: outer))
    (no : ∀ hand, holds false (.step t c :: .drive t hand :: outer)) :
    (protocol n).wp (rootEnded t) (.step t c :: .drive t hand :: outer)
      holds := by
  simp [rootEnded]
  refine wp_rootStatusIs .finished rfl settled (by simpa using yes) ?_
  intro hand
  simp
  refine wp_rootStatusIs .error rfl settled (by simpa using yes) ?_
  intro hand
  exact wp_rootStatusIs .cancelled rfl settled yes no

theorem wp_stepLive (positive : 0 < n) (settled : outer.Settled)
    (after : holds () (.drive t .served :: outer)) :
    (protocol n).wp (stepLive n t) (.step t c :: .drive t hand :: outer)
      holds := by
  have settledDrive : Context.Settled (.drive t .served :: outer) :=
    settled.cons rfl
  simp [stepLive, wp_ite]
  refine ⟨?_, settled, after, ?_⟩
  · refine wp_rePush positive ?_
    rw [Context.serve_drive t hand settled]
    exact after
  · exact wp_stepAside (wp_stepEpilogue settledDrive after)

theorem wp_stepTask (positive : 0 < n) (settled : outer.Settled)
    (after : holds () (.drive t .served :: outer)) :
    (protocol n).wp (stepTask n t) (.drive t hand :: outer) holds := by
  simp [stepTask]
  intro root
  cases root with
  | none =>
      rw [wp_done, Context.serve_drive t hand settled]
      exact after
  | some c =>
      simp [wp_ite, Context.serve_drive t hand settled]
      refine ⟨wp_rootEnded settled ?_ ?_, fun _ => after⟩
      · simpa using fun _ => after
      · intro hand
        simpa using wp_stepLive positive settled after

theorem wp_ringClaimScan {holds : Option (Word × Nat) → Context → Prop}
    (positive : 0 < n)
    (claimed : ∀ word idx, idx < n → ringKind word ≠ ringKindStop →
      holds (some (word, idx)) (.claim idx (wordTask word) :: context))
    (missed : holds none context) (start left i : Nat) :
    (protocol n).wp (ring (ringClaimScan n start left i)) context holds := by
  induction left generalizing i with
  | zero => simpa [ringClaimScan] using missed
  | succ left ih =>
      simp [ringClaimScan, Inbox.loadSlot, Inbox.casSlot, Inbox.storeHead,
        ring_ite, wp_ite]
      intro word
      split
      · rename_i ready
        split
        · exact ih (i + 1)
        · rename_i notStop
          have bound := ringIndex_lt positive start i
          refine ⟨⟨bound, .inr ready⟩, ih (i + 1), ?_⟩
          rw [if_neg (ne_empty_of_ready ready)]
          refine claimed _ _ bound ?_
          rw [ringKind_claimedWord]
          exact notStop
      · exact ih (i + 1)

theorem wp_ringClaim {holds : Option (Word × Nat) → Context → Prop}
    (positive : 0 < n)
    (claimed : ∀ word idx, idx < n → ringKind word ≠ ringKindStop →
      holds (some (word, idx)) (.claim idx (wordTask word) :: context))
    (missed : holds none context) :
    (protocol n).wp (ring (ringClaim n)) context holds := by
  simp [ringClaim, Inbox.loadCount, Inbox.loadHead, ring_ite, wp_ite]
  intro count
  split
  · exact missed
  · exact fun start => wp_ringClaimScan positive claimed missed start n 0

theorem wp_ringRelease {idx : Nat} (bound : idx < n) (after : holds () (.drive t .fresh :: rest)) :
    (protocol n).wp (ring (ringRelease n idx)) (.claim idx t :: rest)
      holds := by
  simp [ringRelease, Inbox.clearSlot, Inbox.subCount, Nat.not_le.mpr bound,
    bound]
  exact fun _ => after

theorem wp_driveOne (positive : 0 < n) (settled : context.Settled) (after : holds () context) :
    (protocol n).wp (driveOne n t) (.drive t .fresh :: context) holds := by
  simp [driveOne, wp_ite]
  intro current
  split
  · refine wp_pushTaskRef positive ?_ ?_
    · rw [Context.serve_drive t .fresh settled]
      simpa using wp_taskUnref rfl rfl after
    · simpa using fun _ => after
  · exact wp_stepTask positive settled (wp_taskUnref rfl rfl after)

theorem wp_drainOne {holds : Bool → Context → Prop} (positive : 0 < n)
    (settled : context.Settled) (after : ∀ claimed, holds claimed context) :
    (protocol n).wp (drainOne n) context holds := by
  simp [drainOne]
  refine wp_ringClaim positive ?_ ?_
  · intro word idx bound notStop
    simp [notStop]
    exact wp_ringRelease bound (wp_driveOne positive settled (after true))
  · exact after false

theorem wp_pump (settled : context.Settled) (after : holds () context) :
    (protocol n).wp pump context holds := by
  simp [pump, userStep]
  exact ⟨settled, fun _ => after⟩

theorem wp_fireTimers (settled : context.Settled) (after : holds () context) :
    (protocol n).wp fireTimers context holds := by
  simp [fireTimers]
  exact fun _ => ⟨settled, fun _ => after⟩

theorem wp_yieldDrains (positive : 0 < n) (settled : context.Settled) (after : holds () context)
    (left : Nat) : (protocol n).wp (yieldDrains n left) context holds := by
  induction left with
  | zero => exact after
  | succ left ih =>
      simp [yieldDrains]
      exact wp_drainOne positive settled fun _ => wp_pump settled ih

theorem wp_yield (positive : 0 < n) (settled : context.Settled) (after : holds () context) :
    (protocol n).wp (yield n) context holds := by
  simp [yield]
  refine wp_pump settled (wp_fireTimers settled ?_)
  exact wp_yieldDrains positive settled after 8

theorem wp_poll (settled : context.Settled) (after : holds () context) :
    (protocol n).wp poll context holds := by
  simp [poll]
  refine wp_pump settled (wp_fireTimers settled ?_)
  exact ⟨settled, fun _ => after⟩

theorem wp_pollTurn (positive : 0 < n) (settled : context.Settled) (after : holds () context) :
    (protocol n).wp (pollTurn n) context holds := by
  simp [pollTurn]
  refine wp_ringClaim positive ?_ ?_
  · intro word idx bound notStop
    simp [notStop]
    refine wp_ringRelease bound (wp_stepTask positive settled ?_)
    refine wp_taskUnref rfl rfl (wp_pump settled (wp_fireTimers settled ?_))
    exact ⟨settled, fun _ => after⟩
  · exact after

theorem wp_driveUntil (owner : Option TaskPtr) (positive : 0 < n) (settled : context.Settled)
    (after : holds () context) :
    (protocol n).wp (driveUntil n owner t) (.drive t .fresh :: context)
      holds := by
  simp [driveUntil, wp_ite, Context.serve_drive t .fresh settled]
  split
  · exact wp_taskUnref rfl rfl after
  · exact wp_stepTask positive settled (wp_taskUnref rfl rfl after)

theorem wp_setOnCStack (owner : Option TaskPtr) (value : Bool) (after : holds () context) :
    (protocol n).wp (setOnCStack owner value) context holds := by
  cases owner with
  | none => exact after
  | some t =>
      simp [setOnCStack]
      exact fun _ => after

theorem wp_waiterEnded {holds : Bool → Context → Prop} (waiter : CoroPtr)
    (after : ∀ ended, holds ended context) :
    (protocol n).wp (waiterEnded waiter) context holds := by
  simp [waiterEnded, wp_ite]
  intro first
  split
  · exact after true
  · intro second
    split
    · exact after true
    · intro third
      split <;> exact after _

theorem wp_untilTurn {holds : Bool → Context → Prop} (waiter : CoroPtr)
    (owner : Option TaskPtr) (stallUntil : Nat) (positive : 0 < n)
    (settled : context.Settled) (after : ∀ done, holds done context) :
    (protocol n).wp (untilTurn n waiter owner stallUntil) context holds := by
  have again : context.Settled ∧ holds false context ∧ holds true context :=
    ⟨settled, after false, after true⟩
  simp [untilTurn]
  refine wp_waiterEnded waiter fun ended => ?_
  cases ended with
  | true =>
      simp
      exact wp_setOnCStack owner false fun st => after _
  | false =>
      simp
      refine wp_pump settled (wp_fireTimers settled ?_)
      refine wp_ringClaim positive ?_ ?_
      · intro word idx bound notStop
        simp [notStop]
        exact wp_ringRelease bound (wp_driveUntil owner positive settled again)
      · simp
        intro next
        cases next with
        | none =>
            simp [wp_ite]
            intro busy now
            split
            · split
              · exact wp_setOnCStack owner false (after false)
              · exact again
            · exact again
        | some _ => simpa using again

theorem wp_runUntil {holds : Bool → Context → Prop} (waiter : CoroPtr)
    (settled : context.Settled) (after : ∀ done, holds done context) :
    (protocol n).wp (runUntil waiter) context holds := by
  simp [runUntil]
  intro owner
  refine wp_setOnCStack owner true ?_
  exact ⟨settled, after false, after true⟩

theorem wp_postTask {holds : Bool → Context → Prop} (positive : 0 < n)
    (settled : context.Settled) (after : ∀ stored, holds stored context) :
    (protocol n).wp (postTask n t) context holds := by
  simp [postTask]
  refine wp_pushTaskRef positive ?_ ?_
  · rw [Context.serve_post, Context.serve_of_settled t settled]
    simpa using after true
  · simpa using after false

theorem wp_sleepUs {holds : Status → Context → Prop} (self : CoroPtr) (us : Nat)
    (after : ∀ st, holds st context) :
    (protocol n).wp (sleepUs self us) context holds := by
  simp [sleepUs, taskOf]
  intro t
  cases t with
  | none => exact after .error
  | some t => simpa [wp_ite] using ⟨after .error, after .waiting⟩

theorem wp_yieldPark {holds : Status → Context → Prop} (self : CoroPtr)
    (positive : 0 < n) (settled : context.Settled)
    (after : ∀ st, holds st context) :
    (protocol n).wp (yieldPark n self) context holds := by
  simp [yieldPark, taskOf]
  intro t
  cases t with
  | none => exact after .error
  | some t =>
      simp
      refine wp_pushTaskRef positive ?_ ?_
      · rw [Context.serve_of_settled t settled]
        simpa using after .waiting
      · simpa using after .error

theorem wp_adoptChild (self child : CoroPtr) (after : holds () context) :
    (protocol n).wp (await.adoptChild self child) context holds := by
  simp [await.adoptChild, taskOf, wp_ite]
  intro t
  split
  · exact fun _ _ => after
  · exact after

theorem wp_awaitChild {holds : Status → Context → Prop} (self child : CoroPtr)
    (after : ∀ st, holds st context) :
    (protocol n).wp (await.awaitChild self child) context holds := by
  simp [await.awaitChild, wp_ite]
  intro st
  split
  · exact after .finished
  · refine wp_adoptChild self child ?_
    simpa using after .waiting

theorem wp_await {holds : Status → Context → Prop} (self child : CoroPtr)
    (after : ∀ st, holds st context) :
    (protocol n).wp (await self child) context holds := by
  have rest := wp_awaitChild (n := n) self child after
  simp [await, wp_ite]
  intro awaiting
  split
  · exact rest
  · intro awaiting
    split
    · exact rest
    · exact after .error

theorem wp_createTask {holds : Option TaskPtr → Context → Prop} (c : CoroPtr)
    (positive : 0 < n) (settled : context.Settled)
    (after : ∀ t, holds t context) :
    (protocol n).wp (createTask n c) context holds := by
  simp [createTask]
  intro t
  cases t with
  | none => exact after none
  | some t =>
      simp
      refine wp_pushTaskRef positive ?_ ?_
      · rw [Context.serve_of_settled t settled]
        simpa using after (some t)
      · simpa using after none

theorem wp_discard {α : Type} {program : CoopProgram α}
    (safe : (protocol n).wp program context fun _ after => holds () after) :
    (protocol n).wp (runApi.discard program) context holds := by
  simpa [runApi.discard] using safe

theorem wp_runApi (a : Api) (positive : 0 < n) (settled : context.Settled)
    (after : holds () context) : (protocol n).wp (runApi n a) context holds := by
  cases a with
  | postTask t =>
      simp only [runApi, wp_ite]
      split
      · exact after
      · exact wp_discard (wp_postTask positive settled fun _ => after)
  | sleepUs self us => exact wp_discard (wp_sleepUs self us fun _ => after)
  | yieldPark self =>
      exact wp_discard (wp_yieldPark self positive settled fun _ => after)
  | await self child => exact wp_discard (wp_await self child fun _ => after)
  | createTask c =>
      exact wp_discard (wp_createTask c positive settled fun _ => after)
  | taskReclaim t =>
      simp only [runApi, wp_ite]
      split
      · exact after
      · exact wp_discard (wp_taskReclaim fun _ => after)
  | taskDetach t =>
      simp only [runApi, wp_ite]
      split
      · exact after
      · exact wp_discard (wp_taskDetach fun _ => after)
  | taskRetire t =>
      simp only [runApi, wp_ite]
      split
      · exact after
      · exact wp_discard (wp_taskRetire fun _ => after)
  | runUntil waiter =>
      exact wp_discard (wp_runUntil waiter settled fun _ => after)
  | poll => exact wp_poll settled after
  | yield => exact wp_yield positive settled after
  | setVmOnly c | setAutoFree c | setStatus c st => simpa [runApi] using fun _ => after

theorem wp_runnerPass (positive : 0 < n) (settled : context.Settled) (after : holds () context) :
    (protocol n).wp (runnerPass n) context holds := by
  simp [runnerPass]
  refine wp_pump settled (wp_fireTimers settled ?_)
  refine wp_drainOne positive settled fun claimed => ?_
  cases claimed with
  | true => simpa using after
  | false =>
      simp
      intro next
      cases next with
      | none => exact after
      | some _ => simpa using after

theorem wp_mainTurn (a : Act) (positive : 0 < n) (settled : context.Settled)
    (after : holds () context) : (protocol n).wp (mainTurn n a) context holds := by
  cases a with
  | api a => exact wp_runApi a positive settled after
  | ret st => exact wp_runnerPass positive settled after

end Specs

theorem protocol_verified {n : Nat} (positive : 0 < n) :
    (protocol n).Verified (body n) := by
  intro p context pre
  cases p with
  | main =>
      have settled : context.Settled := by
        rw [show context = [] from pre]
        exact Context.settled_nil
      simp [body]
      intro a
      refine wp_mainTurn a positive settled ?_
      simpa using pre
  | user =>
      simp [body]
      intro a
      cases a with
      | ret st => rfl
      | api a =>
          simp
          refine wp_runApi a positive pre ?_
          simpa [userStep] using pre
  | taskOf c =>
      simp [body]
      intro t
      cases t with
      | some t => simp
      | none =>
          simp
          intro waiter
          cases waiter with
          | none => simp
          | some parent => simp [taskOf]
  | leafOf t leaf =>
      simp [body]
      refine ⟨pre, fun child => ?_⟩
      cases child with
      | none => simp
      | some child => simpa using pre
  | stepLoop t =>
      obtain ⟨c, hand, rest, rfl, settled⟩ := pre
      refine wp_stepTurn positive settled ?_ ?_
      · simp
      · simp
  | fireTimers now =>
      simp [body]
      intro fired
      cases fired with
      | none => simp
      | some t =>
          have served : Context.serve t (.ref t :: context) = .ref t :: context := by
            rw [Context.serve_ref, Context.serve_of_settled t pre]
          simp
          refine wp_pushTaskRef positive ?_ ?_
          · rw [served]
            exact wp_taskUnref rfl rfl (by simpa using pre)
          · exact wp_taskUnref rfl rfl (by simpa using pre)
  | pollLoop => exact wp_pollTurn positive pre rfl
  | untilLoop waiter owner stallUntil =>
      exact wp_untilTurn waiter owner stallUntil positive pre fun _ => rfl

end Metal.Coop
