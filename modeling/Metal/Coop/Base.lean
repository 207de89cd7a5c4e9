import Metal.Coop.Effects
import Metal.Coop.Sections
import Metal.Coop.Verified

namespace Metal.Coop

open Metal.Lib Function

/-! What holds in every state of every run: a runner inside `step_task` reads
the root it entered with or NULL, `running` has one holder, and a claimed slot
has one claimer. -/

variable {N : Nat}

def Section.isRun (t : TaskPtr) : Section → Bool
  | .run t' _ => t' == t
  | _ => false

def Section.isClaim (idx : Nat) : Section → Bool
  | .claim idx' _ => idx' == idx
  | _ => false

theorem blind_isRun (t : TaskPtr) : Blind (Section.isRun t) :=
  ⟨fun _ _ _ => rfl, fun _ _ _ => rfl, fun _ _ _ => rfl⟩

theorem blind_isClaim (idx : Nat) : Blind (Section.isClaim idx) :=
  ⟨fun _ _ _ => rfl, fun _ _ _ => rfl, fun _ _ _ => rfl⟩

theorem blind_step (t : TaskPtr) (c : CoroPtr) : Blind (· == .step t c) :=
  ⟨fun _ _ _ => rfl, fun _ _ _ => rfl, fun _ _ _ => rfl⟩

theorem blind_claim (idx : Nat) (t : TaskPtr) : Blind (· == .claim idx t) :=
  ⟨fun _ _ _ => rfl, fun _ _ _ => rfl, fun _ _ _ => rfl⟩

theorem kind_of_isRun (t : TaskPtr) (entry : Section)
    (isRun : entry.isRun t = true) : entry.kind = .run := by
  cases entry <;> first | rfl | cases isRun

theorem kind_of_isClaim (idx : Nat) (entry : Section)
    (isClaim : entry.isClaim idx = true) : entry.kind = .claim := by
  cases entry <;> first | rfl | cases isClaim

structure Based (w : World N) : Prop where
  vmReady : w.mem.vmLockReady = true
  rootBorn : ∀ t, (w.mem.tasks t).root ≠ none → (w.mem.tasks t).born = true
  runBorn : ∀ t, (w.mem.tasks t).running = true → (w.mem.tasks t).born = true
  stepBorn : ∀ r t c, .step t c ∈ w.context r → (w.mem.tasks t).born = true
  rooted : ∀ r t c, .step t c ∈ w.context r →
    (w.mem.tasks t).root = none ∨ (w.mem.tasks t).root = some c
  runs : ∀ t, w.tally (Section.isRun t) = (w.mem.tasks t).running.toNat
  claims : ∀ idx, w.tally (Section.isClaim idx) =
    (decide (ringSt (w.mem.inbox.slot idx) = ringStClaimed)).toNat
  claimed : ∀ r idx t, .claim idx t ∈ w.context r →
    wordTask (w.mem.inbox.slot idx) = t

section Kept

variable {n : Nat} {r : Fin N} {o : Op} {choice : Choice} {w : World N}
  {answer : o.Ret} {m' : Memory N}

theorem rootBorn_kept (based : Based w)
    (result : memExec r o choice w.mem = some (answer, m')) (t : TaskPtr)
    (root : (m'.tasks t).root ≠ none) : (m'.tasks t).born = true := by
  rw [(memExec_follows result).root t] at root
  cases o with
  | allocTask c =>
      rw [(memExec_follows result).born t]
      simp only [bornAfter, rootAfter] at root ⊢
      split at root
      · rename_i fresh
        rw [if_pos fresh]
      · rename_i other
        rw [if_neg other]
        exact based.rootBorn t root
  | clearRoot t' outside =>
      simp only [rootAfter] at root
      split at root
      · exact absurd rfl root
      · exact memExec_born result (based.rootBorn t root)
  | _ => exact memExec_born result (based.rootBorn t root)

theorem runBorn_kept (based : Based w) (pre : preOp n o (w.context r))
    (result : memExec r o choice w.mem = some (answer, m')) (t : TaskPtr)
    (running : (m'.tasks t).running = true) : (m'.tasks t).born = true := by
  apply memExec_born result
  rw [(memExec_follows result).running t] at running
  cases o with
  | casRunning t' =>
      obtain ⟨c, rest, context⟩ := pre
      simp only [runningAfter] at running
      split at running
      · rename_i won
        rw [won.2]
        exact based.stepBorn r t' c (by rw [context]; simp)
      · exact based.runBorn t running
  | clearRunning t' | allocTask c =>
      simp only [runningAfter] at running
      split at running
      · cases running
      · exact based.runBorn t running
  | _ => exact based.runBorn t running

variable {t : TaskPtr}

theorem mem_step_track {c : CoroPtr} (pre : preOp n o (w.context r))
    (result : memExec r o choice w.mem = some (answer, m'))
    (member : .step t c ∈ track o answer (w.context r)) :
    .step t c ∈ w.context r ∨
      (o = .enterTask t ∧ (w.mem.tasks t).root = some c) := by
  rcases mem_track (blind_step t c) pre member with old | fresh
  · exact .inl old
  · have kind := kind_of_pushed pre fresh
    cases o with
    | enterTask t' =>
        cases result
        cases root : (w.mem.tasks t').root with
        | none => simp [pushed, root] at fresh
        | some c' =>
            simp [pushed, root] at fresh
            obtain ⟨rfl, rfl⟩ := fresh
            exact .inr ⟨rfl, root⟩
    | ring o => cases o <;> cases kind
    | mark m => cases m <;> cases kind
    | _ => cases kind

section

variable (based : Based w)
  (pre : preOp n o (w.context r))
  (result : memExec r o choice w.mem = some (answer, m'))
include based pre result

theorem runs_kept (t : TaskPtr) : (note r o answer w m').tally (Section.isRun t) =
      (m'.tasks t).running.toNat := by
  have balance := tally_note (blind_isRun t) r o answer w m' pre
  have runs := based.runs t
  have quiet : (o.popKind == some .run) = false →
      (o.pushKind == some .run) = false →
      (note r o answer w m').tally (Section.isRun t) =
        (w.mem.tasks t).running.toNat := by
    intro pop push
    rw [← runs]
    exact tally_quiet (blind_isRun t) (kind_of_isRun t) r answer w m' pre
      (ne_of_beq_false pop) (ne_of_beq_false push)
  rw [(memExec_follows result).running t]
  cases o with
  | casRunning t' =>
      cases answer with
      | false =>
          simp [popped, pops, pushed, runningAfter] at balance ⊢
          omega
      | true =>
          have free := casRunning_won result
          by_cases same : t = t'
          · subst same
            simp [popped, pops, pushed, Section.isRun, free, runningAfter]
              at balance runs ⊢
            omega
          · simp [popped, pops, pushed, Section.isRun, Ne.symm same, same,
              runningAfter] at balance ⊢
            omega
  | clearRunning t' =>
      obtain ⟨rest, context⟩ := pre
      have bound : (w.mem.tasks t).running.toNat ≤ 1 := Bool.toNat_le _
      by_cases same : t = t'
      · subst same
        simp [popped, pops, pushed, context, Section.isRun, runningAfter]
          at balance ⊢
        omega
      · simp [popped, pops, pushed, context, Section.isRun, Ne.symm same, same,
          runningAfter] at balance ⊢
        omega
  | allocTask c =>
      rw [quiet rfl rfl]
      simp only [runningAfter]
      split
      · rename_i fresh
        subst fresh
        have free := mt (based.runBorn t) (by simp [alloc_unborn result])
        simp [free]
      · rfl
  | ring o => cases o <;> exact quiet rfl rfl
  | mark m => cases m <;> exact quiet rfl rfl
  | _ => exact quiet rfl rfl

theorem claims_kept (idx : Nat) : (note r o answer w m').tally (Section.isClaim idx) =
      (decide (ringSt (m'.inbox.slot idx) = ringStClaimed)).toNat := by
  have balance := tally_note (blind_isClaim idx) r o answer w m' pre
  have claims := based.claims idx
  have quiet : (o.popKind == some .claim) = false →
      (o.pushKind == some .claim) = false →
      (note r o answer w m').tally (Section.isClaim idx) =
        (decide (ringSt (w.mem.inbox.slot idx) = ringStClaimed)).toNat := by
    intro pop push
    rw [← claims]
    exact tally_quiet (blind_isClaim idx) (kind_of_isClaim idx) r answer w m'
      pre (ne_of_beq_false pop) (ne_of_beq_false push)
  rw [(memExec_follows result).slot]
  cases o with
  | ring o => cases o with
    | casSlot idx' expected desired =>
        cases answer with
        | false =>
            simp [popped, pops, popsRing, pushed, pushedRing, slotAfter]
              at balance ⊢
            omega
        | true =>
            have was := casSlot_stored result
            rcases pre.2 with ⟨empty, t, rest, word, context⟩ | ⟨ready, word⟩
            · have free : ringSt ringStEmpty ≠ ringStClaimed := by decide
              have stored : ringSt (taskWord t) ≠ ringStClaimed := by
                rw [taskWord, ringSt_ringPack _ (by decide) (by decide)]
                decide
              by_cases same : idx = idx'
              · subst same
                simp [popped, pops, popsRing, pushed, pushedRing, empty,
                  context, Section.isClaim, slotAfter, word, stored, was, free]
                  at balance claims ⊢
                omega
              · simp [popped, pops, popsRing, pushed, pushedRing, empty,
                  context, Section.isClaim, slotAfter, same] at balance ⊢
                omega
            · have nonempty := ne_empty_of_ready ready
              have free : ringSt expected ≠ ringStClaimed := by
                rw [ready]
                decide
              by_cases same : idx = idx'
              · subst same
                simp [popped, pops, popsRing, pushed, pushedRing, nonempty,
                  Section.isClaim, slotAfter, word, ringSt_claimedWord, was,
                  free] at balance claims ⊢
                omega
              · simp [popped, pops, popsRing, pushed, pushedRing, nonempty,
                  Section.isClaim, slotAfter, same, Ne.symm same] at balance ⊢
                omega
    | clearSlot idx' =>
        obtain ⟨_, t, rest, context⟩ := pre
        have free : ringSt ringStEmpty ≠ ringStClaimed := by decide
        have bound := Bool.toNat_le
          (decide (ringSt (w.mem.inbox.slot idx) = ringStClaimed))
        by_cases same : idx = idx'
        · subst same
          simp [popped, pops, popsRing, pushed, pushedRing, context,
            Section.isClaim, slotAfter, free] at balance ⊢
          omega
        · simp [popped, pops, popsRing, pushed, pushedRing, context,
            Section.isClaim, slotAfter, same, Ne.symm same] at balance ⊢
          omega
    | _ => exact quiet rfl rfl
  | mark m => cases m <;> exact quiet rfl rfl
  | _ => exact quiet rfl rfl

end

theorem tally_pos_of_mem {p : Section → Bool} {entry : Section}
    (member : entry ∈ w.context r) (holds : p entry = true) : 0 < w.tally p :=
  Nat.lt_of_lt_of_le (List.countP_pos_iff.mpr ⟨entry, member, holds⟩)
    (w.countP_le_tally p r)

theorem Based.claim_busy (based : Based w) {idx : Nat} (member : .claim idx t ∈ w.context r) :
    ringSt (w.mem.inbox.slot idx) = ringStClaimed := by
  have positive := tally_pos_of_mem (p := Section.isClaim idx) member
    (by simp [Section.isClaim])
  rw [based.claims idx] at positive
  by_contra free
  simp [free] at positive

variable {r' : Fin N}

theorem mem_note {entry : Section} (blind : Blind (· == entry)) (pre : preOp n o (w.context r))
    (member : entry ∈ (note r o answer w m').context r') :
    entry ∈ w.context r' ∨ (r' = r ∧ entry ∈ pushed o answer (w.context r)) := by
  by_cases same : r' = r
  · subst same
    simp only [note, update_self] at member
    rcases mem_track blind pre member with old | fresh
    · exact .inl old
    · exact .inr ⟨rfl, fresh⟩
  · simp only [note, update_of_ne same] at member
    exact .inl member

section Based

variable (based : Based w)
  (pre : preOp n o (w.context r))
  (result : memExec r o choice w.mem = some (answer, m'))
include based pre result

theorem claimed_kept {idx : Nat}
    (member : .claim idx t ∈ (note r o answer w m').context r') :
    wordTask (m'.inbox.slot idx) = t := by
  have held := claims_kept based pre result idx
  have positive := tally_pos_of_mem (p := Section.isClaim idx) member
    (by simp [Section.isClaim])
  have claimed : ringSt (m'.inbox.slot idx) = ringStClaimed := by
    by_contra free
    simp [free] at held
    omega
  rw [(memExec_follows result).slot] at claimed ⊢
  rcases mem_note (blind_claim idx t) pre member with old | ⟨_, fresh⟩
  · have before := based.claimed r' idx t old
    have heldBefore := based.claim_busy old
    cases o with
    | ring o => cases o with
      | casSlot idx' expected desired =>
          cases answer with
          | false => exact before
          | true =>
              by_cases same : idx = idx'
              · subst same
                have was := casSlot_stored result
                rw [was] at heldBefore
                rcases pre.2 with ⟨empty, _⟩ | ⟨ready, _⟩
                · rw [empty] at heldBefore
                  exact absurd heldBefore (by decide)
                · rw [ready] at heldBefore
                  exact absurd heldBefore (by decide)
              · simpa [slotAfter, same] using before
      | clearSlot idx' =>
          by_cases same : idx = idx'
          · subst same
            simp [slotAfter] at claimed
            exact absurd claimed (by decide)
          · simpa [slotAfter, same] using before
      | _ => exact before
    | _ => exact before
  · have kind := kind_of_pushed pre fresh
    cases o with
    | ring o => cases o with
      | casSlot idx' expected desired =>
          simp only [pushed, pushedRing] at fresh
          split at fresh
          · rename_i stored
            simp at fresh
            simp [slotAfter, stored.1, fresh.1, fresh.2]
          · cases fresh
      | _ => cases kind
    | mark m => cases m <;> cases kind
    | _ => cases kind

theorem stepBorn_kept {c : CoroPtr}
    (member : .step t c ∈ (note r o answer w m').context r') : (w.mem.tasks t).born = true := by
  by_cases same : r' = r
  · subst same
    simp only [note, update_self] at member
    rcases mem_step_track pre result member with old | ⟨_, root⟩
    · exact based.stepBorn r' t c old
    · exact based.rootBorn t (by simp [root])
  · simp only [note, update_of_ne same] at member
    exact based.stepBorn r' t c member

theorem rooted_kept {c : CoroPtr} (member : .step t c ∈ (note r o answer w m').context r') :
    (m'.tasks t).root = none ∨ (m'.tasks t).root = some c := by
  have born := stepBorn_kept based pre result member
  have before : (w.mem.tasks t).root = none ∨ (w.mem.tasks t).root = some c := by
    by_cases same : r' = r
    · subst same
      simp only [note, update_self] at member
      rcases mem_step_track pre result member with old | ⟨_, root⟩
      · exact based.rooted r' t c old
      · exact .inr root
    · simp only [note, update_of_ne same] at member
      exact based.rooted r' t c member
  rw [(memExec_follows result).root t]
  cases o with
  | allocTask c' =>
      simp only [rootAfter]
      split
      · rename_i fresh
        subst fresh
        rw [alloc_unborn result] at born
        cases born
      · exact before
  | clearRoot t' outside =>
      simp only [rootAfter]
      split
      · exact .inl rfl
      · exact before
  | _ => exact before

theorem based_kept : Based (note r o answer w m') where
  vmReady := (memExec_follows result).vmLockReady.trans based.vmReady
  rootBorn := rootBorn_kept based result
  runBorn := runBorn_kept based pre result
  stepBorn := fun _ _ _ member =>
    memExec_born result (stepBorn_kept based pre result member)
  rooted := fun _ _ _ member => rooted_kept based pre result member
  runs := runs_kept based pre result
  claims := claims_kept based pre result
  claimed := fun _ _ _ member => claimed_kept based pre result member

end Based

theorem learns_of_result (based : Based w)
    (result : memExec r o choice w.mem = some (answer, m')) :
    learns o answer (w.context r) := by
  cases o with
  | loadVmLockReady =>
      cases result
      exact based.vmReady
  | loadRoot t =>
      cases result
      intro c c' root member
      rcases based.rooted r t c' member with cleared | same
      · rw [cleared] at root
        cases root
      · rw [same] at root
        exact Option.some.inj root
  | _ => trivial

end Kept

section Runs

variable {setup : Setup N}

def Tracked (w : World N) (ghosts : Fin N → Context) : Prop :=
  ghosts = w.context ∧ Based w

theorem exec_result {r : Fin N} {o : Op} {choice : Choice} {w w' : World N}
    {answer : o.Ret} (result : exec r o choice w = some (answer, w')) :
    (∀ t, o.block = some t → (w.mem.tasks t).born = true) ∧
      ∃ m', memExec r o choice w.mem = some (answer, m') ∧
        w' = note r o answer w m' := by
  unfold exec at result
  split at result
  · cases result
  · rename_i allocated
    refine ⟨fun t touched => by simpa [touched] using allocated, ?_⟩
    cases memory : memExec r o choice w.mem with
    | none => simp [memory] at result
    | some outcome =>
        obtain ⟨reply, m'⟩ := outcome
        simp only [memory] at result
        cases result
        exact ⟨m', rfl, rfl⟩

theorem protocol_sound (setup : Setup N) :
    (protocol setup.n).Sound (M := setup.machine) (fun _ _ _ => True)
      Tracked := by
  intro r o choice w ghosts answer w' _ tracked pre result
  obtain ⟨rfl, based⟩ := tracked
  obtain ⟨_, m', memory, rfl⟩ := exec_result result
  refine ⟨track o answer (w.context r), ?_, rfl, based_kept based pre memory⟩
  exact ⟨rfl, learns_of_result based memory⟩

theorem Setup.n_pos (setup : Setup N) : 0 < setup.n :=
  Nat.two_pow_pos _

theorem tally_start (setup : Setup N) (p : Section → Bool) :
    setup.start.state.tally p = 0 :=
  tally_eq_zero fun _ _ => rfl

theorem start_based (setup : Setup N) : Based setup.start.state where
  vmReady := rfl
  rootBorn := fun _ root => absurd rfl root
  runBorn := fun _ running => by cases running
  stepBorn := fun _ _ _ member => by cases member
  rooted := fun _ _ _ member => by cases member
  runs := fun t => tally_start setup (Section.isRun t)
  claims := fun idx => by
    have free : ringSt (setup.start.state.mem.inbox.slot idx) ≠
        ringStClaimed := by
      change ringSt 0 ≠ ringStClaimed
      decide
    simp [tally_start, free]
  claimed := fun _ _ _ member => by cases member

/-- The rule by which a property of the state is proved of every run that meets
a condition: it holds at the start, and every operation that the condition and
the discipline permit keeps it. -/
theorem Setup.invariant {guard : Fin N → Op → World N → Prop}
    (holds : World N → Prop) (initial : holds setup.start.state)
    (kept : ∀ r o choice w answer m', guard r o w → Based w →
      preOp setup.n o (w.context r) →
      (∀ t, o.block = some t → (w.mem.tasks t).born = true) →
      memExec r o choice w.mem = some (answer, m') → holds w →
      holds (note r o answer w m'))
    {config : setup.machine.Config}
    (reach : Machine.Reach (M := setup.machine) guard setup.start config) :
    holds config.state ∧ Based config.state ∧
      ∀ r o next, config.program r = .op o next →
        preOp setup.n o (config.state.context r) := by
  have start : (protocol setup.n).Holds (M := setup.machine)
      (fun w ghosts => Tracked w ghosts ∧ holds w) setup.start := by
    refine ⟨setup.start.state.context, ⟨⟨rfl, start_based setup⟩, initial⟩, ?_⟩
    intro r
    refine wp_call.mpr ⟨rfl, fun _ _ _ => trivial⟩
  have sound : (protocol setup.n).Sound (M := setup.machine) guard
      (fun w ghosts => Tracked w ghosts ∧ holds w) := by
    refine Outline.Sound.strengthen (protocol_sound setup) ?_
    intro r o choice w ghosts answer w' allowed tracked pre before result
    obtain ⟨rfl, based⟩ := tracked
    obtain ⟨touched, m', memory, rfl⟩ := exec_result result
    exact kept r o choice w answer m' allowed based pre touched memory before
  have reached := Outline.holds_of_reach _
    (protocol_verified setup.n_pos) sound start reach
  obtain ⟨_, ⟨⟨_, based⟩, held⟩, _⟩ := id reached
  refine ⟨held, based, ?_⟩
  intro r o next at_op
  obtain ⟨ghosts, ⟨⟨same, _⟩, _⟩, pre⟩ := reached.pre at_op
  rw [same] at pre
  exact pre

end Runs

end Metal.Coop
