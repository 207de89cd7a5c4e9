import Mathlib.Algebra.Group.Int.Units

namespace Metal.Lib

open Function

/-! Programs whose only effects are named atomic operations and calls of named
procedures.  A procedure call is expanded only when it is reached, so loops and
mutual recursion need no fuel. -/

structure Signature where
  Op : Type
  Ret : Op → Type
  Proc : Type
  Res : Proc → Type

inductive Program (S : Signature) (α : Type) : Type
  | done (value : α)
  | op (o : S.Op) (next : S.Ret o → Program S α)
  | call (p : S.Proc) (next : S.Res p → Program S α)

namespace Program

variable {S : Signature} {α β : Type}

def bind : Program S α → (α → Program S β) → Program S β
  | .done value, f => f value
  | .op o next, f => .op o fun answer => (next answer).bind f
  | .call p next, f => .call p fun answer => (next answer).bind f

instance : Monad (Program S) where
  pure := .done
  bind := bind

@[simp] theorem pure_eq (value : α) :
    (pure value : Program S α) = .done value := rfl

@[simp] theorem bind_eq (first : Program S α) (f : α → Program S β) :
    (first >>= f) = first.bind f := rfl

@[simp] theorem bind_done (value : α) (f : α → Program S β) :
    (Program.done value : Program S α).bind f = f value := rfl

@[simp] theorem bind_op (o : S.Op) (next : S.Ret o → Program S α)
    (f : α → Program S β) :
    (Program.op o next).bind f = .op o fun answer => (next answer).bind f := rfl

@[simp] theorem bind_call (p : S.Proc) (next : S.Res p → Program S α)
    (f : α → Program S β) :
    (Program.call p next).bind f =
      .call p fun answer => (next answer).bind f := rfl

def perform (o : S.Op) : Program S (S.Ret o) := .op o .done

def invoke (p : S.Proc) : Program S (S.Res p) := .call p .done

def embed {S' : Signature} (onOp : (o : S.Op) → Program S' (S.Ret o))
    (onCall : (p : S.Proc) → Program S' (S.Res p)) :
    Program S α → Program S' α
  | .done value => .done value
  | .op o next =>
      (onOp o).bind fun answer => (next answer).embed onOp onCall
  | .call p next =>
      (onCall p).bind fun answer => (next answer).embed onOp onCall

theorem bind_assoc {γ : Type} (first : Program S α) (f : α → Program S β)
    (g : β → Program S γ) :
    (first.bind f).bind g = first.bind fun value => (f value).bind g := by
  induction first with
  | done value => rfl
  | op o next ih =>
      simp only [bind_op]
      congr 1
      funext answer
      exact ih answer
  | call p next ih =>
      simp only [bind_call]
      congr 1
      funext answer
      exact ih answer

section Embed

variable {S' : Signature} (onOp : (o : S.Op) → Program S' (S.Ret o))
  (onCall : (p : S.Proc) → Program S' (S.Res p))

theorem embed_bind (first : Program S α) (f : α → Program S β) :
    (first.bind f).embed onOp onCall =
      (first.embed onOp onCall).bind fun value =>
        (f value).embed onOp onCall := by
  induction first with
  | done value => rfl
  | op o next ih =>
      simp only [bind_op, embed, bind_assoc]
      congr 1
      funext answer
      exact ih answer
  | call p next ih =>
      simp only [bind_call, embed, bind_assoc]
      congr 1
      funext answer
      exact ih answer

theorem embed_ite {condition : Prop} [Decidable condition]
    (yes no : Program S α) :
    (if condition then yes else no).embed onOp onCall =
      if condition then yes.embed onOp onCall else no.embed onOp onCall := by
  split <;> rfl

end Embed

end Program

/-! A machine runs one program per thread over a shared state.  An operation
may consult a choice made by the environment, and may be disabled (`none`). -/

structure Machine (S : Signature) where
  Thread : Type
  [threadEq : DecidableEq Thread]
  State : Type
  Choice : Type
  exec : Thread → (o : S.Op) → Choice → State → Option (S.Ret o × State)
  body : (p : S.Proc) → Program S (S.Res p)

namespace Machine

variable {S : Signature} (M : Machine S)

instance : DecidableEq M.Thread := M.threadEq

structure Config where
  state : M.State
  program : M.Thread → Program S Unit

variable {M}

def step (config : M.Config) (thread : M.Thread) (choice : M.Choice) :
    Option M.Config :=
  match config.program thread with
  | .done _ => none
  | .op o next =>
      match M.exec thread o choice config.state with
      | none => none
      | some (answer, state) =>
          some ⟨state, update config.program thread (next answer)⟩
  | .call p next =>
      some ⟨config.state,
        update config.program thread ((M.body p).bind next)⟩

/-- A schedule names, step by step, the thread that moves and what the
environment answers.  It runs as long as `allows` agrees. -/
def run (allows : M.Thread → S.Op → M.State → Bool) :
    List (M.Thread × M.Choice) → M.Config → Option M.Config
  | [], config => some config
  | (thread, choice) :: rest, config =>
      match step config thread choice with
      | none => none
      | some next =>
          match config.program thread with
          | .op o _ =>
              if allows thread o config.state then run allows rest next
              else none
          | _ => run allows rest next

/-- A condition on the operations a run performs, read in the state before the
operation. -/
abbrev Guard (M : Machine S) := M.Thread → S.Op → M.State → Prop

def Allows (guard : Guard M) (config : M.Config) (thread : M.Thread) : Prop :=
  ∀ o next, config.program thread = .op o next →
    guard thread o config.state

inductive Reach (guard : Guard M) (start : M.Config) : M.Config → Prop
  | refl : Reach guard start start
  | tail {config next : M.Config} {thread : M.Thread} {choice : M.Choice}
      (before : Reach guard start config)
      (allowed : Allows guard config thread)
      (moved : step config thread choice = some next) :
      Reach guard start next

abbrev Reachable (start : M.Config) : M.Config → Prop :=
  Reach (fun _ _ _ => True) start

theorem Reach.trans {guard : Guard M} {start middle finish : M.Config}
    (first : Reach guard start middle) (second : Reach guard middle finish) :
    Reach guard start finish := by
  induction second with
  | refl => exact first
  | tail _ allowed moved before => exact before.tail allowed moved

theorem reach_of_run {guard : Guard M}
    {allows : M.Thread → S.Op → M.State → Bool}
    (agrees : ∀ thread o state, allows thread o state = true →
      guard thread o state)
    {schedule : List (M.Thread × M.Choice)} {start finish : M.Config}
    (ran : run allows schedule start = some finish) :
    Reach guard start finish := by
  induction schedule generalizing start with
  | nil =>
      cases Option.some.inj ran
      exact .refl
  | cons move rest ih =>
      obtain ⟨thread, choice⟩ := move
      simp only [run] at ran
      cases moved : step start thread choice with
      | none => simp [moved] at ran
      | some next =>
          simp only [moved] at ran
          have first : Allows guard start thread ∧
              run allows rest next = some finish := by
            cases program : start.program thread with
            | done value => simp [step, program] at moved
            | call p k =>
                simp only [program] at ran
                exact ⟨fun o k at_op => by simp [program] at at_op, ran⟩
            | op o k =>
                simp only [program] at ran
                split at ran
                · rename_i allowed
                  refine ⟨fun o' k' at_op => ?_, ran⟩
                  rw [program] at at_op
                  cases at_op
                  exact agrees _ _ _ allowed
                · cases ran
          exact (Reach.tail .refl first.1 moved).trans (ih first.2)

theorem exists_reach (guard : Guard M)
    (allows : M.Thread → S.Op → M.State → Bool)
    (agrees : ∀ thread o state, allows thread o state = true →
      guard thread o state)
    (start : M.Config) (schedule : List (M.Thread × M.Choice))
    (check : M.Config → Bool)
    (ran : (run allows schedule start).any check = true) :
    ∃ config, Reach guard start config ∧ check config = true := by
  cases finish : run allows schedule start with
  | none => simp [finish] at ran
  | some config =>
      rw [finish] at ran
      exact ⟨config, reach_of_run agrees finish, ran⟩

/-- What one step of a machine can be: an expanded call, which leaves the state
alone, or an operation of the thread that moved. -/
theorem step_cases {config next : M.Config} {thread : M.Thread}
    {choice : M.Choice} (moved : step config thread choice = some next) :
    (∃ p k, config.program thread = .call p k ∧
      next = ⟨config.state,
        update config.program thread ((M.body p).bind k)⟩) ∨
    (∃ o k answer state, config.program thread = .op o k ∧
      M.exec thread o choice config.state = some (answer, state) ∧
      next = ⟨state, update config.program thread (k answer)⟩) := by
  unfold step at moved
  cases program : config.program thread with
  | done value => simp [program] at moved
  | call p k =>
      rw [program] at moved
      exact .inl ⟨p, k, rfl, (Option.some.inj moved).symm⟩
  | op o k =>
      rw [program] at moved
      cases result : M.exec thread o choice config.state with
      | none => simp [result] at moved
      | some outcome =>
          obtain ⟨answer, state⟩ := outcome
          simp only [result] at moved
          exact .inr ⟨o, k, answer, state, rfl, result,
            (Option.some.inj moved).symm⟩

end Machine

/-! Proof outlines.  Every thread carries a ghost value; an outline says which
operations the ghost permits and how it follows their answers.  `Outline.wp` is
the resulting weakest precondition, one clause per program constructor. -/

structure Outline (S : Signature) where
  Ghost : Type
  pre : (o : S.Op) → Ghost → Prop
  post : (o : S.Op) → Ghost → S.Ret o → Ghost → Prop
  callPre : (p : S.Proc) → Ghost → Prop
  callPost : (p : S.Proc) → Ghost → S.Res p → Ghost → Prop

namespace Outline

variable {S : Signature} (L : Outline S) {α β : Type}

def wp : Program S α → L.Ghost → (α → L.Ghost → Prop) → Prop
  | .done value, ghost, holds => holds value ghost
  | .op o next, ghost, holds =>
      L.pre o ghost ∧
        ∀ answer after, L.post o ghost answer after →
          wp (next answer) after holds
  | .call p next, ghost, holds =>
      L.callPre p ghost ∧
        ∀ answer after, L.callPost p ghost answer after →
          wp (next answer) after holds

@[simp] theorem wp_done (value : α) (ghost : L.Ghost)
    (holds : α → L.Ghost → Prop) :
    L.wp (.done value) ghost holds ↔ holds value ghost := Iff.rfl

theorem wp_op (o : S.Op) (next : S.Ret o → Program S α) (ghost : L.Ghost)
    (holds : α → L.Ghost → Prop) :
    L.wp (.op o next) ghost holds ↔
      L.pre o ghost ∧
        ∀ answer after, L.post o ghost answer after →
          L.wp (next answer) after holds := Iff.rfl

theorem wp_call (p : S.Proc) (next : S.Res p → Program S α) (ghost : L.Ghost)
    (holds : α → L.Ghost → Prop) :
    L.wp (.call p next) ghost holds ↔
      L.callPre p ghost ∧
        ∀ answer after, L.callPost p ghost answer after →
          L.wp (next answer) after holds := Iff.rfl

theorem wp_op_track {L : Outline S} {o : S.Op} {ghost : L.Ghost}
    {track : S.Ret o → L.Ghost} {learns : S.Ret o → Prop}
    (post : ∀ answer after, L.post o ghost answer after ↔
      after = track answer ∧ learns answer)
    (next : S.Ret o → Program S α) (holds : α → L.Ghost → Prop) :
    L.wp (.op o next) ghost holds ↔
      L.pre o ghost ∧ ∀ answer, learns answer →
        L.wp (next answer) (track answer) holds := by
  rw [wp_op]
  refine and_congr_right fun _ => forall_congr' fun answer => ?_
  constructor
  · intro safe learned
    exact safe _ ((post answer _).mpr ⟨rfl, learned⟩)
  · intro safe after follows
    obtain ⟨rfl, learned⟩ := (post answer after).mp follows
    exact safe learned

variable {ghost : L.Ghost}

theorem wp_ite {condition : Prop} [Decidable condition] {yes no : Program S α}
    {holds : α → L.Ghost → Prop} :
    L.wp (if condition then yes else no) ghost holds ↔
      if condition then L.wp yes ghost holds else L.wp no ghost holds := by
  split <;> rfl

theorem wp_mono {program : Program S α} {first second : α → L.Ghost → Prop}
    (weaken : ∀ value after, first value after → second value after)
    (holds : L.wp program ghost first) : L.wp program ghost second := by
  induction program generalizing ghost with
  | done value => exact weaken _ _ holds
  | op o next ih | call p next ih =>
      exact ⟨holds.1, fun answer after follows =>
        ih answer (holds.2 answer after follows)⟩

theorem wp_bind {program : Program S α} {f : α → Program S β} {holds : β → L.Ghost → Prop} :
    L.wp (program.bind f) ghost holds ↔
      L.wp program ghost fun value after => L.wp (f value) after holds := by
  induction program generalizing ghost with
  | done value => rfl
  | op o next ih =>
      simp only [Program.bind_op, wp_op, ih]
  | call p next ih =>
      simp only [Program.bind_call, wp_call, ih]

def Verified (body : (p : S.Proc) → Program S (S.Res p)) : Prop :=
  ∀ p ghost, L.callPre p ghost → L.wp (body p) ghost (L.callPost p ghost)

/-- Every operation a ghost permits keeps the shared invariant, for some way
the ghost may follow its answer. -/
def Sound {M : Machine S} (guard : Machine.Guard M)
    (invariant : M.State → (M.Thread → L.Ghost) → Prop) : Prop :=
  ∀ thread o choice state ghosts answer after,
    guard thread o state → invariant state ghosts → L.pre o (ghosts thread) →
    M.exec thread o choice state = some (answer, after) →
    ∃ ghost, L.post o (ghosts thread) answer ghost ∧
      invariant after (update ghosts thread ghost)

/-- The configuration satisfies the invariant for ghosts under which every
thread's remaining program is safe. -/
def Holds {M : Machine S}
    (invariant : M.State → (M.Thread → L.Ghost) → Prop)
    (config : M.Config) : Prop :=
  ∃ ghosts, invariant config.state ghosts ∧
    ∀ thread, L.wp (config.program thread) (ghosts thread) fun _ _ => True

theorem holds_of_reach {M : Machine S} {guard : Machine.Guard M}
    {invariant : M.State → (M.Thread → L.Ghost) → Prop}
    (verified : L.Verified M.body) (sound : L.Sound guard invariant)
    {start config : M.Config} (initial : L.Holds invariant start)
    (reach : Machine.Reach guard start config) :
    L.Holds invariant config := by
  induction reach with
  | refl => exact initial
  | @tail config next thread choice _ allowed moved before =>
      obtain ⟨ghosts, shared, safe⟩ := before
      have mine := safe thread
      rcases Machine.step_cases moved with ⟨p, k, at_call, rfl⟩ |
        ⟨o, k, answer, state, at_op, result, rfl⟩
      · refine ⟨ghosts, shared, fun other => ?_⟩
        by_cases same : other = thread
        · subst same
          rw [at_call, wp_call] at mine
          have expanded := (L.wp_bind).mpr
            (L.wp_mono mine.2 (verified p _ mine.1))
          simpa only [update_self] using expanded
        · simpa only [update_of_ne same] using safe other
      · rw [at_op, wp_op] at mine
        obtain ⟨ghost, follows, kept⟩ :=
          sound thread o choice _ ghosts answer state (allowed o k at_op)
            shared mine.1 result
        refine ⟨update ghosts thread ghost, kept, fun other => ?_⟩
        by_cases same : other = thread
        · subst same
          simpa only [update_self] using mine.2 answer ghost follows
        · simpa only [update_of_ne same] using safe other

/-- A property of the state that every permitted operation keeps is an
invariant beside one that needs no condition on the run. -/
theorem Sound.strengthen {L : Outline S} {M : Machine S}
    {guard : Machine.Guard M}
    {base : M.State → (M.Thread → L.Ghost) → Prop} {holds : M.State → Prop}
    (sound : L.Sound (fun _ _ _ => True) base)
    (kept : ∀ thread o choice state ghosts answer after,
      guard thread o state → base state ghosts → L.pre o (ghosts thread) →
      holds state → M.exec thread o choice state = some (answer, after) →
      holds after) :
    L.Sound guard fun state ghosts => base state ghosts ∧ holds state := by
  intro thread o choice state ghosts answer after allowed shared pre result
  obtain ⟨ghost, follows, based⟩ :=
    sound thread o choice state ghosts answer after trivial shared.1 pre result
  refine ⟨ghost, follows, based, ?_⟩
  exact kept thread o choice state ghosts answer after allowed shared.1 pre
    shared.2 result

theorem Holds.pre {L : Outline S} {M : Machine S}
    {invariant : M.State → (M.Thread → L.Ghost) → Prop} {config : M.Config}
    (holds : L.Holds invariant config) {thread : M.Thread} {o : S.Op}
    {next : S.Ret o → Program S Unit}
    (at_op : config.program thread = .op o next) :
    ∃ ghosts, invariant config.state ghosts ∧ L.pre o (ghosts thread) := by
  obtain ⟨ghosts, shared, safe⟩ := holds
  have mine := safe thread
  rw [at_op] at mine
  exact ⟨ghosts, shared, mine.1⟩

end Outline

end Metal.Lib
