import Metal.Lib.Program

namespace Metal.Lib

/-! Whole executions of a program on one thread, and contracts of its procedures. An
operation may have several outcomes: what the environment answers, and what other threads
did before it. -/

variable {S : Signature} {σ Place : Type}

namespace Program

section Runs

variable (exec : (o : S.Op) → σ → S.Ret o → σ → Prop)
  (body : (p : S.Proc) → Program S (S.Res p))

inductive Ends : {α : Type} → Program S α → σ → α → σ → Prop
  | done {α : Type} (value : α) (s : σ) : Ends (.done value) s value s
  | op {α : Type} {o : S.Op} {next : S.Ret o → Program S α} {s middle t : σ}
      {answer : S.Ret o} {value : α} (answers : exec o s answer middle)
      (rest : Ends (next answer) middle value t) : Ends (.op o next) s value t
  | call {α : Type} {p : S.Proc} {next : S.Res p → Program S α} {s middle t : σ}
      {answer : S.Res p} {value : α} (inside : Ends (body p) s answer middle)
      (rest : Ends (next answer) middle value t) : Ends (.call p next) s value t

inductive Visits (enter : S.Proc → Place → Place) :
    {α : Type} → Place → Program S α → σ → Place → S.Op → σ → Prop
  | here {α : Type} {place : Place} {o : S.Op} {next : S.Ret o → Program S α} {s : σ} :
      Visits enter place (.op o next) s place o s
  | op {α : Type} {place place' : Place} {o o' : S.Op} {next : S.Ret o → Program S α}
      {s middle t : σ} {answer : S.Ret o} (answers : exec o s answer middle)
      (later : Visits enter place (next answer) middle place' o' t) :
      Visits enter place (.op o next) s place' o' t
  | inside {α : Type} {place place' : Place} {p : S.Proc} {o' : S.Op}
      {next : S.Res p → Program S α} {s t : σ}
      (later : Visits enter (enter p place) (body p) s place' o' t) :
      Visits enter place (.call p next) s place' o' t
  | past {α : Type} {place place' : Place} {p : S.Proc} {o' : S.Op}
      {next : S.Res p → Program S α} {s middle t : σ} {answer : S.Res p}
      (inside : Ends exec body (body p) s answer middle)
      (later : Visits enter place (next answer) middle place' o' t) :
      Visits enter place (.call p next) s place' o' t

variable {exec body} {α β : Type}

theorem ends_bind {first : Program S α} {f : α → Program S β} {s t : σ} {value : β} :
    Ends exec body (first.bind f) s value t ↔
      ∃ answer middle, Ends exec body first s answer middle ∧
        Ends exec body (f answer) middle value t := by
  constructor
  · intro ends
    induction first generalizing s with
    | done answer => exact ⟨answer, s, .done answer s, ends⟩
    | op o next ih =>
        cases ends with
        | op answers rest =>
            obtain ⟨answer, middle, before, after⟩ := ih _ rest
            exact ⟨answer, middle, .op answers before, after⟩
    | call p next ih =>
        cases ends with
        | call inside rest =>
            obtain ⟨answer, middle, before, after⟩ := ih _ rest
            exact ⟨answer, middle, .call inside before, after⟩
  · rintro ⟨answer, middle, before, after⟩
    induction first generalizing s with
    | done _ =>
        cases before
        exact after
    | op o next ih =>
        cases before with
        | op answers rest => exact .op answers (ih _ rest)
    | call p next ih =>
        cases before with
        | call inside rest => exact .call inside (ih _ rest)

end Runs

/-- Every operation and every call the program itself comes to is one of these. -/
inductive Only (ops : S.Op → Prop) (calls : S.Proc → Prop) : {α : Type} → Program S α → Prop
  | done {α : Type} {value : α} : Only ops calls (.done value)
  | op {α : Type} {o : S.Op} {next : S.Ret o → Program S α} (fits : ops o)
      (rest : ∀ answer, Only ops calls (next answer)) : Only ops calls (.op o next)
  | call {α : Type} {p : S.Proc} {next : S.Res p → Program S α} (fits : calls p)
      (rest : ∀ answer, Only ops calls (next answer)) : Only ops calls (.call p next)

section Only

variable {ops : S.Op → Prop} {calls : S.Proc → Prop} {α β : Type}

theorem Only.bind {first : Program S α} {f : α → Program S β}
    (only : first.Only ops calls) (rest : ∀ value, (f value).Only ops calls) :
    (first.bind f).Only ops calls := by
  induction only with
  | done => exact rest _
  | op fits _ ih => exact .op fits ih
  | call fits _ ih => exact .call fits ih

theorem Only.mono {ops' : S.Op → Prop} {calls' : S.Proc → Prop}
    (weakenOp : ∀ o, ops o → ops' o) (weakenCall : ∀ p, calls p → calls' p)
    {program : Program S α} (only : program.Only ops calls) : program.Only ops' calls' := by
  induction only with
  | done => exact .done
  | op fits _ ih => exact .op (weakenOp _ fits) ih
  | call fits _ ih => exact .call (weakenCall _ fits) ih

theorem Only.embed {S' : Signature} {onOp : (o : S'.Op) → Program S (S'.Ret o)}
    {onCall : (p : S'.Proc) → Program S (S'.Res p)}
    (fitsOp : ∀ o, (onOp o).Only ops calls) (fitsCall : ∀ p, (onCall p).Only ops calls)
    (program : Program S' α) : (program.embed onOp onCall).Only ops calls := by
  induction program with
  | done value => exact .done
  | op o next ih => exact (fitsOp o).bind ih
  | call p next ih => exact (fitsCall p).bind ih

end Only

/-! A program played to its end, or to the first operation where it is to stop. -/

inductive Outcome (S : Signature) (σ Place α : Type) : Type
  | ended (value : α) (s : σ)
  | stopped (place : Place) (o : S.Op) (s : σ)

def Outcome.endsIn {σ Place α : Type} (check : σ → Bool) : Outcome S σ Place α → Bool
  | .ended _ s => check s
  | .stopped _ _ _ => false

def Outcome.isStopped {σ Place α : Type} : Outcome S σ Place α → Bool
  | .ended _ _ => false
  | .stopped _ _ _ => true

section Play

variable {τ : Type} (exec : (o : S.Op) → τ → Option (S.Ret o × τ))
  (body : (p : S.Proc) → Program S (S.Res p)) (enter : S.Proc → Place → Place)
  (stop : Place → S.Op → τ → Bool)

def play {α : Type} : Nat → Place → Program S α → τ → Option (Outcome S τ Place α)
  | 0, _, _, _ => none
  | _ + 1, _, .done value, s => some (.ended value s)
  | fuel + 1, place, .op o next, s =>
      if stop place o s then some (.stopped place o s)
      else
        match exec o s with
        | none => none
        | some (answer, middle) => play fuel place (next answer) middle
  | fuel + 1, place, .call p next, s =>
      match play fuel (enter p place) (body p) s with
      | none => none
      | some (.stopped place' o t) => some (.stopped place' o t)
      | some (.ended answer middle) => play fuel place (next answer) middle

variable {exec body enter stop} {runs : (o : S.Op) → σ → S.Ret o → σ → Prop} {view : τ → σ}
  {α : Type}

variable {program : Program S α}

theorem sound_of_play
    (follows : ∀ o s answer t, exec o s = some (answer, t) → runs o (view s) answer (view t))
    {fuel : Nat} {place : Place} {s : τ} {outcome : Outcome S τ Place α}
    (played : play exec body enter stop fuel place program s = some outcome) :
    match outcome with
    | .ended value t => Ends runs body program (view s) value (view t)
    | .stopped place' o t =>
        Visits runs body enter place program (view s) place' o (view t) ∧
          stop place' o t = true := by
  induction fuel generalizing α place s with
  | zero => simp [play] at played
  | succ fuel ih =>
      cases program with
      | done value =>
          simp only [play, Option.some.injEq] at played
          subst played
          exact .done value _
      | op o next =>
          simp only [play] at played
          split at played
          · rename_i stops
            cases played
            exact ⟨.here, stops⟩
          · cases result : exec o s with
            | none => simp [result] at played
            | some reply =>
                obtain ⟨answer, middle⟩ := reply
                simp only [result] at played
                have answers := follows o s answer middle result
                have rest := ih played
                cases outcome with
                | ended value t => exact .op answers rest
                | stopped place' o' t => exact ⟨.op answers rest.1, rest.2⟩
      | call p next =>
          simp only [play] at played
          cases inner : play exec body enter stop fuel (enter p place) (body p) s with
          | none => simp [inner] at played
          | some found =>
              have inside := ih inner
              cases found with
              | stopped place' o t =>
                  simp only [inner, Option.some.injEq] at played
                  subst played
                  exact ⟨.inside inside.1, inside.2⟩
              | ended answer middle =>
                  simp only [inner] at played
                  have rest := ih played
                  cases outcome with
                  | ended value t => exact .call inside rest
                  | stopped place' o' t => exact ⟨.past inside rest.1, rest.2⟩

theorem ends_of_play
    (follows : ∀ o s answer t, exec o s = some (answer, t) → runs o (view s) answer (view t))
    {fuel : Nat} {place : Place} {s : τ} {check : τ → Bool}
    (played : (play exec body enter stop fuel place program s).any (Outcome.endsIn check) =
      true) : ∃ value t, Ends runs body program (view s) value (view t) ∧ check t = true := by
  cases found : play exec body enter stop fuel place program s with
  | none => simp [found] at played
  | some outcome =>
      have sound := sound_of_play follows found
      cases outcome with
      | ended value t => exact ⟨value, t, sound, by simpa [found, Outcome.endsIn] using played⟩
      | stopped place' o t => simp [found, Outcome.endsIn] at played

theorem visits_of_play
    (follows : ∀ o s answer t, exec o s = some (answer, t) → runs o (view s) answer (view t))
    {fuel : Nat} {place : Place} {s : τ}
    (played : (play exec body enter stop fuel place program s).any Outcome.isStopped = true) :
    ∃ place' o t, Visits runs body enter place program (view s) place' o (view t) ∧
      stop place' o t = true := by
  cases found : play exec body enter stop fuel place program s with
  | none => simp [found] at played
  | some outcome =>
      have sound := sound_of_play follows found
      cases outcome with
      | ended value t => simp [found, Outcome.isStopped] at played
      | stopped place' o t => exact ⟨place', o, t, sound⟩

end Play

end Program

/-- What holds where each operation is about to happen, and what each procedure needs and
gives. -/
structure Contract (S : Signature) (σ Place : Type) where
  exec : (o : S.Op) → σ → S.Ret o → σ → Prop
  enter : S.Proc → Place → Place
  sees : Place → S.Op → σ → Prop
  pre : Place → S.Proc → σ → Prop
  post : Place → (p : S.Proc) → σ → S.Res p → σ → Prop

namespace Contract

variable (C : Contract S σ Place) {α β : Type}

def wp (place : Place) : Program S α → σ → (α → σ → Prop) → Prop
  | .done value, s, holds => holds value s
  | .op o next, s, holds =>
      C.sees place o s ∧ ∀ answer t, C.exec o s answer t → wp place (next answer) t holds
  | .call p next, s, holds =>
      C.pre place p s ∧ ∀ answer t, C.post place p s answer t → wp place (next answer) t holds

variable {C} {place : Place} {s : σ}

@[simp] theorem wp_done (value : α) (holds : α → σ → Prop) :
    C.wp place (.done value) s holds ↔ holds value s := Iff.rfl

variable {holds : α → σ → Prop}

theorem wp_op {o : S.Op} {next : S.Ret o → Program S α} :
    C.wp place (.op o next) s holds ↔
      C.sees place o s ∧
        ∀ answer t, C.exec o s answer t → C.wp place (next answer) t holds := Iff.rfl

theorem wp_call {p : S.Proc} {next : S.Res p → Program S α} :
    C.wp place (.call p next) s holds ↔
      C.pre place p s ∧
        ∀ answer t, C.post place p s answer t → C.wp place (next answer) t holds := Iff.rfl

variable {program : Program S α}

theorem wp_mono {first second : α → σ → Prop} (weaken : ∀ value t, first value t → second value t)
    (safe : C.wp place program s first) : C.wp place program s second := by
  induction program generalizing s with
  | done value => exact weaken value s safe
  | op o next ih =>
      exact ⟨safe.1, fun answer t answers => ih answer (safe.2 answer t answers)⟩
  | call p next ih =>
      exact ⟨safe.1, fun answer t gives => ih answer (safe.2 answer t gives)⟩

theorem wp_bind {f : α → Program S β} {holds : β → σ → Prop} :
    C.wp place (program.bind f) s holds ↔
      C.wp place program s fun value t => C.wp place (f value) t holds := by
  induction program generalizing s with
  | done value => rfl
  | op o next ih => simp only [Program.bind_op, wp_op, ih]
  | call p next ih => simp only [Program.bind_call, wp_call, ih]

variable (C) in
def Verified (body : (p : S.Proc) → Program S (S.Res p)) : Prop :=
  ∀ place p s, C.pre place p s →
    C.wp (C.enter p place) (body p) s (C.post place p s)

theorem wp_of_only {ops : S.Op → Prop} {calls : S.Proc → Prop} {holds : σ → Prop}
    (onOp : ∀ o s, ops o → holds s →
      C.sees place o s ∧ ∀ answer t, C.exec o s answer t → holds t)
    (onCall : ∀ p s, calls p → holds s →
      C.pre place p s ∧ ∀ answer t, C.post place p s answer t → holds t)
    (only : program.Only ops calls) (start : holds s) :
    C.wp place program s fun _ t => holds t := by
  induction only generalizing s with
  | done => exact start
  | op fits _ ih =>
      obtain ⟨sees, kept⟩ := onOp _ s fits start
      exact ⟨sees, fun answer t answers => ih answer (kept answer t answers)⟩
  | call fits _ ih =>
      obtain ⟨pre, kept⟩ := onCall _ s fits start
      exact ⟨pre, fun answer t gives => ih answer (kept answer t gives)⟩

variable {body : (p : S.Proc) → Program S (S.Res p)}

theorem holds_of_ends (verified : C.Verified body) {value : α} {t : σ}
    (safe : C.wp place program s holds) (ends : Program.Ends C.exec body program s value t) :
    holds value t := by
  induction ends generalizing place with
  | done value s => exact safe
  | op answers _ ih => exact ih (safe.2 _ _ answers)
  | call _ _ inside rest => exact rest (safe.2 _ _ (inside (verified _ _ _ safe.1)))

theorem sees_of_visits (verified : C.Verified body) {place' : Place} {o : S.Op} {t : σ}
    (safe : C.wp place program s holds)
    (visits : Program.Visits C.exec body C.enter place program s place' o t) :
    C.sees place' o t := by
  induction visits with
  | here => exact safe.1
  | op answers _ ih => exact ih (safe.2 _ _ answers)
  | inside _ ih => exact ih (verified _ _ _ safe.1)
  | past inside _ ih =>
      exact ih (safe.2 _ _ (holds_of_ends verified (verified _ _ _ safe.1) inside))

end Contract

end Metal.Lib
