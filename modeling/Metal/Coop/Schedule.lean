import Metal.Coop.History

namespace Metal.Coop

open Metal.Lib

/-! Pieces of concrete schedules, for two runners that may both enter the VM.
Each piece takes its runner from one idle point to the next, except `pass`,
which stops where `fire_timers` has read the clock. -/

def pair : Setup 2 where
  size := 0
  worker := fun _ => false
  vmCapable := fun _ => false
  hasStep := fun _ => true

abbrev Schedule := List (Fin 2 × Choice)

def solo (r : Fin 2) (steps : Nat) : Schedule := List.replicate steps (r, .none)

def call (r : Fin 2) (a : Api) : Schedule := [(r, .act (.api a))]

def returns (r : Fin 2) (st : Status) : Schedule := [(r, .act (.ret st))]

def wakes (r : Fin 2) : Schedule := solo r 1

def setsVmOnly (r : Fin 2) (c : CoroPtr) : Schedule :=
  call r (.setVmOnly c) ++ solo r 2

def creates (r : Fin 2) (c : CoroPtr) (t : TaskPtr) : Schedule :=
  call r (.createTask c) ++ [(r, .block t)] ++ solo r 10

def pass (r : Fin 2) : Schedule :=
  returns r .pending ++ solo r 1 ++ returns r .pending ++ [(r, Choice.tick 0)]

/-- What is seen after a schedule that the callers may make is reached. -/
theorem exists_called (schedule : Schedule) (seen : pair.machine.Config → Bool)
    (ran : (Machine.run (fun r o w => callersOk r o w) schedule pair.start).any seen = true) :
    ∃ config, Machine.Reach (M := pair.machine) (fun r o w => callersOk r o w = true)
      pair.start config ∧ seen config = true :=
  Machine.exists_reach _ _ (fun _ _ _ ok => ok) pair.start schedule seen ran

/-! Core 0 of the pair runs alone, to a script of what it asks for. -/

def Op.asks : Op → Bool
  | .clock | .allocTimer | .allocTask _ | .act | .idle => true
  | _ => false

def playOp (allows : (o : Op) → o.Ret → Memory 2 → Bool) (o : Op)
    (s : Memory 2 × List Choice) : Option (o.Ret × Memory 2 × List Choice) :=
  match memExec 0 o (s.2.headD .none) s.1 with
  | none => none
  | some (answer, m) =>
      if allows o answer s.1 then some (answer, m, if o.asks then s.2.tail else s.2) else none

theorem playOp_result {allows : (o : Op) → o.Ret → Memory 2 → Bool} {o : Op}
    {s t : Memory 2 × List Choice} {answer : o.Ret}
    (played : playOp allows o s = some (answer, t)) :
    allows o answer s.1 = true ∧ ∃ choice, memExec 0 o choice s.1 = some (answer, t.1) := by
  unfold playOp at played
  split at played
  · cases played
  · rename_i reply m result
    split at played
    · rename_i allowed
      cases played
      exact ⟨allowed, s.2.headD .none, result⟩
    · cases played

end Metal.Coop
