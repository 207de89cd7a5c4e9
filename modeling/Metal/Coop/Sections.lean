import Metal.Lib.Tally
import Metal.Coop.Protocol

namespace Metal.Coop

open Metal.Lib

/-! Counting sections.  An operation pushes at most one section and pops at
most one; everything else it does to a context is to mark sections. -/

structure Blind (p : Section → Bool) : Prop where
  drive : ∀ t hand hand', p (.drive t hand) = p (.drive t hand')
  wake : ∀ t hand hand', p (.wake t hand) = p (.wake t hand')
  run : ∀ t vm vm', p (.run t vm) = p (.run t vm')

namespace Context

variable {p : Section → Bool}

theorem countP_serve (blind : Blind p) (t : TaskPtr) (context : Context) :
    (context.serve t).countP p = context.countP p := by
  induction context with
  | nil => rfl
  | cons entry rest ih =>
      cases entry with
      | drive t' hand =>
          simp only [serve]
          split
          · rename_i same
            rw [← same.1, List.countP_cons, List.countP_cons,
              blind.drive t' .served hand]
          · rw [List.countP_cons, List.countP_cons, ih]
      | wake t' hand =>
          simp only [serve]
          split
          · rename_i same
            rw [← same.1, List.countP_cons, List.countP_cons,
              blind.wake t' .served hand]
          · rw [List.countP_cons, List.countP_cons, ih]
      | _ => simp only [serve, List.countP_cons, ih]

theorem countP_tries (blind : Blind p) (t : TaskPtr) (context : Context) :
    (context.tries t).countP p = context.countP p := by
  induction context with
  | nil => rfl
  | cons entry rest ih =>
      cases entry with
      | drive t' hand =>
          simp only [tries]
          split
          · rename_i same
            rw [← same.1, List.countP_cons, List.countP_cons,
              blind.drive t' .tried hand]
          · rw [List.countP_cons, List.countP_cons, ih]
      | _ => simp only [tries, List.countP_cons, ih]

theorem countP_setVm (blind : Blind p) (t : TaskPtr) (vm : Bool)
    (context : Context) :
    (context.setVm t vm).countP p = context.countP p := by
  cases context with
  | nil => rfl
  | cons entry rest =>
      cases entry with
      | run t' vm' =>
          simp only [setVm, List.countP_cons]
          rw [blind.run t' _ vm']
      | _ => rfl

theorem countP_tail (context : Context) :
    context.tail.countP p + (context.take 1).countP p = context.countP p := by
  cases context with
  | nil => rfl
  | cons entry rest => simp [List.countP_cons]

end Context

def pushedRing : (o : RingOp) → o.Ret → Context → List Section
  | .casSlot idx expected desired, stored, _ =>
      if stored = true ∧ expected ≠ ringStEmpty then
        [.claim idx (wordTask desired)]
      else []
  | .clearSlot _, _, context =>
      match context with
      | .claim _ t :: _ => [.drive t .fresh]
      | _ => []
  | _, _, _ => []

def pushedMark : Mark → List Section
  | .enterPost t => [.post t]
  | _ => []

def pushed : (o : Op) → o.Ret → Context → List Section
  | .ring o, answer, context => pushedRing o answer context
  | .addRef t, _, _ => [.ref t]
  | .subRef t, was, _ => if lastRef was then [.free t] else []
  | .orDead t, prev, _ => if unheld prev then [.free t] else []
  | .enterTask t, root, _ =>
      match root with
      | none => []
      | some c => [.step t c]
  | .clearRoot t outside, _, _ => if outside then [.retire t] else []
  | .casRunning t, won, _ => if won then [.run t false] else []
  | .popTimer _, fired, _ =>
      match fired with
      | none => []
      | some t => [.ref t]
  | .park _ holder, claimed, _ =>
      if claimed = some true then [.ref holder] else []
  | .handOver _, woken, _ =>
      match woken with
      | none => []
      | some wake => [.wake wake .fresh]
  | .mark m, _, _ => pushedMark m
  | _, _, _ => []

def popsRing : (o : RingOp) → o.Ret → Bool
  | .casSlot _ expected _, stored => stored && expected == ringStEmpty
  | .clearSlot _, _ => true
  | _, _ => false

def popsMark : Mark → Bool
  | .leavePost _ | .leaveTask _ | .leak _ | .retired _ => true
  | _ => false

def pops : (o : Op) → o.Ret → Bool
  | .ring o, answer => popsRing o answer
  | .subRef _, _ | .taskFree _, _ | .clearRunning _, _ | .insertTimer _, _
  | .park _ _, _ => true
  | .mark m, _ => popsMark m
  | _, _ => false

attribute [grind =] pushed pops

def popped (o : Op) (answer : o.Ret) (context : Context) : List Section :=
  if pops o answer then context.take 1 else []

section Track

variable {n : Nat} {p : Section → Bool}

theorem countP_trackRing (blind : Blind p) (o : RingOp) (answer : o.Ret)
    (context : Context) (pre : preRing n o context) :
    (track (.ring o) answer context).countP p +
        (popped (.ring o) answer context).countP p =
      context.countP p + (pushed (.ring o) answer context).countP p := by
  cases o with
  | casSlot idx expected desired =>
      cases answer with
      | false => simp [popped, pops, popsRing, pushed, pushedRing]
      | true =>
          by_cases empty : expected = ringStEmpty
          · simp [popped, pops, popsRing, pushed, pushedRing, empty,
              Context.countP_serve blind, Context.countP_tail]
          · simp [popped, pops, popsRing, pushed, pushedRing, empty,
              List.countP_cons]
  | clearSlot idx =>
      obtain ⟨_, t, rest, rfl⟩ := pre
      simp [popped, pops, popsRing, pushed, pushedRing, List.countP_cons]
      omega
  | _ => simp [popped, pops, popsRing, pushed, pushedRing]

theorem countP_trackMark (blind : Blind p) (m : Mark) (context : Context) :
    (track (.mark m) () context).countP p +
        (popped (.mark m) () context).countP p =
      context.countP p + (pushed (.mark m) () context).countP p := by
  cases m <;>
    simp [popped, pops, popsMark, pushed, pushedMark, Context.countP_tail,
      Context.countP_serve blind, Context.countP_setVm blind, List.countP_cons]

theorem countP_track (blind : Blind p) (o : Op) (answer : o.Ret)
    (context : Context) (pre : preOp n o context) :
    (track o answer context).countP p + (popped o answer context).countP p =
      context.countP p + (pushed o answer context).countP p := by
  have tail := Context.countP_tail (p := p) context
  cases o with
  | ring o => exact countP_trackRing blind o answer context pre
  | mark m => exact countP_trackMark blind m context
  | frame t o =>
      cases o with
      | loadStatus c =>
          simp only [track, popped, pops, pushed]
          split <;> simp [Context.countP_serve blind]
      | _ => simp [popped, pops, pushed]
  | addRef t => simp [popped, pops, pushed, List.countP_cons]
  | subRef t =>
      simp only [track, popped, pops, pushed]
      split <;> simp [List.countP_cons] <;> omega
  | orDead t =>
      simp only [track, popped, pops, pushed]
      split <;> simp [List.countP_cons]
  | taskFree t => simpa [popped, pops, pushed] using tail
  | clearRoot t outside =>
      cases outside <;> simp [popped, pops, pushed, List.countP_cons]
  | enterTask t =>
      cases answer <;>
        simp [popped, pops, pushed, Context.countP_serve blind,
          List.countP_cons]
  | casRunning t =>
      cases answer <;> simp [popped, pops, pushed, List.countP_cons]
  | clearRunning t | insertTimer tm => simpa [popped, pops, pushed] using tail
  | popTimer now =>
      cases answer <;> simp [popped, pops, pushed, List.countP_cons]
  | ownerIs t holder =>
      cases answer <;>
        simp [popped, pops, pushed, Context.countP_tries blind,
          Context.countP_setVm blind]
  | casOwner t holder =>
      cases answer <;>
        simp [popped, pops, pushed, Context.countP_setVm blind]
  | park t holder =>
      rcases answer with _ | _ | _ <;>
        simp [popped, pops, pushed, Context.countP_serve blind,
          Context.countP_setVm blind, List.countP_cons] <;> omega
  | handOver t =>
      cases answer <;>
        simp [popped, pops, pushed, Context.countP_setVm blind,
          List.countP_cons]
  | stepLeaf t => simp [popped, pops, pushed, Context.countP_serve blind]
  | _ => simp [popped, pops, pushed]

theorem mem_track {entry : Section} (blind : Blind (· == entry)) {o : Op}
    {answer : o.Ret} {context : Context} (pre : preOp n o context)
    (member : entry ∈ track o answer context) :
    entry ∈ context ∨ entry ∈ pushed o answer context := by
  have balance := countP_track blind o answer context pre
  have positive : 0 < (track o answer context).countP (· == entry) :=
    List.countP_pos_iff.mpr ⟨entry, member, by simp⟩
  by_contra absent
  obtain ⟨old, fresh⟩ := not_or.mp absent
  have oldZero : context.countP (· == entry) = 0 :=
    List.count_eq_zero.mpr old
  have freshZero : (pushed o answer context).countP (· == entry) = 0 :=
    List.count_eq_zero.mpr fresh
  omega

end Track

def World.tally {N : Nat} (w : World N) (p : Section → Bool) : Nat :=
  Lib.tally Finset.univ (fun context : Context => context.countP p) w.context

theorem tally_note {N n : Nat} {p : Section → Bool} (blind : Blind p)
    (r : Fin N) (o : Op) (answer : o.Ret) (w : World N) (mem : Memory N)
    (pre : preOp n o (w.context r)) :
    (note r o answer w mem).tally p +
        (popped o answer (w.context r)).countP p =
      w.tally p + (pushed o answer (w.context r)).countP p := by
  have balance := countP_track blind o answer (w.context r) pre
  have update := tally_update (Finset.mem_univ r)
    (fun context : Context => context.countP p) w.context
    (track o answer (w.context r))
  simp only [World.tally, note]
  omega

/-! Most operations do not move sections of a given kind. -/

inductive Kind
  | claim
  | word
  | free
  | step
  | run
  | post
  | retire
  deriving DecidableEq

def Section.kind : Section → Kind
  | .claim _ _ => .claim
  | .drive _ _ | .wake _ _ | .ref _ => .word
  | .free _ => .free
  | .step _ _ => .step
  | .run _ _ => .run
  | .post _ => .post
  | .retire _ => .retire

def Op.popKind : Op → Option Kind
  | .ring (.casSlot _ _ _) => some .word
  | .ring (.clearSlot _) => some .claim
  | .subRef _ | .insertTimer _ | .park _ _ | .mark (.leak _) => some .word
  | .taskFree _ => some .free
  | .clearRunning _ => some .run
  | .mark (.leavePost _) => some .post
  | .mark (.leaveTask _) => some .step
  | .mark (.retired _) => some .retire
  | _ => none

def Op.pushKind : Op → Option Kind
  | .ring (.casSlot _ _ _) => some .claim
  | .ring (.clearSlot _) | .addRef _ | .popTimer _ | .park _ _
  | .handOver _ => some .word
  | .subRef _ | .orDead _ => some .free
  | .enterTask _ => some .step
  | .casRunning _ => some .run
  | .mark (.enterPost _) => some .post
  | .clearRoot _ _ => some .retire
  | _ => none

section Quiet

variable {n : Nat} {o : Op} {answer : o.Ret} {context : Context}
  {entry : Section}

theorem Section.kind_of_owned {t : TaskPtr} (owned : entry.owned = some t) :
    entry.kind = .word := by
  cases entry with
  | drive | wake | ref => rfl
  | _ => simp [Section.owned] at owned

theorem kind_of_popped (pre : preOp n o context)
    (member : entry ∈ popped o answer context) :
    o.popKind = some entry.kind := by
  cases o with
  | ring o => cases o with
    | casSlot idx expected desired =>
        unfold popped at member
        split at member
        · rename_i stored
          simp [pops, popsRing] at stored
          rcases pre.2 with ⟨_, t, rest, _, rfl⟩ | ⟨ready, _⟩
          · simp at member
            subst member
            rfl
          · exact absurd stored.2 (ne_empty_of_ready ready)
        · cases member
    | clearSlot idx =>
        obtain ⟨_, t, rest, rfl⟩ := pre
        simp [popped, pops, popsRing] at member
        subst member
        rfl
    | _ => simp [popped, pops, popsRing] at member
  | subRef t =>
      obtain ⟨top, rest, rfl, owned, _⟩ := pre
      simp [popped, pops] at member
      subst member
      rw [Section.kind_of_owned owned]
      rfl
  | taskFree t | insertTimer tm | clearRunning t =>
      obtain ⟨rest, rfl⟩ := pre
      simp [popped, pops] at member
      subst member
      rfl
  | park t holder =>
      obtain ⟨c, hand, rest, rfl, _⟩ := pre
      simp [popped, pops] at member
      subst member
      rfl
  | mark m => cases m with
    | leavePost t | retired t =>
        obtain ⟨rest, rfl⟩ := pre
        simp [popped, pops, popsMark] at member
        subst member
        rfl
    | leaveTask t | leak t =>
        obtain ⟨_, rest, rfl⟩ := pre
        simp [popped, pops, popsMark] at member
        subst member
        rfl
    | _ => simp [popped, pops, popsMark] at member
  | _ => simp [popped, pops] at member

theorem kind_of_pushed (pre : preOp n o context)
    (member : entry ∈ pushed o answer context) :
    o.pushKind = some entry.kind := by
  cases o with
  | ring o => cases o with
    | casSlot idx expected desired =>
        simp only [pushed, pushedRing] at member
        split at member
        · simp at member
          subst member
          rfl
        · cases member
    | clearSlot idx =>
        obtain ⟨_, t, rest, rfl⟩ := pre
        simp [pushed, pushedRing] at member
        subst member
        rfl
    | _ => simp [pushed, pushedRing] at member
  | addRef t =>
      simp [pushed] at member
      subst member
      rfl
  | subRef t | orDead t | casRunning t | park t holder | clearRoot t outside =>
      simp only [pushed] at member
      split at member
      · simp at member
        subst member
        rfl
      · cases member
  | enterTask t | popTimer now | handOver t =>
      cases answer with
      | none => simp [pushed] at member
      | some _ =>
          simp [pushed] at member
          subst member
          rfl
  | mark m => cases m with
    | enterPost t =>
        simp [pushed, pushedMark] at member
        subst member
        rfl
    | _ => simp [pushed, pushedMark] at member
  | _ => simp [pushed] at member

theorem tally_quiet {N : Nat} {p : Section → Bool} {kind : Kind}
    (blind : Blind p) (kinds : ∀ entry, p entry = true → entry.kind = kind)
    (r : Fin N) {o : Op} (answer : o.Ret) (w : World N) (mem : Memory N)
    (pre : preOp n o (w.context r)) (pop : o.popKind ≠ some kind)
    (push : o.pushKind ≠ some kind) :
    (note r o answer w mem).tally p = w.tally p := by
  have balance := tally_note blind r o answer w mem pre
  have noPop : (popped o answer (w.context r)).countP p = 0 := by
    rw [List.countP_eq_zero]
    intro entry member holds
    rw [← kinds entry holds] at pop
    exact pop (kind_of_popped pre member)
  have noPush : (pushed o answer (w.context r)).countP p = 0 := by
    rw [List.countP_eq_zero]
    intro entry member holds
    rw [← kinds entry holds] at push
    exact push (kind_of_pushed pre member)
  omega

end Quiet

theorem World.countP_le_tally {N : Nat} (w : World N) (p : Section → Bool)
    (r : Fin N) : (w.context r).countP p ≤ w.tally p :=
  le_tally (Finset.mem_univ r) (fun context : Context => context.countP p)
    w.context

end Metal.Coop
