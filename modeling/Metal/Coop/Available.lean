import Metal.Lib.Tally
import Metal.Coop.Ring

namespace Metal.Coop

open Metal.Lib Function

/-! The ready ring by itself: any number of runners that push, claim and
release in any order, one atomic access at a time. -/

inductive RingKind
  | task
  | stop

def RingKind.word : RingKind → Word
  | .task => ringKindTask
  | .stop => ringKindStop

/-- What a runner does next; `release` names one of the indices it holds. -/
inductive RingCall
  | push (kind : RingKind) (payload : TaskPtr)
  | claim
  | release (which : Nat)

inductive RunnerOp
  | ring (o : RingOp)
  | idle

@[reducible] def RunnerOp.Ret : RunnerOp → Type
  | .ring o => o.Ret
  | .idle => RingCall

/-- A runner between two calls, with the indices it claimed and still holds. -/
inductive RunnerProc
  | main (held : List Nat)

abbrev RunnerSig : Signature where
  Op := RunnerOp
  Ret := RunnerOp.Ret
  Proc := RunnerProc
  Res := fun _ => Unit

abbrev RunnerProgram := Program RunnerSig

def runner (program : RingProgram α) : RunnerProgram α :=
  program.embed (fun o => .op (RunnerOp.ring o) .done) fun p => Empty.elim p

def runnerMain (held : List Nat) : RunnerProgram Unit :=
  .call (.main held) .done

def runnerCall (n : Nat) (held : List Nat) : RingCall → RunnerProgram Unit
  | .push kind payload => do
      let _ ← runner (ringPush n kind.word payload)
      runnerMain held
  | .claim => do
      match ← runner (ringClaim n) with
      | none => runnerMain held
      | some (_, idx) => runnerMain (idx :: held)
  | .release which =>
      match held[which]? with
      | none => runnerMain held
      | some idx => do
          runner (ringRelease n idx)
          runnerMain (held.erase idx)

def runnerExec : (o : RunnerOp) → RingCall → Inbox → o.Ret × Inbox
  | .ring o, _, box => ringExec o box
  | .idle, call, box => (call, box)

abbrev ringMachine (N n : Nat) : Machine RunnerSig where
  Thread := Fin N
  State := Inbox
  Choice := RingCall
  exec := fun _ o call box => some (runnerExec o call box)
  body := fun
    | .main held => .op RunnerOp.idle (runnerCall n held)

def emptyInbox (n : Nat) : Inbox where
  n := n
  head := 0
  tail := 0
  count := 0
  slot := fun _ => ringStEmpty

def ringStart (N n : Nat) : (ringMachine N n).Config where
  state := emptyInbox n
  program := fun _ => runnerMain []

def atRest : RunnerProgram Unit → Bool
  | .call _ _ => true
  | .op .idle _ => true
  | _ => false

def Quiescent {N n : Nat} (config : (ringMachine N n).Config) : Prop :=
  ∀ r : Fin N, atRest (config.program r) = true

/-! What the ring promises when nothing is in flight. -/

def occupied (n : Nat) (slot : Nat → Word) : Nat :=
  tally (Finset.range n) (fun word => (decide (word ≠ ringStEmpty)).toNat) slot

def Inbox.HasEmpty (n : Nat) (box : Inbox) : Prop :=
  ∃ idx < n, box.slot idx = ringStEmpty

def Inbox.HasTask (n : Nat) (box : Inbox) : Prop :=
  ∃ idx < n, ringSt (box.slot idx) = ringStReady ∧
    ringKind (box.slot idx) = ringKindTask

structure Available (n : Nat) (box : Inbox) : Prop where
  counts : box.count = occupied n box.slot
  pushes : box.HasEmpty n → ∀ (kind : RingKind) payload,
    (ringSolo (ringPush n kind.word payload) box).1 = true
  claims : box.HasTask n → (ringSolo (ringClaim n) box).1.isSome = true

/-- One of the slots that a push tries from `tail` is empty, if any is. -/
def WindowOpen (n : Nat) (box : Inbox) : Prop :=
  box.HasEmpty n →
    ∃ i < ringHunt n box.count, box.slot (ringIndex n box.tail i) = ringStEmpty

section Solo

variable {n : Nat} {box : Inbox} {α β : Type}

@[simp] theorem ringSolo_loadTail (next : Nat → RingProgram α) :
    ringSolo (Inbox.loadTail.bind next) box = ringSolo (next box.tail) box := rfl

@[simp] theorem ringSolo_loadHead (next : Nat → RingProgram α) :
    ringSolo (Inbox.loadHead.bind next) box = ringSolo (next box.head) box := rfl

@[simp] theorem ringSolo_loadCount (next : Nat → RingProgram α) :
    ringSolo (Inbox.loadCount.bind next) box =
      ringSolo (next box.count) box := rfl

@[simp] theorem ringSolo_loadSlot (idx : Nat) (next : Word → RingProgram α) :
    ringSolo ((Inbox.loadSlot idx).bind next) box =
      ringSolo (next (box.slot idx)) box := rfl

theorem ringSolo_bind (first : RingProgram α) (f : α → RingProgram β)
    (box : Inbox) :
    ringSolo (first.bind f) box =
      ringSolo (f (ringSolo first box).1) (ringSolo first box).2 := by
  induction first generalizing box with
  | done value => rfl
  | op o next ih => exact ih _ _
  | call p next => exact p.elim

theorem ringSolo_casSlot_won {idx : Nat} {expected : Word}
    (same : box.slot idx = expected) (desired : Word)
    (next : Bool → RingProgram α) :
    ringSolo ((Inbox.casSlot idx expected desired).bind next) box =
      ringSolo (next true)
        { box with slot := update box.slot idx desired } := by
  rw [ringSolo_bind]
  simp [Inbox.casSlot, ringSolo, ringExec, same]

theorem ringSolo_casSlot_lost {idx : Nat} {expected : Word}
    (other : box.slot idx ≠ expected) (desired : Word)
    (next : Bool → RingProgram α) :
    ringSolo ((Inbox.casSlot idx expected desired).bind next) box =
      ringSolo (next false) box := by
  rw [ringSolo_bind]
  simp [Inbox.casSlot, ringSolo, ringExec, other]

theorem ringSolo_ite {condition : Prop} [Decidable condition]
    (yes no : RingProgram α) :
    ringSolo (if condition then yes else no) box =
      if condition then ringSolo yes box else ringSolo no box := by
  split <;> rfl

theorem ringPushScan_found (neu : Word) (start left i : Nat)
    (window : ∃ j < left, box.slot (ringIndex n start (i + j)) = ringStEmpty) :
    (ringSolo (ringPushScan n neu start left i) box).1 = true := by
  induction left generalizing i with
  | zero =>
      obtain ⟨j, below, _⟩ := window
      exact absurd below (Nat.not_lt_zero j)
  | succ left ih =>
      simp only [ringPushScan, Program.bind_eq]
      by_cases empty : box.slot (ringIndex n start i) = ringStEmpty
      · rw [ringSolo_casSlot_won empty]
        rfl
      · rw [ringSolo_casSlot_lost empty]
        apply ih
        obtain ⟨j, below, found⟩ := window
        cases j with
        | zero => exact absurd found empty
        | succ j =>
            refine ⟨j, Nat.lt_of_succ_lt_succ below, ?_⟩
            rwa [Nat.succ_add_eq_add_succ]

theorem ringPushScan_missed (neu : Word) (start left i : Nat)
    (full : ∀ j < left, box.slot (ringIndex n start (i + j)) ≠ ringStEmpty) :
    ringSolo (ringPushScan n neu start left i) box = (false, box) := by
  induction left generalizing i with
  | zero => rfl
  | succ left ih =>
      have taken : box.slot (ringIndex n start i) ≠ ringStEmpty :=
        full 0 (Nat.succ_pos left)
      simp only [ringPushScan, Program.bind_eq]
      rw [ringSolo_casSlot_lost taken]
      apply ih
      intro j below
      rw [Nat.succ_add_eq_add_succ]
      exact full (j + 1) (Nat.succ_lt_succ below)

theorem ringPushAttempt_missed (neu : Word) (attempts : Nat)
    (full : ∀ i < ringHunt n box.count,
      box.slot (ringIndex n box.tail i) ≠ ringStEmpty) :
    (ringSolo (ringPushAttempt n neu attempts) box).1 = false := by
  induction attempts with
  | zero => rfl
  | succ attempts ih =>
      have missed := ringPushScan_missed (n := n) neu box.tail
        (ringHunt n box.count) 0 (by simpa using full)
      simp only [ringPushAttempt, Program.bind_eq, ringSolo_loadTail,
        ringSolo_loadCount]
      rw [ringSolo_bind, missed]
      simp only [Bool.false_eq_true, if_false, ringSolo_loadCount]
      rw [ringSolo_ite]
      split
      · rfl
      · exact ih

/-- An undisturbed push succeeds iff its window from `tail` has an empty
slot. -/
theorem ringPush_solo (kind : Word) (payload : TaskPtr) :
    (ringSolo (ringPush n kind payload) box).1 = true ↔
      ∃ i < ringHunt n box.count,
        box.slot (ringIndex n box.tail i) = ringStEmpty := by
  constructor
  · intro pushed
    by_contra closed
    push Not at closed
    rw [ringPush, ringPushAttempt_missed _ 4 closed] at pushed
    cases pushed
  · intro window
    have found := ringPushScan_found (n := n)
      (ringPack ringStReady kind (ptrPay payload)) box.tail
      (ringHunt n box.count) 0 (by simpa using window)
    simp only [ringPush, ringPushAttempt, Program.bind_eq, ringSolo_loadTail,
      ringSolo_loadCount]
    rw [ringSolo_bind, found]
    rfl

def claimable (word : Word) : Prop :=
  ringSt word = ringStReady ∧ ringKind word ≠ ringKindStop

theorem ringClaimScan_found (start left i : Nat)
    (window : ∃ j < left, claimable (box.slot (ringIndex n start (i + j)))) :
    (ringSolo (ringClaimScan n start left i) box).1.isSome = true := by
  induction left generalizing i with
  | zero =>
      obtain ⟨j, below, _⟩ := window
      exact absurd below (Nat.not_lt_zero j)
  | succ left ih =>
      have later : ¬claimable (box.slot (ringIndex n start i)) →
          (ringSolo (ringClaimScan n start left (i + 1)) box).1.isSome =
            true := by
        intro other
        apply ih
        obtain ⟨j, below, found⟩ := window
        cases j with
        | zero => exact absurd found other
        | succ j =>
            refine ⟨j, Nat.lt_of_succ_lt_succ below, ?_⟩
            rwa [Nat.succ_add_eq_add_succ]
      simp only [ringClaimScan, Program.bind_eq, ringSolo_loadSlot]
      rw [ringSolo_ite]
      split
      · rename_i idle
        exact later fun found => idle found.1
      · rw [ringSolo_ite]
        split
        · rename_i stop
          exact later fun found => found.2 stop
        · rw [ringSolo_casSlot_won rfl]
          rfl

theorem ringIndex_onto {k : Nat} (small : k ≤ 32) (start : Nat) {idx : Nat}
    (inside : idx < 2 ^ k) : ∃ i < 2 ^ k, ringIndex (2 ^ k) start i = idx := by
  have positive := Nat.two_pow_pos k
  have wraps : ∀ i, ringIndex (2 ^ k) start i = (start + i) % 2 ^ k := by
    intro i
    rw [ringIndex, Nat.and_two_pow_sub_one_eq_mod,
      Nat.mod_mod_of_dvd _ (Nat.pow_dvd_pow 2 small)]
  refine ⟨(idx + (2 ^ k - start % 2 ^ k)) % 2 ^ k, Nat.mod_lt _ positive, ?_⟩
  have below : start % 2 ^ k < 2 ^ k := Nat.mod_lt _ positive
  have whole : start % 2 ^ k + (idx + (2 ^ k - start % 2 ^ k)) =
      idx + 2 ^ k := by omega
  rw [wraps, Nat.add_mod_mod, ← Nat.mod_add_mod, whole, Nat.add_mod_right,
    Nat.mod_eq_of_lt inside]

theorem ringClaim_solo {k : Nat} (small : k ≤ 32) (counted : box.count ≠ 0)
    (ready : ∃ idx < 2 ^ k, claimable (box.slot idx)) :
    (ringSolo (ringClaim (2 ^ k)) box).1.isSome = true := by
  obtain ⟨idx, inside, found⟩ := ready
  obtain ⟨i, below, same⟩ := ringIndex_onto small box.head inside
  simp only [ringClaim, Program.bind_eq, ringSolo_loadCount]
  rw [if_neg counted, ringSolo_loadHead]
  apply ringClaimScan_found
  refine ⟨i, below, ?_⟩
  rw [Nat.zero_add, same]
  exact found

end Solo

/-! What a runner owes: `adds` counts the slots it filled and has not counted
yet, `subs` those it emptied and has not discounted yet. -/

structure Holding where
  held : List Nat
  adds : Nat
  subs : Nat

def preRunner (n : Nat) : RunnerOp → Holding → Prop
  | .ring (.casSlot idx expected desired), _ =>
      idx < n ∧
        ((expected = ringStEmpty ∧ ringSt desired = ringStReady) ∨
          (ringSt expected = ringStReady ∧ desired = claimedWord expected))
  | .ring (.clearSlot idx), owes => idx < n ∧ idx ∈ owes.held
  | .ring .addCount, owes => 0 < owes.adds
  | .ring .subCount, owes => 0 < owes.subs
  | .idle, owes => owes.adds = 0 ∧ owes.subs = 0
  | _, _ => True

def follow : (o : RunnerOp) → o.Ret → Holding → Holding
  | .ring (.casSlot idx expected _), stored, owes =>
      if stored then
        if expected = ringStEmpty then { owes with adds := owes.adds + 1 }
        else { owes with held := idx :: owes.held }
      else owes
  | .ring (.clearSlot idx), _, owes =>
      { owes with held := owes.held.erase idx, subs := owes.subs + 1 }
  | .ring .addCount, _, owes => { owes with adds := owes.adds - 1 }
  | .ring .subCount, _, owes => { owes with subs := owes.subs - 1 }
  | _, _, owes => owes

abbrev ringOutline (n : Nat) : Outline RunnerSig where
  Ghost := Holding
  pre := preRunner n
  post := fun o before answer after => after = follow o answer before ∧ True
  callPre := fun
    | .main held, owes => owes = ⟨held, 0, 0⟩ ∧ ∀ idx ∈ held, idx < n
  callPost := fun _ _ _ _ => True

section Owes

variable {n : Nat} {α β : Type} {owes : Holding}

@[simp] theorem wp_runner_op {o : RunnerSig.Op}
    {next : RunnerSig.Ret o → RunnerProgram α} {holds : α → Holding → Prop} :
    (ringOutline n).wp (.op o next) owes holds ↔
      preRunner n o owes ∧ ∀ answer : RunnerSig.Ret o,
        (ringOutline n).wp (next answer) (follow o answer owes) holds := by
  rw [Outline.wp_op_track (L := ringOutline n) (fun _ _ => Iff.rfl)]
  simp

theorem wp_runnerMain {held : List Nat} (inside : ∀ idx ∈ held, idx < n) :
    (ringOutline n).wp (runnerMain held) ⟨held, 0, 0⟩ fun _ _ => True :=
  ⟨⟨rfl, inside⟩, fun _ _ _ => trivial⟩

@[simp] theorem wp_runner_bind {first : RunnerProgram α}
    {f : α → RunnerProgram β} {holds : β → Holding → Prop} :
    (ringOutline n).wp (first.bind f) owes holds ↔
      (ringOutline n).wp first owes fun value after =>
        (ringOutline n).wp (f value) after holds :=
  Outline.wp_bind (ringOutline n)

@[simp] theorem runner_done (value : α) : runner (.done value) = .done value :=
  rfl

@[simp] theorem runner_op (o : RingSig.Op)
    (next : RingSig.Ret o → RingProgram α) :
    runner (.op o next) = .op (RunnerOp.ring o) fun answer =>
      runner (next answer) := rfl

@[simp] theorem runner_bind (first : RingProgram α) (f : α → RingProgram β) :
    runner (first.bind f) = (runner first).bind fun value => runner (f value) :=
  Program.embed_bind _ _ first f

theorem runner_ite {condition : Prop} [Decidable condition]
    (yes no : RingProgram α) :
    runner (if condition then yes else no) =
      if condition then runner yes else runner no :=
  Program.embed_ite _ _ yes no

theorem wp_runner_ite {condition : Prop} [Decidable condition]
    {yes no : RunnerProgram α} {holds : α → Holding → Prop} :
    (ringOutline n).wp (if condition then yes else no) owes holds ↔
      if condition then (ringOutline n).wp yes owes holds
      else (ringOutline n).wp no owes holds :=
  Outline.wp_ite (ringOutline n)

theorem wp_runnerPushScan {neu : Word} {holds : Bool → Holding → Prop}
    (positive : 0 < n) (ready : ringSt neu = ringStReady)
    (after : ∀ stored, holds stored owes) (start left i : Nat) :
    (ringOutline n).wp (runner (ringPushScan n neu start left i)) owes
      holds := by
  induction left generalizing i with
  | zero => exact after false
  | succ left ih =>
      simp [ringPushScan, Inbox.casSlot, Inbox.storeTail, Inbox.addCount,
        runner_ite, wp_runner_ite, preRunner, follow]
      exact ⟨⟨ringIndex_lt positive start i, .inl ready⟩, ih (i + 1),
        after true⟩

theorem wp_runnerPushAttempt {neu : Word} {holds : Bool → Holding → Prop}
    (positive : 0 < n) (ready : ringSt neu = ringStReady)
    (after : ∀ stored, holds stored owes) (attempts : Nat) :
    (ringOutline n).wp (runner (ringPushAttempt n neu attempts)) owes holds := by
  induction attempts with
  | zero => exact after false
  | succ attempts ih =>
      simp [ringPushAttempt, Inbox.loadTail, Inbox.loadCount, runner_ite,
        wp_runner_ite, preRunner, follow]
      intro start count
      refine wp_runnerPushScan positive ready ?_ start _ 0
      intro stored
      cases stored with
      | true => exact after true
      | false =>
          simp
          intro count
          split
          · exact after false
          · exact ih

theorem wp_runnerClaimScan {holds : Option (Word × Nat) → Holding → Prop}
    (positive : 0 < n) (missed : holds none owes)
    (claimed : ∀ word idx, idx < n →
      holds (some (word, idx)) { owes with held := idx :: owes.held })
    (start left i : Nat) :
    (ringOutline n).wp (runner (ringClaimScan n start left i)) owes holds := by
  induction left generalizing i with
  | zero => exact missed
  | succ left ih =>
      simp [ringClaimScan, Inbox.loadSlot, Inbox.casSlot, Inbox.storeHead,
        runner_ite, wp_runner_ite, preRunner, follow]
      intro word
      split
      · rename_i ready
        split
        · exact ih (i + 1)
        · have bound := ringIndex_lt positive start i
          refine ⟨⟨bound, .inr ready⟩, ih (i + 1), ?_⟩
          rw [if_neg (ne_empty_of_ready ready)]
          exact claimed _ _ bound
      · exact ih (i + 1)

end Owes

theorem ringSt_pushed (kind : RingKind) (payload : TaskPtr) :
    ringSt (ringPack ringStReady kind.word (ptrPay payload)) = ringStReady := by
  apply ringSt_ringPack _ (by decide)
  cases kind <;> decide

theorem ring_verified {N n : Nat} (positive : 0 < n) :
    (ringOutline n).Verified (ringMachine N n).body := by
  rintro ⟨held⟩ owes ⟨rfl, inside⟩
  refine wp_runner_op.mpr ⟨⟨rfl, rfl⟩, ?_⟩
  intro call
  cases call with
  | push kind payload =>
      simp only [runnerCall, Program.bind_eq, wp_runner_bind, follow]
      refine wp_runnerPushAttempt positive (ringSt_pushed kind payload) ?_ 4
      intro _
      exact wp_runnerMain inside
  | claim =>
      simp only [runnerCall, Program.bind_eq, wp_runner_bind, follow, ringClaim,
        Inbox.loadCount, Inbox.loadHead, runner_op, Program.bind_op,
        Program.bind_done, wp_runner_op]
      refine ⟨trivial, fun count => ?_⟩
      rw [runner_ite, wp_runner_ite]
      split
      · exact wp_runnerMain inside
      · refine wp_runner_op.mpr ⟨trivial, fun start => ?_⟩
        refine wp_runnerClaimScan positive (wp_runnerMain inside) ?_ start n 0
        intro word idx bound
        apply wp_runnerMain
        intro other member
        rcases List.mem_cons.mp member with rfl | member
        · exact bound
        · exact inside other member
  | release which =>
      simp only [runnerCall, follow]
      cases found : held[which]? with
      | none => exact wp_runnerMain inside
      | some idx =>
          have member := List.mem_of_getElem? found
          have bound := inside idx member
          simp only [Program.bind_eq, ringRelease, Nat.not_le.mpr bound,
            if_false, Inbox.clearSlot, Inbox.subCount, Program.bind_op,
            Program.bind_done, runner_op, runner_done, wp_runner_op]
          refine ⟨⟨bound, member⟩, fun _ => ⟨Nat.one_pos, fun _ => ?_⟩⟩
          apply wp_runnerMain
          intro other still
          exact inside other (List.mem_of_mem_erase still)

/-- The count is the number of occupied slots, up to what the runners owe, and
a CLAIMED slot has one holder. -/
structure RingCounted {N : Nat} (n : Nat) (box : Inbox)
    (owes : Fin N → Holding) : Prop where
  wraps : box.count < 2 ^ 32
  balance : (box.count + tally Finset.univ Holding.adds owes) % 2 ^ 32 =
    (occupied n box.slot + tally Finset.univ Holding.subs owes) % 2 ^ 32
  claims : ∀ idx, tally Finset.univ (fun owes => owes.held.count idx) owes =
    (decide (ringSt (box.slot idx) = ringStClaimed)).toNat

section Counted

variable {N n : Nat} {box : Inbox} {owes : Fin N → Holding} {r : Fin N}

variable {idx : Nat}

theorem occupied_update (inside : idx < n) (slot : Nat → Word) (word : Word) :
    occupied n (update slot idx word) +
        (decide (slot idx ≠ ringStEmpty)).toNat =
      occupied n slot + (decide (word ≠ ringStEmpty)).toNat :=
  tally_update (Finset.mem_range.mpr inside) _ slot word

theorem ne_empty_of_claimed {word : Word} (claimed : ringSt word = ringStClaimed) :
    word ≠ ringStEmpty := by
  rintro rfl
  exact absurd claimed (by decide)

theorem counted_push {word : Word} (inside : idx < n) (empty : box.slot idx = ringStEmpty)
    (ready : ringSt word = ringStReady) (counted : RingCounted n box owes) :
    RingCounted n { box with slot := update box.slot idx word }
      (update owes r { owes r with adds := (owes r).adds + 1 }) := by
  have filled := occupied_update inside box.slot word
  have added := tally_update (Finset.mem_univ r) Holding.adds owes
    { owes r with adds := (owes r).adds + 1 }
  have kept := tally_update (Finset.mem_univ r) Holding.subs owes
    { owes r with adds := (owes r).adds + 1 }
  have balance := counted.balance
  simp [empty, ne_empty_of_ready ready] at filled
  simp only at added kept
  refine ⟨counted.wraps, ?_, fun idx' => ?_⟩
  · simp only
    omega
  · have held := tally_update (Finset.mem_univ r)
      (fun owes => owes.held.count idx') owes
      { owes r with adds := (owes r).adds + 1 }
    have claims := counted.claims idx'
    simp only at held ⊢
    by_cases same : idx' = idx
    · subst same
      have before : ringSt ringStEmpty ≠ ringStClaimed := by decide
      have after : ringSt word ≠ ringStClaimed := by
        rw [ready]
        decide
      simp [empty, before, after] at claims ⊢
      omega
    · simp [same]
      omega

theorem counted_claim (inside : idx < n) (ready : ringSt (box.slot idx) = ringStReady)
    (counted : RingCounted n box owes) :
    RingCounted n
      { box with
        slot := update box.slot idx (claimedWord (box.slot idx)) }
      (update owes r { owes r with held := idx :: (owes r).held }) := by
  have claimed := ringSt_claimedWord (box.slot idx)
  have filled := occupied_update inside box.slot (claimedWord (box.slot idx))
  have adds := tally_update (Finset.mem_univ r) Holding.adds owes
    { owes r with held := idx :: (owes r).held }
  have subs := tally_update (Finset.mem_univ r) Holding.subs owes
    { owes r with held := idx :: (owes r).held }
  have balance := counted.balance
  simp [ne_empty_of_ready ready, ne_empty_of_claimed claimed] at filled
  simp only at adds subs
  refine ⟨counted.wraps, ?_, fun idx' => ?_⟩
  · simp only
    omega
  · have held := tally_update (Finset.mem_univ r)
      (fun owes => owes.held.count idx') owes
      { owes r with held := idx :: (owes r).held }
    have claims := counted.claims idx'
    simp only [List.count_cons] at held ⊢
    by_cases same : idx' = idx
    · subst same
      have before : ringSt (box.slot idx') ≠ ringStClaimed := by
        rw [ready]
        decide
      simp [before, claimed] at claims held ⊢
      omega
    · simp [same, Ne.symm same] at held ⊢
      omega

theorem counted_clear (inside : idx < n) (member : idx ∈ (owes r).held)
    (counted : RingCounted n box owes) :
    RingCounted n { box with slot := update box.slot idx ringStEmpty }
      (update owes r
        { owes r with
          held := (owes r).held.erase idx
          subs := (owes r).subs + 1 }) := by
  have claimed : ringSt (box.slot idx) = ringStClaimed := by
    have positive := le_tally (Finset.mem_univ r)
      (fun owes => owes.held.count idx) owes
    have claims := counted.claims idx
    have mine := List.count_pos_iff.mpr member
    by_contra free
    simp [free] at claims
    omega
  have emptied := occupied_update inside box.slot ringStEmpty
  have adds := tally_update (Finset.mem_univ r) Holding.adds owes
    { owes r with
      held := (owes r).held.erase idx
      subs := (owes r).subs + 1 }
  have subs := tally_update (Finset.mem_univ r) Holding.subs owes
    { owes r with
      held := (owes r).held.erase idx
      subs := (owes r).subs + 1 }
  have balance := counted.balance
  simp [ne_empty_of_claimed claimed] at emptied
  simp only at adds subs
  refine ⟨counted.wraps, ?_, fun idx' => ?_⟩
  · simp only
    omega
  · have held := tally_update (Finset.mem_univ r)
      (fun owes => owes.held.count idx') owes
      { owes r with
        held := (owes r).held.erase idx
        subs := (owes r).subs + 1 }
    have claims := counted.claims idx'
    simp only at held ⊢
    by_cases same : idx' = idx
    · subst same
      have after : ringSt ringStEmpty ≠ ringStClaimed := by decide
      have mine := List.count_pos_iff.mpr member
      rw [List.count_erase_self] at held
      simp [claimed, after] at claims ⊢
      omega
    · rw [List.count_erase_of_ne same] at held
      simp [same]
      omega

theorem RingCounted.recount {next : Holding} {count : Nat} (counted : RingCounted n box owes)
    (kept : next.held = (owes r).held) (wraps : count < 2 ^ 32)
    (same : (count + next.adds + (owes r).subs) % 2 ^ 32 =
      (box.count + (owes r).adds + next.subs) % 2 ^ 32) :
    RingCounted n { box with count } (update owes r next) := by
  have adds := tally_update (Finset.mem_univ r) Holding.adds owes next
  have subs := tally_update (Finset.mem_univ r) Holding.subs owes next
  have balance := counted.balance
  refine ⟨wraps, ?_, fun idx => ?_⟩
  · simp only
    omega
  · have held := tally_update (Finset.mem_univ r) (fun owes => owes.held.count idx) owes next
    have claims := counted.claims idx
    simp only [kept] at held ⊢
    omega

theorem counted_addCount (owed : 0 < (owes r).adds) (counted : RingCounted n box owes) :
    RingCounted n { box with count := (box.count + 1) % 2 ^ 32 }
      (update owes r { owes r with adds := (owes r).adds - 1 }) :=
  counted.recount rfl (Nat.mod_lt _ (by decide)) (by simp only; omega)

theorem counted_subCount (owed : 0 < (owes r).subs) (counted : RingCounted n box owes) :
    RingCounted n { box with count := (box.count + (2 ^ 32 - 1)) % 2 ^ 32 }
      (update owes r { owes r with subs := (owes r).subs - 1 }) :=
  counted.recount rfl (Nat.mod_lt _ (by decide)) (by simp only; omega)

theorem ring_sound (N n : Nat) :
    (ringOutline n).Sound (M := ringMachine N n) (fun _ _ _ => True)
      (RingCounted n) := by
  intro r o call box owes answer after _ counted pre result
  refine ⟨follow o answer (owes r), ⟨rfl, trivial⟩, ?_⟩
  obtain ⟨rfl, rfl⟩ := Prod.mk.inj (Option.some.inj result)
  have same : update owes r (owes r) = owes :=
    update_eq_self r owes
  cases o with
  | idle =>
      simp only [follow, same]
      exact counted
  | ring o => cases o with
    | casSlot idx expected desired =>
        simp only [ringExec]
        split
        · rename_i stored
          simp only [follow, if_true]
          obtain ⟨inside, ⟨rfl, ready⟩ | ⟨ready, rfl⟩⟩ := pre
          · rw [if_pos rfl]
            exact counted_push inside stored ready counted
          · rw [if_neg (ne_empty_of_ready ready)]
            subst stored
            exact counted_claim inside ready counted
        · simp only [follow, Bool.false_eq_true, if_false, same]
          exact counted
    | clearSlot idx => exact counted_clear pre.1 pre.2 counted
    | addCount => exact counted_addCount pre counted
    | subCount => exact counted_subCount pre counted
    | _ =>
        simp only [follow, same]
        exact ⟨counted.wraps, counted.balance, counted.claims⟩

end Counted

theorem ring_counted {N n : Nat} (positive : 0 < n)
    {config : (ringMachine N n).Config}
    (reach : Machine.Reachable (M := ringMachine N n) (ringStart N n) config) :
    (ringOutline n).Holds (M := ringMachine N n) (RingCounted n) config := by
  refine Outline.holds_of_reach _ (ring_verified positive) (ring_sound N n) ?_
    reach
  have none : ∀ weight : Holding → Nat, weight ⟨[], 0, 0⟩ = 0 →
      tally Finset.univ weight (fun _ : Fin N => ⟨[], 0, 0⟩) = 0 :=
    fun _ zero => tally_eq_zero fun _ _ => zero
  refine ⟨fun _ => ⟨[], 0, 0⟩, ⟨Nat.two_pow_pos 32, ?_, fun idx => ?_⟩,
    fun _ => wp_runnerMain nofun⟩
  · have empty : occupied n (ringStart N n).state.slot = 0 :=
      tally_eq_zero fun _ _ => rfl
    rw [none Holding.adds rfl, none Holding.subs rfl, empty]
    rfl
  · have free : ringSt ringStEmpty ≠ ringStClaimed := by decide
    rw [none (fun owes => owes.held.count idx) rfl]
    simp [ringStart, emptyInbox, free]

theorem occupied_le (n : Nat) (slot : Nat → Word) : occupied n slot ≤ n := by
  have bound := Finset.sum_le_card_nsmul (Finset.range n)
    (fun idx => (decide (slot idx ≠ ringStEmpty)).toNat) 1
    fun idx _ => Bool.toNat_le _
  simpa [occupied, tally] using bound

theorem occupied_pos {n idx : Nat} {slot : Nat → Word} (inside : idx < n)
    (stored : slot idx ≠ ringStEmpty) : 0 < occupied n slot := by
  have counted := le_tally (Finset.mem_range.mpr inside)
    (fun word => (decide (word ≠ ringStEmpty)).toNat) slot
  simp only [stored, ne_eq, not_false_eq_true, decide_true, Bool.toNat_true]
    at counted
  exact counted

section Rest

variable {N n : Nat} {config : (ringMachine N n).Config}

theorem owes_nothing {owes : Holding} {program : RunnerProgram Unit}
    {holds : Unit → Holding → Prop}
    (safe : (ringOutline n).wp program owes holds)
    (rest : atRest program = true) : owes.adds = 0 ∧ owes.subs = 0 := by
  cases program with
  | done value => cases rest
  | call p next =>
      obtain ⟨held⟩ := p
      obtain ⟨⟨rfl, _⟩, _⟩ := safe
      exact ⟨rfl, rfl⟩
  | op o next => cases o with
    | ring o => cases rest
    | idle => exact (wp_runner_op.mp safe).1

theorem count_of_quiescent (small : n < 2 ^ 32)
    (holds : (ringOutline n).Holds (M := ringMachine N n) (RingCounted n) config)
    (quiescent : Quiescent config) :
    config.state.count = occupied n config.state.slot := by
  obtain ⟨owes, counted, safe⟩ := holds
  have adds : tally Finset.univ Holding.adds owes = 0 :=
    tally_eq_zero fun r _ => (owes_nothing (safe r) (quiescent r)).1
  have subs : tally Finset.univ Holding.subs owes = 0 :=
    tally_eq_zero fun r _ => (owes_nothing (safe r) (quiescent r)).2
  have balance := counted.balance
  have wraps := counted.wraps
  have bound := occupied_le n config.state.slot
  rw [adds, subs, Nat.add_zero, Nat.add_zero, Nat.mod_eq_of_lt wraps,
    Nat.mod_eq_of_lt (by omega)] at balance
  exact balance

end Rest

/-- Without operations in flight, what is missing from the ring's promise is
only that the window of a push meets an empty slot. -/
theorem available_iff_windowOpen {N : Nat} (size : Fin 13)
    {config : (ringMachine N (2 ^ (8 + size.val))).Config}
    (reach : Machine.Reachable (M := ringMachine N (2 ^ (8 + size.val)))
      (ringStart N (2 ^ (8 + size.val))) config)
    (quiescent : Quiescent config) :
    Available (2 ^ (8 + size.val)) config.state ↔
      WindowOpen (2 ^ (8 + size.val)) config.state := by
  have bound := size.isLt
  have small : 2 ^ (8 + size.val) < 2 ^ 32 :=
    Nat.pow_lt_pow_right (by decide) (by omega)
  have counts := count_of_quiescent small
    (ring_counted (Nat.two_pow_pos _) reach) quiescent
  constructor
  · intro available empty
    exact (ringPush_solo ringKindTask 0).mp (available.pushes empty .task 0)
  · intro window
    refine ⟨counts, ?_, ?_⟩
    · intro empty kind payload
      exact (ringPush_solo kind.word payload).mpr (window empty)
    · rintro ⟨idx, inside, ready, task⟩
      apply ringClaim_solo (by omega)
      · have positive := occupied_pos inside (ne_empty_of_ready ready)
        omega
      · refine ⟨idx, inside, ready, ?_⟩
        rw [task]
        decide

abbrev RingSchedule := List (Fin 2 × RingCall)

def calls (r : Fin 2) (call : RingCall) (steps : Nat) : RingSchedule :=
  (r, call) :: List.replicate steps (r, .claim)

theorem available_iff_windowOpen_pushed :
    ∃ config, Machine.Reachable (M := ringMachine 2 256) (ringStart 2 256)
      config ∧ Quiescent config ∧ config.state.count = 1 ∧
      Available 256 config.state := by
  obtain ⟨config, reach, pushed⟩ := Machine.exists_reach (M := ringMachine 2 256)
    (fun _ _ _ => True) (fun _ _ _ => true) (fun _ _ _ _ => trivial)
    (ringStart 2 256) (calls 0 .claim 0 ++ calls 0 (.push .task 5) 5)
    (fun config => decide (config.state.count = 1 ∧
      (∀ r : Fin 2, atRest (config.program r) = true) ∧
      ∃ i < ringHunt 256 config.state.count,
        config.state.slot (ringIndex 256 config.state.tail i) = ringStEmpty)) (by decide +kernel)
  obtain ⟨count, quiescent, open_⟩ := of_decide_eq_true pushed
  exact ⟨config, reach, quiescent, count,
    (available_iff_windowOpen 0 reach quiescent).mpr fun _ => open_⟩

/-- Runner 0 fills slot 0 and is held up before it stores `tail`; runner 1
fills the next 136 slots; then runner 0 sets `tail` back to 1. -/
def storesLate : RingSchedule :=
  calls 0 .claim 0 ++ calls 0 (.push .task 5) 3 ++ calls 1 .claim 0 ++
  calls 1 (.push .task 6) 7 ++
  (List.replicate 135 (calls 1 (.push .task 6) 6)).flatten ++
  List.replicate 3 (0, RingCall.claim)

theorem availability_fails :
    ¬∀ config, Machine.Reachable (M := ringMachine 2 256) (ringStart 2 256)
      config → Quiescent config → Available 256 config.state := by
  intro claim
  obtain ⟨config, reach, late⟩ := Machine.exists_reach (M := ringMachine 2 256)
    (fun _ _ _ => True) (fun _ _ _ => true) (fun _ _ _ _ => trivial)
    (ringStart 2 256) storesLate
    (fun config => decide (
      (∀ r : Fin 2, atRest (config.program r) = true) ∧
      config.state.slot 200 = ringStEmpty ∧
      ∀ i < ringHunt 256 config.state.count,
        config.state.slot (ringIndex 256 config.state.tail i) ≠ ringStEmpty))
    (by decide +kernel)
  obtain ⟨quiescent, empty, closed⟩ := of_decide_eq_true late
  have pushes := (claim config reach quiescent).pushes
    ⟨200, by decide, empty⟩ .task 7
  obtain ⟨i, inside, open_⟩ := (ringPush_solo RingKind.task.word 7).mp pushes
  exact closed i inside open_

end Metal.Coop
