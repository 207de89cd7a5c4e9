import Metal.Coop.State

namespace Metal.Process

open Metal.Coop (Status TaskPtr)

/-! The table of `metal/process`, and the memory budgets of its pids. -/

abbrev Block := Nat

structure Task where
  pid : Nat
  root : Option Status

-- `arena` is the block that the sub-arena was made on.
structure Budget where
  arena : Option Block
  backing : Option Block
  cap : Nat
  deriving DecidableEq

def Budget.unset : Budget := ⟨none, none, 0⟩

structure Slot where
  used : Bool
  pid : Int
  task : Option TaskPtr
  budget : Budget
  deriving DecidableEq

structure Heap where
  sizes : List Nat
  freed : List Block

def Heap.alloc (heap : Heap) (size : Nat) (granted : Bool) : Option (Block × Heap) :=
  if granted then some (heap.sizes.length, { heap with sizes := heap.sizes ++ [size] }) else none

def Heap.free (heap : Heap) (block : Block) : Heap :=
  { heap with freed := heap.freed ++ [block] }

structure State where
  slots : List Slot
  nextPid : Int
  repl : Budget
  heap : Heap
  tasks : TaskPtr → Option Task

def State.boot (tasks : TaskPtr → Option Task) : State where
  slots := []
  nextPid := 1
  repl := .unset
  heap := ⟨[], []⟩
  tasks := tasks

def int32 (n : Int) : Int := n.bmod (2 ^ 32)

def uint32 (n : Int) : Nat := (n % 2 ^ 32).toNat

def pidOf (tasks : TaskPtr → Option Task) (t : TaskPtr) : Nat := (tasks t).elim 0 Task.pid

namespace State

def processCount (s : State) : Int :=
  s.slots.foldl (fun n slot => if slot.used then n + 1 else n) 0

def processAt.loop (i : Int) : (n : Int) → List Slot → Int
  | _, [] => -1
  | n, slot :: rest =>
      if slot.used then
        if n = i then slot.pid else loop i (n + 1) rest
      else loop i n rest

def processAt (s : State) (i : Int) : Int :=
  if i < 0 then -1 else processAt.loop i 0 s.slots

/-- `current` is the task that makes the call, or none. -/
def processCurrent (s : State) (current : Option TaskPtr) : Int :=
  int32 (current.elim 0 fun t => (pidOf s.tasks t : Int))

def findPid (s : State) (pid : Int) : Option Nat :=
  s.slots.findIdx? fun slot => slot.used && decide (slot.pid = pid)

def findSlot (s : State) (current : Option TaskPtr) (pid : Int) : Option Nat :=
  let pid := if pid = 0 then s.processCurrent current else pid
  if pid < 1 then none else s.findPid pid

/-- The pid that `crown_task` gives next: behind the largest one it is 1 again. -/
def pidNext (s : State) : Int := if s.nextPid < 1 then 1 else s.nextPid

/-- `t`, which is `task`, with the next pid and a slot of its own. -/
def crowned (s : State) (t : TaskPtr) (task : Task) : State :=
  { s with
    slots := s.slots ++ [⟨true, s.pidNext, some t, .unset⟩]
    nextPid := int32 (s.pidNext + 1)
    tasks := Function.update s.tasks t (some { task with pid := uint32 s.pidNext }) }

def crownTask (s : State) (t : Option TaskPtr) (slotGranted : Bool) : Int × State :=
  match t with
  | none => (-1, s)
  | some t =>
      match s.tasks t with
      | none => (-1, s)
      | some task =>
          if task.pid ≠ 0 then (-1, s)
          else if !slotGranted then (-1, s)
          else (s.pidNext, s.crowned t task)

def crown (s : State) (current : Option TaskPtr) (slotGranted : Bool) : Int × State :=
  s.crownTask current slotGranted

/-- `task` is what `create_task` returns, a task that did not exist before. -/
def spawn (s : State) (ready coroGranted : Bool) (task : Option TaskPtr) (slotGranted : Bool) :
    Int × State :=
  if !ready then (-1, s)
  else if !coroGranted then (-1, s)
  else
    match task with
    | none => (-1, s)
    | some t =>
        { s with tasks := Function.update s.tasks t (some ⟨0, some .pending⟩) }.crownTask (some t)
          slotGranted

end State

def budgetDrop (budget : Budget) (heap : Heap) : Budget × Heap :=
  match budget.backing with
  | none => (budget, heap)
  | some block => (.unset, heap.free block)

def Task.cancelled (task : Task) : Task := ⟨0, task.root.map fun _ => .cancelled⟩

namespace State

def quitSlot (s : State) (i : Nat) (slot : Slot) : State :=
  let (budget, heap) := budgetDrop slot.budget s.heap
  { s with
    slots := s.slots.set i ⟨false, 0, none, budget⟩
    heap := heap
    tasks := slot.task.elim s.tasks fun t =>
      Function.update s.tasks t ((s.tasks t).map Task.cancelled) }

def quit (s : State) (current : Option TaskPtr) (pid : Int) : Int × State :=
  let pid := if pid = 0 then s.processCurrent current else pid
  if pid < 1 then (-1, s)
  else
    match s.findPid pid with
    | none => (-1, s)
    | some i =>
        match s.slots[i]? with
        | none => (-1, s)
        | some slot => (0, s.quitSlot i slot)

def budget (s : State) (current : Option TaskPtr) (pid : Int) : Int :=
  if pid = 0 then int32 s.repl.cap
  else
    match (s.findSlot current pid).bind (s.slots[·]?) with
    | none => -1
    | some slot => int32 slot.budget.cap

end State

def budgetReplace (old : Budget) (cap : Nat) (blockGranted arenaMade : Bool) (heap : Heap) :
    Int × Budget × Heap :=
  if cap = old.cap then (0, old, heap)
  else
    match heap.alloc cap blockGranted with
    | none => (-1, old, heap)
    | some (block, heap) =>
        let heap := (budgetDrop old heap).2
        if arenaMade then (0, ⟨some block, some block, cap⟩, heap)
        else (-1, .unset, heap.free block)

namespace State

def setRepl (s : State) : Int × Budget × Heap → Int × State
  | (result, budget, heap) => (result, { s with repl := budget, heap := heap })

def setSlot (s : State) (i : Nat) (slot : Slot) : Int × Budget × Heap → Int × State
  | (result, budget, heap) =>
      (result, { s with slots := s.slots.set i { slot with budget := budget }, heap := heap })

def budgetSet (s : State) (current : Option TaskPtr) (pid cap : Int)
    (blockGranted arenaMade : Bool) : Int × State :=
  let found := (s.findSlot current pid).bind fun i => (s.slots[i]?).map (i, ·)
  if cap < 0 then (-1, s)
  else if cap = 0 then
    if pid = 0 then
      if s.processCurrent current ≠ 0 then (-1, s)
      else s.setRepl (0, .unset, (budgetDrop s.repl s.heap).2)
    else
      match found with
      | none => (-1, s)
      | some (i, slot) => s.setSlot i slot (0, budgetDrop slot.budget s.heap)
  else if pid = 0 then
    if s.processCurrent current ≠ 0 then (-1, s)
    else s.setRepl (budgetReplace s.repl cap.toNat blockGranted arenaMade s.heap)
  else
    match found with
    | none => (-1, s)
    | some (i, slot) =>
        s.setSlot i slot (budgetReplace slot.budget cap.toNat blockGranted arenaMade s.heap)

end State

/-! Every run of the calls, with whatever the arenas answer. -/

inductive Call
  | crown (current : Option TaskPtr) (slotGranted : Bool)
  | spawn (ready coroGranted : Bool) (task : Option TaskPtr) (slotGranted : Bool)
  | quit (current : Option TaskPtr) (pid : Int)
  | budgetSet (current : Option TaskPtr) (pid cap : Int) (blockGranted arenaMade : Bool)

namespace State

def call (s : State) : Call → Int × State
  | .crown current slotGranted => s.crown current slotGranted
  | .spawn ready coroGranted task slotGranted => s.spawn ready coroGranted task slotGranted
  | .quit current pid => s.quit current pid
  | .budgetSet current pid cap blockGranted arenaMade =>
      s.budgetSet current pid cap blockGranted arenaMade

/-- What the arguments are: words of 32 bits, and a task that `create_task` made. -/
def Fits (s : State) : Call → Prop
  | .crown _ _ | .quit _ _ => True
  | .spawn _ _ task _ => ∀ t, task = some t → s.tasks t = none
  | .budgetSet _ _ cap _ _ => cap < 2 ^ 31

def live (s : State) : List Slot := s.slots.filter Slot.used

def PidFree (s : State) : Prop := ∀ slot ∈ s.live, slot.pid ≠ s.pidNext

/-- The budget that `budget_set` is to replace. -/
def target (s : State) (current : Option TaskPtr) (pid : Int) : Option Budget :=
  if pid = 0 then if s.processCurrent current = 0 then some s.repl else none
  else ((s.findSlot current pid).bind (s.slots[·]?)).map Slot.budget

/-- A crown gets a pid that no live slot has; a task that `spawn` made can be crowned; and a
sub-arena is only refused to a pid without a budget. -/
def Meets (s : State) : Call → Prop
  | .crown current slotGranted =>
      (∃ t, current = some t ∧ pidOf s.tasks t = 0) → slotGranted = true → s.PidFree
  | .spawn ready coroGranted task slotGranted =>
      ready = true → coroGranted = true → task.isSome = true → slotGranted = true ∧ s.PidFree
  | .quit _ _ => True
  | .budgetSet current pid cap blockGranted arenaMade =>
      0 < cap → blockGranted = true → arenaMade = false →
        ∀ old, s.target current pid = some old → old.cap ≠ cap.toNat → old.cap = 0

structure Same (s s' : State) : Prop where
  slots : s'.slots = s.slots
  nextPid : s'.nextPid = s.nextPid
  repl : s'.repl = s.repl
  tasks : s'.tasks = s.tasks

end State

inductive Run (ok : State → Call → Prop) : State → Prop
  | boot {tasks : TaskPtr → Option Task} (uncrowned : ∀ t, pidOf tasks t = 0) :
      Run ok (.boot tasks)
  | call {s : State} {c : Call} (before : Run ok s) (fits : s.Fits c) (meets : ok s c) :
      Run ok (s.call c).2
  | elsewhere {s : State} {tasks : TaskPtr → Option Task} (before : Run ok s)
      (same : ∀ t, pidOf tasks t = pidOf s.tasks t) : Run ok { s with tasks := tasks }

def held (repl : Budget) (live : List Slot) : List Block :=
  repl.backing.toList ++ live.filterMap fun slot => slot.budget.backing

/-- The blocks in use are different ones and were not freed, and every other block was freed
once. -/
structure Ledger (heap : Heap) (inUse : List Block) : Prop where
  distinct : inUse.Nodup
  made : ∀ block, block ∈ inUse ∨ block ∈ heap.freed → block < heap.sizes.length
  kept : ∀ block ∈ inUse, block ∉ heap.freed
  freed : ∀ block < heap.sizes.length, block ∉ inUse → heap.freed.count block = 1

def Budget.Backed (heap : Heap) (budget : Budget) : Prop :=
  budget.arena = budget.backing ∧ budget.cap < 2 ^ 31 ∧
    (budget.backing = none → budget.cap = 0) ∧
    ∀ block, budget.backing = some block → 0 < budget.cap ∧
      heap.sizes[block]? = some budget.cap

structure Good (s : State) : Prop where
  positive : ∀ slot ∈ s.live, 0 < slot.pid
  distinct : (s.live.map Slot.pid).Nodup
  listed : (List.range s.processCount.toNat).map (fun i : Nat => s.processAt i) =
    s.live.map Slot.pid
  carries : ∀ slot ∈ s.live, ∃ t, slot.task = some t ∧ (pidOf s.tasks t : Int) = slot.pid
  ledger : Ledger s.heap (held s.repl s.live)
  repl : s.repl.Backed s.heap ∧ ∀ current, s.budget current 0 = s.repl.cap
  budgets : ∀ slot ∈ s.live, slot.budget.Backed s.heap ∧
    ∀ current, s.budget current slot.pid = slot.budget.cap

section Heap

variable {heap : Heap} {inUse inUse' : List Block} {old budget : Budget}

theorem Ledger.perm (ledger : Ledger heap inUse) (perm : inUse.Perm inUse') :
    Ledger heap inUse' where
  distinct := perm.nodup_iff.mp ledger.distinct
  made block known := ledger.made block (known.imp_left perm.mem_iff.mpr)
  kept block among := ledger.kept block (perm.mem_iff.mpr among)
  freed block made unused := ledger.freed block made fun among => unused (perm.mem_iff.mp among)

theorem Ledger.alloc (ledger : Ledger heap inUse) (size : Nat) :
    Ledger { heap with sizes := heap.sizes ++ [size] } (heap.sizes.length :: inUse) := by
  have fresh : ∀ block, block ∈ inUse ∨ block ∈ heap.freed → block ≠ heap.sizes.length :=
    fun block known => (ledger.made block known).ne
  refine ⟨List.nodup_cons.mpr ⟨fun among => fresh _ (.inl among) rfl, ledger.distinct⟩, ?_, ?_, ?_⟩
  · intro block known
    rw [List.length_append, List.length_singleton]
    rcases known with among | freed
    · rcases List.mem_cons.mp among with rfl | among
      · exact Nat.lt_succ_self _
      · exact (ledger.made block (.inl among)).trans (Nat.lt_succ_self _)
    · exact (ledger.made block (.inr freed)).trans (Nat.lt_succ_self _)
  · intro block among freed
    rcases List.mem_cons.mp among with rfl | among
    · exact fresh _ (.inr freed) rfl
    · exact ledger.kept block among freed
  · intro block made unused
    rw [List.length_append, List.length_singleton] at made
    have notNew : block ≠ heap.sizes.length := fun same => unused (same ▸ List.mem_cons_self)
    exact ledger.freed block (by omega) fun among => unused (List.mem_cons_of_mem _ among)

theorem Ledger.free {block : Block} (ledger : Ledger heap (block :: inUse)) :
    Ledger (heap.free block) inUse := by
  obtain ⟨unused, distinct⟩ := List.nodup_cons.mp ledger.distinct
  have notFreed := ledger.kept block List.mem_cons_self
  refine ⟨distinct, ?_, ?_, ?_⟩
  · rintro other (among | freed)
    · exact ledger.made other (.inl (List.mem_cons_of_mem block among))
    · rcases List.mem_append.mp freed with freed | now
      · exact ledger.made other (.inr freed)
      · exact ledger.made other (.inl (List.mem_singleton.mp now ▸ List.mem_cons_self))
  · intro other among freed
    rcases List.mem_append.mp freed with freed | now
    · exact ledger.kept other (List.mem_cons_of_mem block among) freed
    · exact unused (List.mem_singleton.mp now ▸ among)
  · intro other made idle
    rw [Heap.free, List.count_append]
    rcases eq_or_ne other block with rfl | differs
    · rw [List.count_eq_zero_of_not_mem notFreed, List.count_singleton_self]
    · rw [List.count_singleton, beq_eq_false_iff_ne.mpr differs.symm]
      exact ledger.freed other made fun among =>
        (List.mem_cons.mp among).elim differs idle

theorem Budget.Backed.mono {heap' : Heap} (backed : budget.Backed heap)
    (grows : heap.sizes <+: heap'.sizes) : budget.Backed heap' := by
  obtain ⟨arena, bound, idle, sized⟩ := backed
  refine ⟨arena, bound, idle, fun block there => ?_⟩
  obtain ⟨positive, size⟩ := sized block there
  obtain ⟨more, same⟩ := grows
  refine ⟨positive, ?_⟩
  rw [← same, List.getElem?_append_left (List.getElem?_eq_some_iff.mp size).1]
  exact size

theorem Budget.Backed.unset : Budget.unset.Backed heap :=
  ⟨rfl, by decide, fun _ => rfl, nofun⟩

theorem Budget.Backed.eq_unset (backed : budget.Backed heap) (zero : budget.cap = 0) :
    budget = .unset := by
  obtain ⟨arena, bound, idle, sized⟩ := backed
  cases found : budget.backing with
  | none =>
      cases budget
      simp_all [Budget.unset]
  | some block =>
      have := (sized block found).1
      omega

/-- What a function has done with one budget, beside the blocks of the others. -/
structure Managed (heap : Heap) (old : Budget) (heap' : Heap) (budget : Budget) : Prop where
  grows : heap.sizes <+: heap'.sizes
  ledger : ∀ inUse, Ledger heap (old.backing.toList ++ inUse) →
    Ledger heap' (budget.backing.toList ++ inUse)
  backed : old.Backed heap → budget.Backed heap'

theorem Managed.refl (heap : Heap) (budget : Budget) : Managed heap budget heap budget :=
  ⟨List.prefix_refl _, fun _ ledger => ledger, fun backed => backed⟩

theorem budgetDrop_sizes (budget : Budget) (heap : Heap) :
    (budgetDrop budget heap).2.sizes = heap.sizes := by
  unfold budgetDrop
  split <;> rfl

theorem budgetDrop_ledger (ledger : Ledger heap (budget.backing.toList ++ inUse)) :
    Ledger (budgetDrop budget heap).2 inUse := by
  unfold budgetDrop
  cases found : budget.backing with
  | none => simpa [found] using ledger
  | some block =>
      rw [found] at ledger
      exact ledger.free

theorem managed_clear (budget : Budget) (heap : Heap) :
    Managed heap budget (budgetDrop budget heap).2 .unset where
  grows := by rw [budgetDrop_sizes]
  ledger _ ledger := budgetDrop_ledger ledger
  backed _ := .unset

theorem managed_drop (budget : Budget) (heap : Heap) :
    Managed heap budget (budgetDrop budget heap).2 (budgetDrop budget heap).1 := by
  cases found : budget.backing with
  | none =>
      have same : budgetDrop budget heap = (budget, heap) := by rw [budgetDrop, found]
      rw [same]
      exact .refl heap budget
  | some block =>
      have dropped : (budgetDrop budget heap).1 = .unset := by rw [budgetDrop, found]
      rw [dropped]
      exact managed_clear budget heap

theorem managed_replace {cap : Nat} (positive : 0 < cap) (bound : cap < 2 ^ 31)
    (blockGranted arenaMade : Bool) :
    Managed heap old (budgetReplace old cap blockGranted arenaMade heap).2.2
      (budgetReplace old cap blockGranted arenaMade heap).2.1 := by
  unfold budgetReplace
  split
  · exact .refl heap old
  · cases blockGranted with
    | false => exact .refl heap old
    | true =>
        let made : Heap := { heap with sizes := heap.sizes ++ [cap] }
        have sizes : (budgetDrop old made).2.sizes = heap.sizes ++ [cap] := budgetDrop_sizes old made
        have moved (inUse : List Block) (ledger : Ledger heap (old.backing.toList ++ inUse)) :
            Ledger (budgetDrop old made).2 (heap.sizes.length :: inUse) :=
          budgetDrop_ledger ((ledger.alloc cap).perm List.perm_middle.symm)
        cases arenaMade with
        | true =>
            show Managed heap old (budgetDrop old made).2 ⟨some heap.sizes.length, _, cap⟩
            refine ⟨sizes ▸ List.prefix_append _ _, moved, fun _ => ⟨rfl, bound, nofun, ?_⟩⟩
            rintro block ⟨⟩
            refine ⟨positive, ?_⟩
            rw [sizes]
            exact List.getElem?_concat_length
        | false =>
            refine ⟨?_, fun inUse ledger => (moved inUse ledger).free, fun _ => .unset⟩
            exact sizes ▸ List.prefix_append _ _

theorem budgetReplace_refused {cap : Nat} {blockGranted arenaMade : Bool}
    (refused : (budgetReplace old cap blockGranted arenaMade heap).1 = -1)
    (bare : blockGranted = true → arenaMade = false → old.cap ≠ cap → old = .unset) :
    (budgetReplace old cap blockGranted arenaMade heap).2.1 = old := by
  revert refused
  unfold budgetReplace
  split
  · exact fun _ => rfl
  · rename_i other
    cases blockGranted with
    | false => exact fun _ => rfl
    | true =>
        cases arenaMade with
        | true => exact fun refused => nomatch refused
        | false => exact fun _ => (bare rfl rfl (Ne.symm other)).symm

end Heap

/-! The invariant, over the live slots in their order. -/

structure Inv (live : List Slot) (repl : Budget) (heap : Heap) (tasks : TaskPtr → Option Task) :
    Prop where
  inRange : ∀ slot ∈ live, 0 < slot.pid ∧ slot.pid < 2 ^ 31
  distinct : (live.map Slot.pid).Nodup
  carries : ∀ slot ∈ live, ∃ t, slot.task = some t ∧ (pidOf tasks t : Int) = slot.pid
  ledger : Ledger heap (held repl live)
  repl : repl.Backed heap
  budgets : ∀ slot ∈ live, slot.budget.Backed heap

section Inv

variable {live before after : List Slot} {slot : Slot} {repl budget : Budget}
  {heap heap' : Heap} {tasks tasks' : TaskPtr → Option Task}

theorem Inv.retask (inv : Inv live repl heap tasks)
    (same : ∀ slot ∈ live, ∀ t, slot.task = some t → pidOf tasks' t = pidOf tasks t) :
    Inv live repl heap tasks' where
  inRange := inv.inRange
  distinct := inv.distinct
  carries slot among := by
    obtain ⟨t, task, pid⟩ := inv.carries slot among
    exact ⟨t, task, (same slot among t task).symm ▸ pid⟩
  ledger := inv.ledger
  repl := inv.repl
  budgets := inv.budgets

theorem held_split (repl : Budget) (before after : List Slot) (slot : Slot) :
    (held repl (before ++ slot :: after)).Perm
      (slot.budget.backing.toList ++ held repl (before ++ after)) := by
  cases found : slot.budget.backing with
  | none => simp [held, found]
  | some block =>
      simp only [held, List.filterMap_append, List.filterMap_cons, found, Option.toList_some,
        List.singleton_append, ← List.append_assoc]
      exact List.perm_middle

theorem mem_split {other : Slot} (among : other ∈ before ++ after) :
    other ∈ before ++ slot :: after := by
  rcases List.mem_append.mp among with early | late
  · exact List.mem_append_left _ early
  · exact List.mem_append_right _ (List.mem_cons_of_mem _ late)

theorem mem_replaced {other : Slot} (among : other ∈ before ++ slot :: after) :
    other = slot ∨ other ∈ before ++ after := by
  simpa [or_left_comm] using among

theorem Inv.manage (inv : Inv (before ++ slot :: after) repl heap tasks)
    (managed : Managed heap slot.budget heap' budget) :
    Inv (before ++ { slot with budget := budget } :: after) repl heap' tasks where
  inRange other among := by
    rcases mem_replaced among with rfl | among
    · exact inv.inRange slot List.mem_append_cons_self
    · exact inv.inRange other (mem_split among)
  distinct := by simpa using inv.distinct
  carries other among := by
    rcases mem_replaced among with rfl | among
    · exact inv.carries slot List.mem_append_cons_self
    · exact inv.carries other (mem_split among)
  ledger := (managed.ledger _ (inv.ledger.perm (held_split repl before after slot))).perm
    (held_split repl before after { slot with budget := budget }).symm
  repl := inv.repl.mono managed.grows
  budgets other among := by
    rcases mem_replaced among with rfl | among
    · exact managed.backed (inv.budgets slot List.mem_append_cons_self)
    · exact (inv.budgets other (mem_split among)).mono managed.grows

theorem Inv.manageRepl (inv : Inv live repl heap tasks)
    (managed : Managed heap repl heap' budget) : Inv live budget heap' tasks where
  inRange := inv.inRange
  distinct := inv.distinct
  carries := inv.carries
  ledger := managed.ledger _ inv.ledger
  repl := managed.backed inv.repl
  budgets slot among := (inv.budgets slot among).mono managed.grows

theorem Inv.remove (inv : Inv (before ++ slot :: after) repl heap tasks)
    (bare : slot.budget.backing = none) : Inv (before ++ after) repl heap tasks where
  inRange other among := inv.inRange other (mem_split among)
  distinct := by
    have distinct := inv.distinct
    rw [List.map_append, List.map_cons] at distinct
    rw [List.map_append]
    exact distinct.sublist (List.Sublist.append_left (List.sublist_cons_self _ _) _)
  carries other among := inv.carries other (mem_split among)
  ledger := by
    have ledger := inv.ledger.perm (held_split repl before after slot)
    rwa [bare] at ledger
  repl := inv.repl
  budgets other among := inv.budgets other (mem_split among)

theorem Inv.add {pid : Int} {t : TaskPtr} (inv : Inv live repl heap tasks)
    (positive : 0 < pid) (bound : pid < 2 ^ 31) (free : ∀ slot ∈ live, slot.pid ≠ pid)
    (carries : (pidOf tasks t : Int) = pid) :
    Inv (live ++ [⟨true, pid, some t, .unset⟩]) repl heap tasks where
  inRange slot among := by
    rcases List.mem_append.mp among with old | new
    · exact inv.inRange slot old
    · rw [List.mem_singleton.mp new]
      exact ⟨positive, bound⟩
  distinct := by
    rw [List.map_append]
    refine inv.distinct.append (List.nodup_singleton pid) fun other old new => ?_
    obtain ⟨slot, among, rfl⟩ := List.mem_map.mp old
    exact free slot among (List.mem_singleton.mp new)
  carries slot among := by
    rcases List.mem_append.mp among with old | new
    · exact inv.carries slot old
    · rw [List.mem_singleton.mp new]
      exact ⟨t, rfl, carries⟩
  ledger := by
    have same : held repl (live ++ [⟨true, pid, some t, .unset⟩]) = held repl live := by
      simp [held, Budget.unset]
    rw [same]
    exact inv.ledger
  repl := inv.repl
  budgets slot among := by
    rcases List.mem_append.mp among with old | new
    · exact inv.budgets slot old
    · rw [List.mem_singleton.mp new]
      exact .unset

theorem Inv.otherTask (inv : Inv (before ++ slot :: after) repl heap tasks) {t : TaskPtr}
    (own : slot.task = some t) : ∀ other ∈ before ++ after, other.task ≠ some t := by
  intro other among same
  obtain ⟨t', task, pid⟩ := inv.carries slot List.mem_append_cons_self
  obtain ⟨t'', task', pid'⟩ := inv.carries other (mem_split among)
  obtain rfl := Option.some.inj (own.symm.trans task)
  obtain rfl := Option.some.inj (same.symm.trans task')
  have distinct := inv.distinct
  rw [List.map_append, List.map_cons, List.nodup_middle, List.nodup_cons, ← List.map_append]
    at distinct
  exact distinct.1 (pid.symm.trans pid' ▸ List.mem_map_of_mem among)

end Inv

theorem int32_eq {n : Int} (low : 0 ≤ n) (high : n < 2 ^ 31) : int32 n = n :=
  Int.bmod_eq_of_le (by omega) (by omega)

theorem int32_lt (n : Int) : int32 n < 2 ^ 31 := by
  have := Int.bmod_lt (x := n) (m := 2 ^ 32) (by decide)
  unfold int32
  omega

theorem uint32_eq {n : Int} (low : 0 ≤ n) (high : n < 2 ^ 31) : (uint32 n : Int) = n := by
  unfold uint32
  omega

namespace State

def Inv (s : State) : Prop := Process.Inv s.live s.repl s.heap s.tasks ∧ s.nextPid < 2 ^ 31

variable {s : State} {current : Option TaskPtr} {pid : Int}

theorem live_split {before after : List Slot} {slot : Slot} (used : slot.used = true)
    (slots : s.slots = before ++ slot :: after) :
    s.live = before.filter Slot.used ++ slot :: after.filter Slot.used := by
  rw [live, slots, List.filter_append, List.filter_cons_of_pos used]

theorem findPid_split {i : Nat} (found : s.findPid pid = some i) :
    ∃ (before : List Slot) (slot : Slot) (after : List Slot),
      s.slots = before ++ slot :: after ∧ before.length = i ∧
      slot.used = true ∧ slot.pid = pid := by
  obtain ⟨inside, fits, _⟩ := List.findIdx?_eq_some_iff_getElem.mp found
  rw [Bool.and_eq_true, decide_eq_true_eq] at fits
  refine ⟨s.slots.take i, s.slots[i], s.slots.drop (i + 1), ?_, ?_, fits.1, fits.2⟩
  · rw [List.getElem_cons_drop, List.take_append_drop]
  · exact List.length_take_of_le inside.le

theorem pidNext_bounds (below : s.nextPid < 2 ^ 31) : 0 < s.pidNext ∧ s.pidNext < 2 ^ 31 := by
  unfold pidNext
  split <;> omega

theorem crownTask_cases (s : State) (t : Option TaskPtr) (slotGranted : Bool) :
    s.crownTask t slotGranted = (-1, s) ∨
      ∃ own task, t = some own ∧ s.tasks own = some task ∧ task.pid = 0 ∧ slotGranted = true ∧
        s.crownTask t slotGranted = (s.pidNext, s.crowned own task) := by
  unfold crownTask
  split
  · exact .inl rfl
  · rename_i own
    split
    · exact .inl rfl
    · rename_i task found
      split
      · exact .inl rfl
      · rename_i bare
        cases slotGranted with
        | false => exact .inl rfl
        | true => exact .inr ⟨own, task, rfl, found, not_not.mp bare, rfl, rfl⟩

theorem inv_crowned {t : TaskPtr} {task : Task} (inv : s.Inv) (zero : pidOf s.tasks t = 0)
    (free : s.PidFree) : (s.crowned t task).Inv := by
  obtain ⟨positive, bound⟩ := pidNext_bounds inv.2
  refine ⟨?_, int32_lt _⟩
  have live : (s.crowned t task).live = s.live ++ [⟨true, s.pidNext, some t, .unset⟩] := by
    simp [State.live, crowned]
  have others : Process.Inv s.live s.repl s.heap (s.crowned t task).tasks := by
    refine inv.1.retask fun slot among t' own => ?_
    obtain ⟨_, task', carries⟩ := inv.1.carries slot among
    obtain rfl := Option.some.inj (own.symm.trans task')
    have other : t' ≠ t := by
      rintro rfl
      have := (inv.1.inRange slot among).1
      omega
    simp [pidOf, crowned, other]
  refine live ▸ others.add positive bound free ?_
  simpa [pidOf, crowned] using uint32_eq positive.le bound

/-- The invariant holds after a call, and a refused call has changed nothing. -/
structure Settled (s : State) (outcome : Int × State) : Prop where
  inv : outcome.2.Inv
  refused : outcome.1 = -1 → s.Same outcome.2

theorem Settled.same (inv : s.Inv) (result : Int) : Settled s (result, s) :=
  ⟨inv, fun _ => ⟨rfl, rfl, rfl, rfl⟩⟩

theorem settled_crown {slotGranted : Bool} (inv : s.Inv)
    (meets : s.Meets (.crown current slotGranted)) : Settled s (s.crown current slotGranted) := by
  rcases crownTask_cases s current slotGranted with
    same | ⟨own, task, rfl, found, bare, granted, crowns⟩
  · exact (congrArg (Settled s) same).mpr (.same inv (-1))
  · have zero : pidOf s.tasks own = 0 := by rw [pidOf, found]; exact bare
    refine (congrArg (Settled s) crowns).mpr
      ⟨inv_crowned inv zero (meets ⟨own, rfl, zero⟩ granted), fun refused => ?_⟩
    have := (pidNext_bounds inv.2).1
    simp only at refused
    omega

theorem settled_spawn {ready coroGranted slotGranted : Bool} {task : Option TaskPtr}
    (inv : s.Inv) (fits : s.Fits (.spawn ready coroGranted task slotGranted))
    (meets : s.Meets (.spawn ready coroGranted task slotGranted)) :
    Settled s (s.spawn ready coroGranted task slotGranted) := by
  cases ready with
  | false => exact .same inv (-1)
  | true =>
      cases coroGranted with
      | false => exact .same inv (-1)
      | true =>
          cases task with
          | none => exact .same inv (-1)
          | some t =>
              obtain ⟨granted, free⟩ := meets rfl rfl rfl
              let made : State :=
                { s with tasks := Function.update s.tasks t (some ⟨0, some .pending⟩) }
              have zero : pidOf made.tasks t = 0 := by simp [pidOf, made]
              have madeInv : made.Inv := by
                refine ⟨inv.1.retask fun slot _ t' _ => ?_, inv.2⟩
                rcases eq_or_ne t' t with rfl | other
                · rw [zero, pidOf, fits t' rfl]
                  rfl
                · simp [pidOf, made, other]
              have crowns : made.crownTask (some t) slotGranted =
                  (s.pidNext, made.crowned t ⟨0, some .pending⟩) := by
                simp [crownTask, made, granted]
                rfl
              refine (congrArg (Settled s) crowns).mpr
                ⟨inv_crowned madeInv zero free, fun refused => ?_⟩
              have := (pidNext_bounds inv.2).1
              simp only at refused
              omega

theorem slot_split {before after : List Slot} {slot : Slot}
    (slots : s.slots = before ++ slot :: after) :
    s.slots[before.length]? = some slot ∧
      ∀ slot', s.slots.set before.length slot' = before ++ slot' :: after := by
  rw [slots]
  exact ⟨by simp, fun slot' => by simp⟩

theorem bare_budgetDrop (budget : Budget) (heap : Heap) :
    (budgetDrop budget heap).1.backing = none := by
  unfold budgetDrop
  split
  · assumption
  · rfl

theorem settled_quit (inv : s.Inv) : Settled s (s.quit current pid) := by
  unfold quit
  dsimp only
  generalize (if pid = 0 then s.processCurrent current else pid) = asked
  split
  · exact .same inv (-1)
  · split
    · exact .same inv (-1)
    · rename_i i found
      obtain ⟨before, slot, after, slots, rfl, used, _⟩ := findPid_split found
      obtain ⟨there, replaced⟩ := slot_split slots
      rw [there]
      dsimp only
      refine ⟨⟨?_, inv.2⟩, fun refused => nomatch refused⟩
      have split := live_split used slots
      have whole := inv.1
      rw [split] at whole
      obtain ⟨t, own, _⟩ := whole.carries slot List.mem_append_cons_self
      have others := whole.otherTask own
      have left : (s.quitSlot before.length slot).live =
          before.filter Slot.used ++ after.filter Slot.used := by
        simp only [live, quitSlot, replaced]
        rw [List.filter_append, List.filter_cons_of_neg (by simp)]
      refine left ▸ Inv.retask (((whole.manage (managed_drop slot.budget s.heap)).remove
        (bare_budgetDrop _ _))) fun other among t' owns => ?_
      have differs : t' ≠ t := by
        rintro rfl
        exact others other among owns
      simp [quitSlot, own, pidOf, differs]

theorem settled_setRepl {outcome : Int × Budget × Heap} (inv : s.Inv)
    (managed : Managed s.heap s.repl outcome.2.2 outcome.2.1)
    (refused : outcome.1 = -1 → outcome.2.1 = s.repl) : Settled s (s.setRepl outcome) :=
  ⟨⟨inv.1.manageRepl managed, inv.2⟩, fun result => ⟨rfl, rfl, refused result, rfl⟩⟩

theorem settled_setSlot {before after : List Slot} {slot : Slot}
    {outcome : Int × Budget × Heap} (inv : s.Inv) (slots : s.slots = before ++ slot :: after)
    (used : slot.used = true) (managed : Managed s.heap slot.budget outcome.2.2 outcome.2.1)
    (refused : outcome.1 = -1 → outcome.2.1 = slot.budget) :
    Settled s (s.setSlot before.length slot outcome) := by
  have whole := inv.1
  rw [live_split used slots] at whole
  have replaced := (slot_split slots).2
  refine ⟨⟨?_, inv.2⟩, fun result => ⟨?_, rfl, rfl, rfl⟩⟩
  · have live : (s.setSlot before.length slot outcome).2.live =
        before.filter Slot.used ++ { slot with budget := outcome.2.1 } :: after.filter Slot.used :=
      live_split used (replaced _)
    exact live ▸ whole.manage managed
  · rw [setSlot, replaced, refused result, slots]

theorem findSlot_split {i : Nat} (found : s.findSlot current pid = some i) :
    ∃ (before : List Slot) (slot : Slot) (after : List Slot),
      s.slots = before ++ slot :: after ∧ before.length = i ∧
      slot.used = true := by
  unfold findSlot at found
  dsimp only at found
  generalize (if pid = 0 then s.processCurrent current else pid) = asked at found
  split at found
  · cases found
  · obtain ⟨before, slot, after, slots, here, used, _⟩ := findPid_split found
    exact ⟨before, slot, after, slots, here, used⟩

theorem settled_budgetSet {cap : Int} {blockGranted arenaMade : Bool} (inv : s.Inv)
    (fits : s.Fits (.budgetSet current pid cap blockGranted arenaMade))
    (meets : s.Meets (.budgetSet current pid cap blockGranted arenaMade)) :
    Settled s (s.budgetSet current pid cap blockGranted arenaMade) := by
  have bound : cap.toNat < 2 ^ 31 := by
    have : cap < 2 ^ 31 := fits
    omega
  have bare {old : Budget} (aimed : s.target current pid = some old) (backed : old.Backed s.heap)
      (positive : 0 < cap) (granted : blockGranted = true) (unmade : arenaMade = false)
      (other : old.cap ≠ cap.toNat) : old = .unset :=
    backed.eq_unset (meets positive granted unmade old aimed other)
  unfold budgetSet
  dsimp only
  split
  · exact .same inv (-1)
  · rename_i notNegative
    split
    · split
      · split
        · exact .same inv (-1)
        · exact settled_setRepl inv (managed_clear _ _) fun refused => nomatch refused
      · cases found : s.findSlot current pid with
        | none => exact .same inv (-1)
        | some i =>
            obtain ⟨before, slot, after, slots, rfl, used⟩ := findSlot_split found
            rw [Option.bind_some, (slot_split slots).1]
            exact settled_setSlot inv slots used (managed_drop _ _) fun refused => nomatch refused
    · rename_i notZero
      have positive : 0 < cap := by omega
      split
      · rename_i zero
        split
        · exact .same inv (-1)
        · rename_i own
          have aimed : s.target current pid = some s.repl := by
            rw [target, if_pos zero, if_pos (not_not.mp own)]
          exact settled_setRepl inv (managed_replace (by omega) bound _ _) fun refused =>
            budgetReplace_refused refused (bare aimed inv.1.repl positive)
      · rename_i other
        cases found : s.findSlot current pid with
        | none => exact .same inv (-1)
        | some i =>
            obtain ⟨before, slot, after, slots, rfl, used⟩ := findSlot_split found
            have there := (slot_split slots).1
            have aimed : s.target current pid = some slot.budget := by
              rw [target, if_neg other, found, Option.bind_some, there, Option.map_some]
            have backed : slot.budget.Backed s.heap :=
              inv.1.budgets slot (live_split used slots ▸ List.mem_append_cons_self)
            rw [Option.bind_some, there]
            exact settled_setSlot inv slots used (managed_replace (by omega) bound _ _)
              fun refused => budgetReplace_refused refused (bare aimed backed positive)

theorem settled_call {c : Call} (inv : s.Inv) (fits : s.Fits c) (meets : s.Meets c) :
    Settled s (s.call c) := by
  cases c with
  | crown current slotGranted => exact settled_crown inv meets
  | spawn ready coroGranted task slotGranted => exact settled_spawn inv fits meets
  | quit current pid => exact settled_quit inv
  | budgetSet current pid cap blockGranted arenaMade => exact settled_budgetSet inv fits meets

theorem inv_of_run (run : Run Meets s) : s.Inv := by
  induction run with
  | boot uncrowned =>
      refine ⟨⟨nofun, .nil, nofun, ⟨.nil, nofun, nofun, fun _ => nofun⟩, .unset, nofun⟩, ?_⟩
      exact (by decide : (1 : Int) < 2 ^ 31)
  | call _ fits meets inv => exact (settled_call inv fits meets).inv
  | elsewhere _ same inv => exact ⟨inv.1.retask fun _ _ t _ => same t, inv.2⟩

theorem processCount_eq (s : State) : s.processCount = s.live.length := by
  have counts (slots : List Slot) (n : Int) :
      slots.foldl (fun n slot => if slot.used then n + 1 else n) n =
        n + (slots.filter Slot.used).length := by
    induction slots generalizing n with
    | nil => simp
    | cons slot rest ih =>
        rw [List.foldl_cons, ih]
        cases used : slot.used with
        | true =>
            rw [if_pos rfl, List.filter_cons_of_pos used, List.length_cons]
            omega
        | false => simp [used]
  rw [processCount, counts, Int.zero_add, live]

theorem processAt_loop (slots : List Slot) (k : Nat) (n : Int) :
    processAt.loop (n + k) n slots = ((slots.filter Slot.used)[k]?).elim (-1) Slot.pid := by
  induction slots generalizing n k with
  | nil => rfl
  | cons slot rest ih =>
      rw [processAt.loop, List.filter_cons]
      split
      · cases k with
        | zero => simp
        | succ k =>
            have later : n + ((k + 1 : Nat) : Int) = n + 1 + k := by omega
            rw [if_neg (by omega), later, ih, List.getElem?_cons_succ]
      · exact ih k n

theorem processAt_eq (s : State) (k : Nat) :
    s.processAt k = (s.live[k]?).elim (-1) Slot.pid := by
  have loop := processAt_loop s.slots k 0
  rw [Int.zero_add] at loop
  rw [processAt, if_neg (by omega), loop, live]

theorem findPid_live {slot : Slot} (distinct : (s.live.map Slot.pid).Nodup)
    (among : slot ∈ s.live) :
    ((s.findPid slot.pid).bind (s.slots[·]?)) = some slot := by
  have inside := List.mem_filter.mp among
  cases found : s.findPid slot.pid with
  | none =>
      have missing := List.findIdx?_eq_none_iff.mp found slot inside.1
      simp [inside.2] at missing
  | some i =>
      obtain ⟨before, slot', after, slots, rfl, used, samePid⟩ := findPid_split found
      have among' : slot' ∈ s.live := live_split used slots ▸ List.mem_append_cons_self
      rw [Option.bind_some, (slot_split slots).1]
      exact congrArg some (List.inj_on_of_nodup_map distinct among' among samePid)

theorem good_of_inv (inv : s.Inv) : Good s where
  positive slot among := (inv.1.inRange slot among).1
  distinct := inv.1.distinct
  listed := by
    rw [processCount_eq, Int.toNat_natCast]
    refine List.ext_getElem (by simp) fun k inside inside' => ?_
    have here : k < s.live.length := by simpa using inside'
    rw [List.getElem_map, List.getElem_range, processAt_eq, List.getElem?_eq_getElem here,
      List.getElem_map]
    rfl
  carries := inv.1.carries
  ledger := inv.1.ledger
  repl := by
    refine ⟨inv.1.repl, fun current => ?_⟩
    have bound := inv.1.repl.2.1
    rw [budget, if_pos rfl]
    exact int32_eq (by omega) (by omega)
  budgets slot among := by
    have backed := inv.1.budgets slot among
    have positive := (inv.1.inRange slot among).1
    have bound := backed.2.1
    refine ⟨backed, fun current => ?_⟩
    rw [budget, if_neg positive.ne', findSlot, if_neg positive.ne', if_neg (by omega),
      findPid_live inv.1.distinct among]
    exact int32_eq (by omega) (by omega)

end State

/-- While every call meets its condition the table is good, and a refused call leaves it as
it was. -/
theorem table_good {s : State} (run : Run State.Meets s) :
    Good s ∧ ∀ c, s.Fits c → s.Meets c → (s.call c).1 = -1 → s.Same (s.call c).2 :=
  ⟨State.good_of_inv (State.inv_of_run run), fun _ fits meets =>
    (State.settled_call (State.inv_of_run run) fits meets).refused⟩

/-! A process, its budget, and a second budget that no sub-arena can be made for. -/

def spawned : State := ((State.boot fun _ => none).call (.spawn true true (some 0) true)).2

theorem spawned_run {ok : State → Call → Prop}
    (meets : ok (.boot fun _ => none) (.spawn true true (some 0) true)) : Run ok spawned :=
  .call (.boot fun _ => rfl) (fun _ _ => rfl) meets

/-- A budget that is refused before there was one. -/
theorem table_good_spawned :
    Good spawned ∧ (spawned.call (.budgetSet none 1 65536 true false)).1 = -1 ∧
      spawned.Same (spawned.call (.budgetSet none 1 65536 true false)).2 := by
  have free : (State.boot fun _ => none).PidFree := nofun
  obtain ⟨good, refused⟩ := table_good (spawned_run fun _ _ _ => ⟨rfl, free⟩)
  refine ⟨good, by decide, refused _ (by decide : (65536 : Int) < 2 ^ 31) ?_ (by decide)⟩
  intro _ _ _ old aimed _
  have bare : spawned.target none 1 = some .unset := by decide
  rw [bare] at aimed
  cases aimed
  rfl

theorem table_good_fails :
    ¬∀ s, Run (fun _ _ => True) s →
      Good s ∧ ∀ c, s.Fits c → (s.call c).1 = -1 → s.Same (s.call c).2 := by
  intro claim
  have run : Run (fun _ _ => True) (spawned.call (.budgetSet none 1 65536 true true)).2 :=
    .call (spawned_run trivial) (by decide : (65536 : Int) < 2 ^ 31) trivial
  have same := (claim _ run).2 (.budgetSet none 1 1 true false)
    (by decide : (1 : Int) < 2 ^ 31) (by decide)
  exact absurd same.slots (by decide)

end Metal.Process
