import Metal.Coop.History

namespace Metal.Coop

open Metal.Lib

/-! The discipline the card's code follows: what a runner must be in the middle
of when it performs an operation, and what each procedure leaves behind. -/

def Context.Settled (context : Context) : Prop :=
  ∀ entry ∈ context, entry.settled = true

def preRing (n : Nat) : RingOp → Context → Prop
  | .casSlot idx expected desired, context =>
      idx < n ∧
        ((expected = ringStEmpty ∧
            ∃ t rest, desired = taskWord t ∧ context = .ref t :: rest) ∨
          (ringSt expected = ringStReady ∧ desired = claimedWord expected))
  | .clearSlot idx, context =>
      idx < n ∧ ∃ t rest, context = .claim idx t :: rest
  | _, _ => True

def preMark : Mark → Context → Prop
  | .leavePost t, context => ∃ rest, context = .post t :: rest
  | .leaveTask t, context => ∃ c rest, context = .step t c :: rest
  | .leak t, context => ∃ hand rest, context = .drive t hand :: rest
  | .unlocked t, context => ∃ rest, context = .run t false :: rest
  | .retired t, context => ∃ rest, context = .retire t :: rest
  | _, _ => True

def preOp (n : Nat) : Op → Context → Prop
  | .ring o, context => preRing n o context
  | .subRef t, context =>
      ∃ entry rest, context = entry :: rest ∧ entry.owned = some t ∧
        entry.settled = true
  | .taskFree t, context => ∃ rest, context = .free t :: rest
  | .frame t (.loadStatus c), context => .step t c ∈ context
  | .frame t _, context => ∃ c, .step t c ∈ context
  | .fault t, context => ∃ c, .step t c ∈ context
  | .insertTimer tm, context => ∃ rest, context = .ref tm.task :: rest
  | .casRunning t, context => ∃ c rest, context = .step t c :: rest
  | .clearRunning t, context => ∃ rest, context = .run t false :: rest
  | .ownerIs t _, context => ∃ rest, context = .run t false :: rest
  | .casOwner t _, context => ∃ rest, context = .run t false :: rest
  | .park t holder, context =>
      ∃ c hand rest, context =
          .ref holder :: .run t false :: .step t c :: .drive t hand :: rest ∧
        hand ≠ .fresh ∧ Context.Settled rest
  | .handOver t, context => ∃ rest, context = .run t true :: rest
  | .stepLeaf t, context => ∃ vm rest, context = .run t vm :: rest
  | .mark m, context => preMark m context
  | _, _ => True

def learns : (o : Op) → o.Ret → Context → Prop
  | .loadVmLockReady, ready, _ => ready = true
  | .loadRoot t, root, context =>
      ∀ c c', root = some c → .step t c' ∈ context → c' = c
  | _, _, _ => True

def callPre : Proc → Context → Prop
  | .main, context => context = []
  | .leafOf t _, context => ∃ c, .step t c ∈ context
  | .stepLoop t, context =>
      ∃ c hand rest, context = .run t false :: .step t c :: .drive t hand :: rest ∧
        Context.Settled rest
  | .taskOf _, _ => True
  | _, context => context.Settled

def callPost : (p : Proc) → Context → p.Res → Context → Prop
  | .stepLoop t, before, broke, after =>
      ∀ c hand rest, before = .run t false :: .step t c :: .drive t hand :: rest →
        after =
          if broke then .run t false :: .step t c :: .drive t .served :: rest
          else .drive t .served :: rest
  | _, before, _, after => after = before

abbrev protocol (n : Nat) : Outline CoopSig where
  Ghost := Context
  pre := preOp n
  post := fun o before answer after =>
    after = track o answer before ∧ learns o answer before
  callPre := callPre
  callPost := callPost

namespace Context

theorem serve_of_settled {context : Context} (t : TaskPtr)
    (settled : context.Settled) : context.serve t = context := by
  induction context with
  | nil => rfl
  | cons entry rest ih =>
      have tail : serve t rest = rest :=
        ih fun other member => settled other (List.mem_cons_of_mem _ member)
      have head := settled entry List.mem_cons_self
      have kept : serve t (entry :: rest) = entry :: serve t rest := by
        cases entry with
        | drive t' hand
        | wake t' hand => exact if_neg fun fresh => fresh.2 (of_decide_eq_true head)
        | _ => rfl
      rw [kept, tail]

theorem tries_of_settled {context : Context} (t : TaskPtr)
    (settled : context.Settled) : context.tries t = context := by
  induction context with
  | nil => rfl
  | cons entry rest ih =>
      have tail : tries t rest = rest :=
        ih fun other member => settled other (List.mem_cons_of_mem _ member)
      have head := settled entry List.mem_cons_self
      have kept : tries t (entry :: rest) = entry :: tries t rest := by
        cases entry with
        | drive t' hand =>
            exact if_neg fun fresh => nomatch fresh.2.symm.trans (of_decide_eq_true head)
        | _ => rfl
      rw [kept, tail]

theorem Settled.cons {context : Context} {entry : Section}
    (settled : context.Settled) (head : entry.settled = true) :
    Context.Settled (entry :: context) := by
  intro other member
  rcases List.mem_cons.mp member with rfl | member
  · exact head
  · exact settled other member

theorem settled_nil : Context.Settled [] := by
  intro entry member
  cases member

theorem serve_drive {context : Context} (t : TaskPtr) (hand : Hand)
    (settled : context.Settled) :
    serve t (.drive t hand :: context) = .drive t .served :: context := by
  by_cases served : hand = .served
  · rw [served]
    exact (if_neg fun fresh => fresh.2 rfl).trans
      (congrArg _ (serve_of_settled t settled))
  · exact if_pos ⟨rfl, served⟩

theorem serve_wake {context : Context} (t : TaskPtr) (hand : Hand)
    (settled : context.Settled) :
    serve t (.wake t hand :: context) = .wake t .served :: context := by
  by_cases served : hand = .served
  · rw [served]
    exact (if_neg fun fresh => fresh.2 rfl).trans
      (congrArg _ (serve_of_settled t settled))
  · exact if_pos ⟨rfl, served⟩

theorem tries_drive {context : Context} (t : TaskPtr) (hand : Hand)
    (settled : context.Settled) :
    ∃ after, tries t (.drive t hand :: context) = .drive t after :: context ∧
      after ≠ .fresh := by
  cases hand with
  | fresh => exact ⟨.tried, if_pos ⟨rfl, rfl⟩, nofun⟩
  | tried =>
      exact ⟨.tried, (if_neg nofun).trans (congrArg _ (tries_of_settled t settled)), nofun⟩
  | served =>
      exact ⟨.served, (if_neg nofun).trans (congrArg _ (tries_of_settled t settled)), nofun⟩

@[simp] theorem serve_run {context : Context} (t t' : TaskPtr) (vm : Bool) :
    serve t (.run t' vm :: context) = .run t' vm :: serve t context := rfl

@[simp] theorem serve_step {context : Context} (t t' : TaskPtr) (c : CoroPtr) :
    serve t (.step t' c :: context) = .step t' c :: serve t context := rfl

@[simp] theorem serve_post {context : Context} (t t' : TaskPtr) :
    serve t (.post t' :: context) = .post t' :: serve t context := rfl

@[simp] theorem serve_ref {context : Context} (t t' : TaskPtr) :
    serve t (.ref t' :: context) = .ref t' :: serve t context := rfl

@[simp] theorem tries_run {context : Context} (t t' : TaskPtr) (vm : Bool) :
    tries t (.run t' vm :: context) = .run t' vm :: tries t context := rfl

@[simp] theorem tries_step {context : Context} (t t' : TaskPtr) (c : CoroPtr) :
    tries t (.step t' c :: context) = .step t' c :: tries t context := rfl

@[simp] theorem setVm_run {context : Context} (t : TaskPtr) (vm vm' : Bool) :
    setVm t vm (.run t vm' :: context) = .run t vm :: context := by
  simp [setVm]

@[simp] theorem release_claim {context : Context} (idx : Nat) (t : TaskPtr) :
    release (.claim idx t :: context) = .drive t .fresh :: context := rfl

end Context

/-! The rules of the outline, as rewrites. -/

section Rules

variable {n : Nat} {context rest : Context} {t : TaskPtr} {α β : Type}

variable {holds : α → Context → Prop}

@[simp] theorem wp_op {o : CoopSig.Op} {next : CoopSig.Ret o → CoopProgram α} :
    (protocol n).wp (.op o next) context holds ↔
      preOp n o context ∧
        ∀ answer : CoopSig.Ret o, learns o answer context →
          (protocol n).wp (next answer) (track o answer context) holds :=
  Outline.wp_op_track (L := protocol n) (fun _ _ => Iff.rfl) next holds

@[simp] theorem wp_call {p : CoopSig.Proc} {next : CoopSig.Res p → CoopProgram α} :
    (protocol n).wp (.call p next) context holds ↔
      callPre p context ∧
        ∀ (answer : CoopSig.Res p) after, callPost p context answer after →
          (protocol n).wp (next answer) after holds :=
  Iff.rfl

@[simp] theorem wp_done {value : α} :
    (protocol n).wp (.done value) context holds ↔ holds value context :=
  Iff.rfl

@[simp] theorem wp_seq {first : CoopProgram α} {f : α → CoopProgram β}
    {holds : β → Context → Prop} :
    (protocol n).wp (first.bind f) context holds ↔
      (protocol n).wp first context fun value after =>
        (protocol n).wp (f value) after holds :=
  Outline.wp_bind _

theorem wp_ite {condition : Prop} [Decidable condition] {yes no : CoopProgram α} :
    (protocol n).wp (if condition then yes else no) context holds ↔
      if condition then (protocol n).wp yes context holds
      else (protocol n).wp no context holds :=
  Outline.wp_ite (protocol n)

@[simp] theorem ring_done (value : α) : ring (.done value) = .done value := rfl

@[simp] theorem ring_op (o : RingSig.Op)
    (next : RingSig.Ret o → RingProgram α) :
    ring (.op o next) = .op (Op.ring o) fun answer => ring (next answer) := rfl

@[simp] theorem ring_bind (first : RingProgram α) (f : α → RingProgram β) :
    ring (first.bind f) = (ring first).bind fun value => ring (f value) :=
  Program.embed_bind _ _ first f

theorem ring_ite {condition : Prop} [Decidable condition]
    (yes no : RingProgram α) :
    ring (if condition then yes else no) =
      if condition then ring yes else ring no :=
  Program.embed_ite _ _ yes no

attribute [simp] perform invoke coro
attribute [simp] frame mark clock
attribute [simp] preOp preMark preRing
attribute [simp] learns track trackMark
attribute [simp] trackRing callPre callPost

end Rules

@[simp] theorem wordTask_taskWord (t : TaskPtr) : wordTask (taskWord t) = t :=
  payPtr_ringPay_ringPack t (by decide) (by decide)

theorem wordTask_claimedWord (w : Word) :
    wordTask (claimedWord w) = wordTask w := by
  rw [wordTask, ringPay_claimedWord, wordTask]

end Metal.Coop
