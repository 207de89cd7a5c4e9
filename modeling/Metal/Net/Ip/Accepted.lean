import Metal.Net.Ip.Queues

namespace Metal.Net.Ip

open Metal.Lib

/-! What `accept` returns stays the application's. -/

variable {w : World} {st st' : Stack} {fd : Fd} {s s' : Sock}

def Kept (st : Stack) : Prop :=
  ∀ h ∈ st.handed, ∃ s, st.sk h.1 = some s ∧ s.id = h.2 ∧ s.stage = .taken

/-! ### What keeps the rows that were handed out -/

theorem Kept.of_sk (kept : Kept st) (sk : st'.sk = st.sk)
    (handed : st'.handed = st.handed) : Kept st' := by
  intro h member
  rw [handed] at member
  rw [sk]
  exact kept h member

theorem Kept.of_rows (kept : Kept st) (handed : st'.handed = st.handed)
    (rows : ∀ i s, st.sk i = some s → s.stage = .taken →
      ∃ s', st'.sk i = some s' ∧ s'.id = s.id ∧ s'.stage = .taken) : Kept st' := by
  intro h member
  rw [handed] at member
  obtain ⟨s, there, id, taken⟩ := kept h member
  obtain ⟨s', there', id', taken'⟩ := rows h.1 s there taken
  exact ⟨s', there', id'.trans id, taken'⟩

theorem Kept.setRow (kept : Kept st) (there : st.sk fd = some s)
    (same : s.stage = .taken → s'.id = s.id ∧ s'.stage = .taken) :
    Kept (st.setRow fd (some s')) := by
  refine kept.of_rows rfl fun i t there' taken => ?_
  by_cases here : i = fd
  · subst here
    obtain rfl := Option.some.inj (there.symm.trans there')
    exact ⟨s', Stack.setRow_sk_same _, same taken⟩
  · exact ⟨t, (Stack.setRow_sk_of_ne here _).trans there', rfl, taken⟩

theorem Kept.drop (kept : Kept st)
    (outside : ∀ s, st.sk fd = some s → s.stage ≠ .taken) : Kept (st.drop fd) := by
  refine kept.of_rows rfl fun i t there' taken => ?_
  by_cases here : i = fd
  · subst here
    exact absurd taken (outside t there')
  · exact ⟨t, (Stack.setRow_sk_of_ne here _).trans there', rfl, taken⟩

theorem Kept.complete (kept : Kept st) (lines : Lines st) (there : st.sk fd = some s)
    (half : s.tcpSt = .synRcvd) {stage : Stage} :
    Kept (st.setRow fd (some (s.complete stage))) := by
  refine kept.setRow there fun taken => ?_
  rw [(lines.half fd s there half).2] at taken
  exact absurd taken nofun

theorem Kept.insert (kept : Kept st) (free : st.sk fd = none) :
    Kept (({ st with nextId := st.nextId + 1 }).setRow fd (some s)) := by
  refine kept.of_rows rfl fun i t there taken => ?_
  have differ : i ≠ fd := by
    rintro rfl
    exact absurd (free.symm.trans there) nofun
  exact ⟨t, (Stack.setRow_sk_of_ne differ _).trans there, rfl, taken⟩

theorem Steps.handed (steps : Steps w st st') : st'.handed = st.handed := by
  induction steps with
  | trans _ _ first second => exact second.trans first
  | refuse _ _ _ _ _ _ _ _ _ _ reset => exact reset
  | _ => rfl

theorem Steps.kept (steps : Steps w st st') (sound : Sound w st) (lines : Lines st)
    (kept : Kept st) : Kept st' := by
  induction steps with
  | refl => exact kept
  | trans first _ ih₁ ih₂ =>
      exact ih₂ (first.sound sound) (first.lines sound lines)
        (ih₁ sound lines kept)
  | fault | deep | via | grow | spend | sent => exact kept.of_sk rfl rfl
  | change there change =>
      have frame := change.frame
      exact kept.setRow there fun taken => ⟨frame.id, frame.stage.trans taken⟩
  | release there gone =>
      refine kept.drop fun t there' => ?_
      obtain rfl := Option.some.inj (there.symm.trans there')
      rcases lines.released there gone with stage | stage <;> rw [stage] <;>
        exact nofun
  | finished there sent =>
      refine kept.drop fun t there' => ?_
      obtain rfl := Option.some.inj (there.symm.trans there')
      rw [lines.closed _ _ there (Or.inr sent)]
      exact nofun
  | child caps seg _ _ _ _ _ _ _ free => exact kept.insert free
  | @queue st lfd fd s l seg there _ _ half under listener =>
      have joined : Kept ((st.setRow fd (some (s.complete .queued))).setRow lfd
          (some (l.enqueue fd))) :=
        (kept.complete lines there half).setRow listener fun taken => ⟨rfl, taken⟩
      exact joined.of_sk rfl rfl
  | orphan seg there _ _ half => exact kept.complete lines there half
  | refuse seg there _ _ half _ _ _ reset old ih =>
      have completed := sound.complete .refused there
      have kept' := ih completed (lines.complete there half .refused)
        (kept.complete lines there half)
      refine kept'.drop fun t there' => ?_
      rw [reset.refusing old completed.table there']
      exact nofun

/-- A close names no row that still waits to be accepted, and a listener is not
closed while a connection it handed out is open. -/
def SparesAccepted (st : Stack) : Call → Prop
  | .close fd =>
      (∀ i < st.skCap, ∀ l ∈ st.sk i, fd ∉ l.acceptQ) ∧
        ∀ l ∈ st.sk fd, l.kind = .tcp → l.tcpSt = .listen → ∀ h ∈ st.handed,
          h.1 ≠ fd → ∀ s ∈ st.sk h.1, s.listenFd ≠ some fd
  | _ => True

instance (st : Stack) : ∀ call, Decidable (SparesAccepted st call)
  | .close fd => inferInstanceAs (Decidable
      ((∀ i < st.skCap, ∀ l ∈ st.sk i, fd ∉ l.acceptQ) ∧
        ∀ l ∈ st.sk fd, l.kind = .tcp → l.tcpSt = .listen → ∀ h ∈ st.handed,
          h.1 ≠ fd → ∀ s ∈ st.sk h.1, s.listenFd ≠ some fd))
  | .loUp | .socket _ | .outSocket _ | .bind .. | .bindL2 .. | .listen ..
  | .accept _ | .connect .. | .send .. | .recv .. | .pump | .input .. =>
      isTrue trivial

theorem SparesAccepted.unqueued (spares : SparesAccepted st (.close fd))
    (table : Table st) : Unqueued st fd :=
  fun i l there => spares.1 i (table.within i l there) l there

theorem Effect.kept (all : ∀ seg, w.admits seg) (table : Table st) {call : Call}
    (effect : Effect w st call st') (spares : SparesAccepted st call)
    (lines : Lines st) (kept : Kept st) : Kept st' := by
  have sound := Sound.of_table all table
  cases effect with
  | moves steps => exact steps.kept sound lines kept
  | loUp => exact kept.of_sk rfl rfl
  | @opened _ st₁ fd kind caps wnd prepares free room =>
      have free' : st₁.sk fd = none := by rw [prepares.sk, free]
      have kept₁ : Kept st₁ :=
        kept.of_sk prepares.sk (prepares.steps (w := w)).handed
      exact kept₁.insert free'
  | bound addr port l2 there
  | pinned h there => exact kept.setRow there fun taken => ⟨rfl, taken⟩
  | @listened fd s depth cap there =>
      refine kept.of_rows rfl fun i t thereT taken => ?_
      obtain ⟨t', there'⟩ := listened_there thereT fd s.acceptQ cap
      obtain ⟨u, thereU, same⟩ := listened_old there'
      obtain rfl := Option.some.inj (thereT.symm.trans thereU)
      refine ⟨t', there', same.id, (same.stage fun waits => ?_).trans taken⟩
      obtain ⟨u, thereU, -, -, queued⟩ := lines.live fd s i there waits
      obtain rfl := Option.some.inj (thereT.symm.trans thereU)
      exact absurd (taken.symm.trans queued) nofun
  | @accepted fd child rest s c waiter there _ _ queue live =>
      have shorter : Kept (st.setRow fd (some (s.dequeue waiter rest))) :=
        kept.setRow there fun taken => ⟨rfl, taken⟩
      have passed : Kept ((st.setRow fd (some (s.dequeue waiter rest))).setRow child
          (some c.taken)) :=
        shorter.setRow live fun _ => ⟨rfl, rfl⟩
      intro h member
      rcases List.mem_append.1 member with before | last
      · exact passed h before
      · rw [List.mem_singleton.1 last]
        exact ⟨c.taken, Stack.setRow_sk_same _, rfl, rfl⟩
  | acceptedDead waiter there queue dead =>
      exact absurd dead (lines.head_isSome waiter there queue)
  | @dialed fd s _ waiter src addr port there kind steps =>
      have renamed := table.dialed there
        (show ({ s with waiter := waiter } : Sock).id = s.id from rfl) src addr port
      obtain ⟨eph, same⟩ := dialPort_eq st { s with waiter := waiter }
      have named : Kept { st with eph := eph } := kept.of_sk rfl rfl
      have linesNamed : Lines { st with eph := eph } := lines.of_sk rfl
      refine steps.kept (Sound.of_table all renamed) ?_ ?_
      all_goals
        unfold Stack.dialed
        rw [same]
      · exact linesNamed.setRow there ⟨rfl, rfl, rfl, rfl, rfl, nofun,
          fun closed => closed.imp_right Or.inl⟩
      · exact named.setRow there fun taken => ⟨rfl, taken⟩
  | @dropped fd s there =>
      intro h member
      have ⟨member, differ⟩ : h ∈ st.handed ∧ h.1 ≠ fd := by
        rw [show ((st.unheld fd s).drop fd).handed = _ from
          unheld_handed fd s st] at member
        simpa using member
      obtain ⟨t, there', rest⟩ := kept h member
      refine ⟨t, (Stack.setRow_sk_of_ne differ _).trans ?_, rest⟩
      by_cases listens : s.kind = .tcp ∧ s.tcpSt = .listen
      · exact unheld_kept differ there'
          (spares.2 s there listens.1 listens.2 h member differ t there')
      · rw [show st.unheld fd s = st.letGo fd s from if_neg listens]
        exact (Stack.setRow_sk_of_ne differ _).trans there'
  | @closing fd s _ there notListen notHalf steps =>
      refine steps.kept (Sound.of_table all (table.unheld there)) ?_ ?_
      all_goals rw [unheld_deaf notListen]
      · exact lines.letGo there notHalf (spares.unqueued table)
      · intro h member
        have ⟨member, differ⟩ := List.mem_filter.1 member
        obtain ⟨t, there', rest⟩ := kept h member
        exact ⟨t, (Stack.setRow_sk_of_ne (by simpa using differ) _).trans there', rest⟩

theorem Effect.handed {call : Call} (effect : Effect w st call st')
    {h : Fd × Nat} (still : call ≠ .close h.1) (member : h ∈ st.handed) :
    h ∈ st'.handed := by
  cases effect with
  | moves steps => exact steps.handed ▸ member
  | opened kind caps wnd prepares =>
      exact (prepares.steps (w := w)).handed.symm ▸ member
  | accepted | acceptedDead => exact List.mem_append_left _ member
  | @dialed fd s _ waiter src addr port there kind steps =>
      rw [steps.handed]
      obtain ⟨eph, same⟩ := dialPort_eq st { s with waiter := waiter }
      unfold Stack.dialed
      rw [same]
      exact member
  | @dropped fd s there =>
      rw [show ((st.unheld fd s).drop fd).handed = _ from unheld_handed fd s st]
      refine List.mem_filter.2 ⟨member, ?_⟩
      simpa using fun same => still (congrArg Call.close same.symm)
  | @closing fd s _ there _ _ steps =>
      rw [steps.handed, unheld_handed]
      refine List.mem_filter.2 ⟨member, ?_⟩
      simpa using fun same => still (congrArg Call.close same.symm)
  | _ => exact member

theorem acceptLocked_handed {lfd : Fd} (returned : (st.acceptLocked lfd).2 = (fd : Int)) :
    ∃ id, (fd, id) ∈ (st.acceptLocked lfd).1.handed := by
  revert returned
  unfold Stack.acceptLocked
  split
  · intro returned
    exact absurd returned (by omega)
  · split
    · intro returned
      exact absurd returned (by omega)
    · dsimp only
      split
      · intro returned
        dsimp only at returned
        split at returned <;> exact absurd returned (by omega)
      · intro returned
        obtain rfl := Int.ofNat.inj returned
        exact ⟨_, List.mem_append_right _ (List.mem_singleton.2 rfl)⟩

structure Tended (st : Stack) : Prop where
  table : Table st
  lines : Lines st
  kept : Kept st

theorem Tended.step (tended : Tended st) (depth : Nat) (call : Env × Call)
    (spares : SparesAccepted st call.2) : Tended (act depth st call) := by
  have effect : Effect (World.open False) { st with env := call.1 } call.2
      (act depth st call) := act_effect tended.table depth call nofun
  have table := tended.table.env call.1
  have spares' : SparesAccepted { st with env := call.1 } call.2 := by
    cases same : call.2 <;> rw [same] at spares <;> exact spares
  have lines : Lines { st with env := call.1 } := tended.lines.of_sk rfl
  have outside (fd : Fd) (same : call.2 = .close fd) :
      Unqueued { st with env := call.1 } fd :=
    SparesAccepted.unqueued (same ▸ spares') table
  exact
    { table := effect.table (fun _ => trivial) table
      lines := effect.lines (fun _ => trivial) table outside lines
      kept := effect.kept (fun _ => trivial) table spares' lines
        (tended.kept.of_sk rfl rfl) }

theorem Tended.init (env : Env) : Tended (Stack.init env) where
  table := Table.init env
  lines := Lines.init env
  kept := nofun

def Names (st : Stack) (fd : Fd) (id : Nat) : Prop :=
  ∃ s, st.sk fd = some s ∧ s.id = id

theorem Tended.through {depth : Nat} {h : Fd × Nat} {calls : List (Env × Call)}
    (tended : Tended st) (member : h ∈ st.handed)
    (spares : Along (act depth) (fun st call => SparesAccepted st call.2) st calls)
    (still : ∀ call ∈ calls, call.2 ≠ .close h.1) :
    Tended (calls.foldl (act depth) st) ∧ h ∈ (calls.foldl (act depth) st).handed := by
  induction calls generalizing st with
  | nil => exact ⟨tended, member⟩
  | cons call rest ih =>
      have effect : Effect (World.open False) { st with env := call.1 } call.2
          (act depth st call) := act_effect tended.table depth call nofun
      have kept : h ∈ (act depth st call).handed :=
        effect.handed (still call List.mem_cons_self) member
      exact ih (tended.step depth call spares.1) kept spares.2
        fun call member => still call (List.mem_cons_of_mem _ member)

/-- In every run whose closes spare the accepted rows, the slot that `accept`
returns has the same row until the application closes it. -/
theorem accepted_stays_of_spares (depth : Nat) (env env' : Env)
    (before after : List (Env × Call)) (lfd fd : Fd)
    (spares : Along (act depth) (fun st call => SparesAccepted st call.2)
      (Stack.init env) (before ++ (env', Call.accept lfd) :: after))
    (returned : (Call.perform depth
      { before.foldl (act depth) (Stack.init env) with env := env' }
      (Call.accept lfd)).2.rc = (fd : Int))
    (still : ∀ call ∈ after, call.2 ≠ .close fd) :
    ∃ id,
      Names ((before ++ [(env', Call.accept lfd)]).foldl (act depth) (Stack.init env))
        fd id ∧
      Names ((before ++ (env', Call.accept lfd) :: after).foldl (act depth)
        (Stack.init env)) fd id := by
  have ⟨first, call, rest⟩ := Along.append.1 spares
  have start := first.invariant (fun st call tended spares =>
    tended.step depth call spares) (Tended.init env)
  have tended := start.step depth (env', .accept lfd) call
  obtain ⟨id, member⟩ := acceptLocked_handed returned
  have ⟨tended', member'⟩ := tended.through member rest still
  rw [List.foldl_append, List.foldl_append]
  refine ⟨id, ?_, ?_⟩
  · obtain ⟨s, there, named, -⟩ := tended.kept (fd, id) member
    exact ⟨s, there, named⟩
  · obtain ⟨s, there, named, -⟩ := tended'.kept (fd, id) member'
    exact ⟨s, there, named⟩

theorem accepted_stays_of_spares_visited :
    ∃ id,
      Names ((visited ++ [(Env.ample, Call.accept 0)]).foldl (act 4)
        (Stack.init Env.ample)) 1 id ∧
      Names ((visited ++ (Env.ample, Call.accept 0) ::
        [(Env.ample, Call.listen 0 4), (Env.ample, Call.pump)]).foldl (act 4)
        (Stack.init Env.ample)) 1 id :=
  accepted_stays_of_spares 4 Env.ample Env.ample visited _ 0 1
    (by decide +kernel) (by decide +kernel) (by decide)

/-- Closing the listener drops the row that it handed out. -/
theorem accepted_stays_fails :
    ¬ ∀ (depth : Nat) (env env' : Env) (before after : List (Env × Call))
      (lfd fd : Fd),
      (Call.perform depth
        { before.foldl (act depth) (Stack.init env) with env := env' }
        (Call.accept lfd)).2.rc = (fd : Int) →
      (∀ call ∈ after, call.2 ≠ .close fd) →
      ∃ id,
        Names ((before ++ [(env', Call.accept lfd)]).foldl (act depth)
          (Stack.init env)) fd id ∧
        Names ((before ++ (env', Call.accept lfd) :: after).foldl (act depth)
          (Stack.init env)) fd id := by
  intro stays
  obtain ⟨id, -, s, there, -⟩ := stays 4 Env.ample Env.ample visited
    [(Env.ample, Call.close 0)] 0 1 (by decide +kernel) (by decide)
  have gone : ((visited ++ (Env.ample, Call.accept 0) ::
      [(Env.ample, Call.close 0)]).foldl (act 4) (Stack.init Env.ample)).sk 1 =
        none := by
    decide +kernel
  exact absurd (there.symm.trans gone) nofun

end Metal.Net.Ip
