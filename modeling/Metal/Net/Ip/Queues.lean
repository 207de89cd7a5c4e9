import Metal.Net.Ip.Identity
import Metal.Net.Ip.Orders

namespace Metal.Net.Ip

open Metal.Lib

/-! The accept queues over whole runs. -/

variable {w : World} {st st' : Stack} {fd : Fd} {s s' : Sock}

/-- No row whose handshake is under way, nor one in the queue, hangs on the
listener. -/
def NoneWaiting (st : Stack) (fd : Fd) : Prop :=
  ∀ i < st.skCap, ∀ s ∈ st.sk i, s.listenFd = some fd →
    s.tcpSt ≠ .synRcvd ∧ ∀ l ∈ st.sk fd, i ∉ l.acceptQ

instance (st : Stack) (fd : Fd) : Decidable (NoneWaiting st fd) :=
  inferInstanceAs (Decidable (∀ i < st.skCap, ∀ s ∈ st.sk i, s.listenFd = some fd → _))

/-- `listen` is called on a socket that the application has, and gives up no
queue; `connect` on no listener that others wait for; `close` on no row that
waits in a queue, and on no listener that handed out another listener which
others wait for. -/
def KeepsQueues (st : Stack) : Call → Prop
  | .listen fd _ =>
      ∀ s ∈ st.sk fd, s.kind = .tcp → s.bound = true → s.held = true ∧ s.acceptQ = []
  | .connect fd .. =>
      ∀ s ∈ st.sk fd, s.kind = .tcp → s.tcpSt ≠ .synRcvd ∧
        (s.tcpSt = .listen → NoneWaiting st fd)
  | .close fd =>
      (∀ i < st.skCap, ∀ l ∈ st.sk i, fd ∉ l.acceptQ) ∧
        ∀ l ∈ st.sk fd, l.tcpSt = .listen → ∀ i < st.skCap, ∀ s ∈ st.sk i,
          s.listenFd = some fd → s.tcpSt = .listen → NoneWaiting st i
  | _ => True

instance (st : Stack) : ∀ call, Decidable (KeepsQueues st call)
  | .listen fd _ => inferInstanceAs (Decidable
      (∀ s ∈ st.sk fd, s.kind = .tcp → s.bound = true → s.held = true ∧ s.acceptQ = []))
  | .connect fd .. => inferInstanceAs (Decidable
      (∀ s ∈ st.sk fd, s.kind = .tcp → s.tcpSt ≠ .synRcvd ∧
        (s.tcpSt = .listen → NoneWaiting st fd)))
  | .close fd => inferInstanceAs (Decidable
      ((∀ i < st.skCap, ∀ l ∈ st.sk i, fd ∉ l.acceptQ) ∧
        ∀ l ∈ st.sk fd, l.tcpSt = .listen → ∀ i < st.skCap, ∀ s ∈ st.sk i,
          s.listenFd = some fd → s.tcpSt = .listen → NoneWaiting st i))
  | .loUp | .socket _ | .outSocket _ | .bind .. | .bindL2 .. | .accept _
  | .send .. | .recv .. | .pump | .input .. => isTrue trivial

theorem NoneWaiting.unattended (nobody : NoneWaiting st fd) (table : Table st)
    (orders : Orders st) : Unattended st fd := by
  intro i s there under
  have ⟨notHalf, notQueued⟩ := nobody i (table.within i s there) s there under
  have placed := orders.placed i s there
  unfold Placed at placed
  refine ⟨fun stage => ?_, fun stage => ?_⟩ <;> rw [stage] at placed
  · exact notHalf placed.1
  · obtain ⟨lfd, l, under', thereL, -, waits⟩ := placed
    obtain rfl := Option.some.inj (under.symm.trans under')
    exact notQueued l thereL waits

def Clean (st : Stack) : Prop :=
  ∀ i s, st.sk i = some s → s.stage ≠ .refused

theorem Clean.setRow (clean : Clean st) (fd : Fd) (stage : s'.stage ≠ .refused) :
    Clean (st.setRow fd (some s')) := by
  intro i t there
  obtain ⟨rfl, rfl⟩ | ⟨_, old⟩ := Stack.setRow_old there
  · exact stage
  · exact clean i t old

theorem Clean.unheld (clean : Clean st) : Clean (st.unheld fd s) := by
  intro i t there
  rcases unheld_old i t there with ⟨rfl, rfl⟩ | ⟨_, old⟩
  · exact nofun
  · exact clean i t old

namespace Orders

theorem dropped (orders : Orders st) (lines : Lines st) (table : Table st)
    (there : st.sk fd = some s) (keeps : KeepsQueues st (.close fd)) :
    Orders ((st.unheld fd s).drop fd) := by
  have outside : Unqueued st fd :=
    fun i l there => keeps.1 i (table.within i l there) l there
  have old (i : Fd) (t : Sock) (there' : ((st.unheld fd s).drop fd).sk i = some t) :
      i ≠ fd ∧ st.sk i = some t := by
    obtain ⟨differ, there'⟩ := Stack.drop_old there'
    refine ⟨differ, ?_⟩
    rcases unheld_old i t there' with ⟨same, -⟩ | ⟨-, there⟩
    · exact absurd same differ
    · exact there
  have still (i : Fd) (t : Sock) (differ : i ≠ fd) (thereT : st.sk i = some t)
      (alone : s.tcpSt = .listen → t.listenFd ≠ some fd) :
      (((st.unheld fd s).drop fd).sk i).isSome := by
    rw [Stack.drop, Stack.setRow_sk_of_ne differ]
    by_cases listens : s.tcpSt = .listen
    · rw [unheld_kept differ thereT (alone listens)]
      rfl
    · rw [unheld_deaf listens, Stack.letGo, Stack.setRow_sk_of_ne differ]
      exact thereT ▸ rfl
  refine orders.of_rows (fun i t there' => ?_) (fun i t lfd thereI thereT under waits => ?_)
    (fun i l c thereI thereL waits => ?_) ?_ ?_ ?_
  · exact ⟨t, (old i t there').2, Steady.refl i t⟩
  · obtain ⟨l, thereL, listens⟩ := orders.attended thereT under waits
    obtain ⟨t', there'⟩ := Option.isSome_iff_exists.1 thereI
    have kind : t.kind = .tcp := by
      have placed := orders.placed i t thereT
      unfold Placed at placed
      rcases waits with stage | stage <;> rw [stage] at placed
      · exact (lines.half i t thereT placed.1).1
      · obtain ⟨j, m, -, thereM, -, inQueue⟩ := placed
        obtain ⟨u, thereU, kind, -⟩ := lines.live j m i thereM inQueue
        obtain rfl := Option.some.inj (thereT.symm.trans thereU)
        exact kind
    have differ : lfd ≠ fd := by
      rintro rfl
      obtain rfl := Option.some.inj (there.symm.trans thereL)
      have owner := (orders.owner lfd s there listens).1
      have gone : (st.unheld lfd s).sk i = none :=
        unheld_gone (old i t' there').1 (table.within i t thereT) thereT kind under
          ⟨owner, listens⟩
      rw [Stack.drop, Stack.setRow_sk_of_ne (old i t' there').1] at there'
      cases gone.symm.trans there'
    refine still lfd l differ thereL fun isListening also => ?_
    -- the listener of a row that waits is no row under the one that is closed
    have nobody := keeps.2 s there isListening lfd (table.within lfd l thereL) l thereL
      also listens
    obtain ⟨notHalf, notQueued⟩ := nobody.unattended table orders i t thereT under
    exact waits.elim notHalf notQueued
  · obtain ⟨t, thereT, -, under, -⟩ := lines.live i l c thereL waits
    obtain ⟨l', there'⟩ := Option.isSome_iff_exists.1 thereI
    refine still c t ?_ thereT fun _ same => ?_
    · rintro rfl
      exact outside i l thereL waits
    · exact (old i l' there').1 (Option.some.inj (under.symm.trans same))
  all_goals
    unfold Stack.unheld
    split <;> rfl

theorem letGo (orders : Orders st)
    (clean : Clean st) (there : st.sk fd = some s)
    (notListen : s.tcpSt ≠ .listen) (notHalf : s.tcpSt ≠ .synRcvd)
    (outside : Unqueued st fd) : Orders (st.letGo fd s) := by
  have forgotten : Orders { st with handed := st.handed.filter fun h => h.1 ≠ fd } :=
    orders.of_sk rfl rfl rfl rfl
  refine forgotten.turn there rfl rfl notListen notListen nofun ?_ nofun
  have placed := orders.placed fd s there
  show s.listenFd = none ∨ ∃ n, (n, s.id) ∈ st.taken
  unfold Placed at placed
  cases stage : s.stage <;> rw [stage] at placed
  case own => exact Or.inl placed
  case half => exact absurd placed.1 notHalf
  case queued =>
    obtain ⟨lfd, l, -, thereL, -, waits⟩ := placed
    exact absurd waits (outside lfd l thereL)
  case taken => exact placed
  case left => exact placed
  case refused => exact absurd stage (clean fd s there)
  case orphan => exact absurd placed id

theorem listened (orders : Orders st) (lines : Lines st) (there : st.sk fd = some s)
    (kind : s.kind = .tcp) (held : s.held = true) (empty : s.acceptQ = []) (cap : Nat) :
    Orders (st.listened fd s.acceptQ cap) := by
  have same : st.listened fd s.acceptQ cap = st.setRow fd (some (s.listening cap)) := by
    unfold Stack.listened Stack.setRow
    congr 1
    funext i
    by_cases here : i = fd
    · subst here
      simp [there, empty]
    · simp [here, empty]
  have holds := orders.holder fd s there held
  rw [same]
  exact orders.setRow lines there
    { id := rfl, kind := rfl, listenFd := rfl, acceptQ := empty.symm, stage := rfl
      half := fun _ => Or.inr fun stage => by
        rw [stage] at holds
        exact absurd holds (by simp [Stage.Held])
      listens := fun _ => Or.inl rfl
      owner := fun _ => Or.inr ⟨kind, holds⟩
      holder := fun held => held }

end Orders

/-- The stack once `accept` has handed out the head of a queue. -/
def Stack.passed (fd child : Fd) (waiter : Option Nat) (rest : List Fd) (s c : Sock)
    (st : Stack) : Stack :=
  { (st.setRow fd (some (s.dequeue waiter rest))).setRow child (some c.taken) with
    taken := st.taken ++ [(s.id, c.id)]
    handed := st.handed ++ [(child, c.id)] }

section Passed

variable {child : Fd} {rest : List Fd} {c : Sock} {waiter : Option Nat}

theorem passed_old {i : Fd} {t : Sock}
    (there : (st.passed fd child waiter rest s c).sk i = some t) :
    i = child ∧ t = c.taken ∨ i ≠ child ∧ i = fd ∧ t = s.dequeue waiter rest ∨
      i ≠ child ∧ i ≠ fd ∧ st.sk i = some t := by
  obtain same | ⟨other, there⟩ := Stack.setRow_old there
  · exact Or.inl same
  · obtain ⟨here, same⟩ | ⟨other', old⟩ := Stack.setRow_old there
    · exact Or.inr (Or.inl ⟨other, here, same⟩)
    · exact Or.inr (Or.inr ⟨other, other', old⟩)

theorem passed_name (there : st.sk fd = some s) (live : st.sk child = some c) (i : Fd) :
    ((st.passed fd child waiter rest s c).sk i).map Sock.id = (st.sk i).map Sock.id := by
  show (((st.setRow fd (some (s.dequeue waiter rest))).setRow child
    (some c.taken)).sk i).map Sock.id = _
  by_cases same : i = child
  · subst same
    rw [Stack.setRow_sk_same, live]
    rfl
  · rw [Stack.setRow_sk_of_ne same]
    by_cases here : i = fd
    · subst here
      rw [Stack.setRow_sk_same, there]
      rfl
    · rw [Stack.setRow_sk_of_ne here]

theorem Orders.passed (orders : Orders st) (lines : Lines st) (table : Table st)
    (there : st.sk fd = some s) (queue : s.acceptQ = child :: rest)
    (live : (st.setRow fd (some (s.dequeue waiter rest))).sk child = some c) :
    Orders (st.passed fd child waiter rest s c) := by
  obtain ⟨differ, thereC, under, stage⟩ := lines.head there queue live
  have deaf : c.tcpSt ≠ .listen :=
    orders.deaf thereC (by rw [stage]; simp [Stage.Held])
  have logged : st.taken ⊆ st.taken ++ [(s.id, c.id)] := List.subset_append_left _ _
  have carried (i : Fd) (t t' : Sock) (other : i ≠ child) (placed : Placed st i t)
      (stage : t'.stage = t.stage) (listenFd : t'.listenFd = t.listenFd)
      (id : t'.id = t.id) (state : t'.tcpSt = t.tcpSt) :
      Placed (st.passed fd child waiter rest s c) i t' := by
    refine placed.carry stage listenFd id (fun _ half => state.trans half)
      (fun j m _ _ thereM listens => ?_) logged
    have apart : j ≠ child := by
      rintro rfl
      obtain rfl := Option.some.inj (thereC.symm.trans thereM)
      exact deaf listens
    by_cases here : j = fd
    · subst here
      obtain rfl := Option.some.inj (there.symm.trans thereM)
      refine ⟨s.dequeue waiter rest, ?_, listens, fun waits => ?_⟩
      · exact (Stack.setRow_sk_of_ne apart _).trans (Stack.setRow_sk_same _)
      · rw [queue] at waits
        exact (List.mem_cons.1 waits).resolve_left other
    · exact ⟨m, (Stack.setRow_sk_of_ne apart _).trans
        ((Stack.setRow_sk_of_ne here _).trans thereM), listens, fun waits => waits⟩
  constructor
  case placed =>
    intro i t there'
    obtain ⟨rfl, rfl⟩ | ⟨other, rfl, rfl⟩ | ⟨other, _, old⟩ := passed_old there'
    · exact Or.inr ⟨s.id, List.mem_append_right _ (List.mem_singleton.2 rfl)⟩
    · exact carried i s _ other (orders.placed i s there) rfl rfl rfl rfl
    · exact carried i t t other (orders.placed i t old) rfl rfl rfl rfl
  case owner =>
    intro i t there' listens
    obtain ⟨rfl, rfl⟩ | ⟨other, rfl, rfl⟩ | ⟨other, _, old⟩ := passed_old there'
    · exact absurd listens deaf
    · exact orders.owner i s there listens
    · exact orders.owner i t old listens
  case holder =>
    intro i t there' held
    obtain ⟨rfl, rfl⟩ | ⟨other, rfl, rfl⟩ | ⟨other, _, old⟩ := passed_old there'
    · exact Or.inr rfl
    · exact orders.holder i s there held
    · exact orders.holder i t old held
  case fresh => exact orders.fresh
  case pending =>
    intro i t there' half
    obtain ⟨rfl, rfl⟩ | ⟨other, rfl, rfl⟩ | ⟨other, _, old⟩ := passed_old there'
    · cases half
    · exact orders.pending i s there half
    · exact orders.pending i t old half
  case single => exact orders.single
  case order =>
    intro i m there'
    have named (queue : List Fd) :
        names (st.passed fd child waiter rest s c) queue = names st queue :=
      names_congr fun d _ => passed_name there thereC d
    show entries st.queued m.id = entries (st.taken ++ [(s.id, c.id)]) m.id ++ _
    rw [entries_append, named]
    obtain ⟨rfl, rfl⟩ | ⟨other, old⟩ : i = fd ∧ m = s.dequeue waiter rest ∨
        i ≠ fd ∧ ∃ m₀, st.sk i = some m₀ ∧ m.id = m₀.id ∧ m.acceptQ = m₀.acceptQ := by
      obtain ⟨rfl, rfl⟩ | ⟨_, same⟩ | ⟨_, other, old⟩ := passed_old there'
      · exact Or.inr ⟨differ, c, thereC, rfl, rfl⟩
      · exact Or.inl same
      · exact Or.inr ⟨other, m, old, rfl, rfl⟩
    · show entries st.queued s.id =
        (entries st.taken s.id ++ entries [(s.id, c.id)] s.id) ++ names st rest
      rw [orders.order i s there, entries_same, queue, List.append_assoc]
      simp [names, thereC]
    · obtain ⟨m₀, old, id, same⟩ := old
      have apart : s.id ≠ m.id := by
        intro same
        exact other (table.apart i fd m₀ s old there (id.symm.trans same.symm))
      rw [entries_other apart, List.append_nil, id, same, orders.order i m₀ old]
  case handed =>
    intro n
    show entries (st.taken ++ [(s.id, c.id)]) n <+: entries st.queued n
    rw [entries_append]
    by_cases same : s.id = n
    · subst same
      rw [entries_same, orders.order fd s there, queue]
      refine ⟨names st rest, ?_⟩
      simp [names, thereC]
    · rw [entries_other same, List.append_nil]
      exact orders.handed n

end Passed

theorem Effect.orders (all : ∀ seg, w.admits seg) (table : Table st) {call : Call}
    (effect : Effect w st call st') (keeps : KeepsQueues st call) (lines : Lines st)
    (clean : Clean st) (orders : Orders st) : Orders st' := by
  have sound := Sound.of_table all table
  cases effect with
  | moves steps => exact steps.orders sound lines orders
  | loUp => exact orders.of_sk rfl rfl rfl rfl
  | @opened _ st₁ fd kind caps wnd prepares free room =>
      have steps := prepares.steps (w := w)
      have free' : st₁.sk fd = none := by rw [prepares.sk, free]
      exact (steps.orders sound lines orders).insert (steps.lines sound lines) free'
        rfl rfl nofun rfl fun _ => Or.inl rfl
  | bound addr port l2 there | pinned h there =>
      exact orders.setRow lines there
        ⟨rfl, rfl, rfl, rfl, rfl, Or.inl, Or.inl, Or.inl, fun held => held⟩
  | @listened fd s depth cap there kind bound =>
      have ⟨held, empty⟩ := keeps s there kind bound
      exact orders.listened lines there kind held empty cap
  | accepted waiter there _ _ queue live =>
      exact orders.passed lines table there queue live
  | acceptedDead waiter there queue dead =>
      exact absurd dead (lines.head_isSome waiter there queue)
  | @dialed fd s _ waiter src addr port there kind steps =>
      have ⟨notHalf, nobody⟩ := keeps s there kind
      have renamed := table.dialed there
        (show ({ s with waiter := waiter } : Sock).id = s.id from rfl) src addr port
      obtain ⟨eph, same⟩ := dialPort_eq st { s with waiter := waiter }
      have linesNamed : Lines { st with eph := eph } := lines.of_sk rfl
      have ordersNamed : Orders { st with eph := eph } := orders.of_sk rfl rfl rfl rfl
      refine steps.orders (Sound.of_table all renamed) ?_ ?_
      all_goals
        unfold Stack.dialed
        rw [same]
      · exact linesNamed.setRow there ⟨rfl, rfl, rfl, rfl, rfl, nofun,
          fun closed => closed.imp_right Or.inl⟩
      · exact ordersNamed.setRow linesNamed there
          { id := rfl, kind := rfl, listenFd := rfl, acceptQ := rfl, stage := rfl
            half := fun half => absurd half notHalf
            listens := fun listens => Or.inr ((nobody listens).unattended table orders)
            owner := nofun
            holder := fun held => held }
  | dropped there => exact orders.dropped lines table there keeps
  | closing there notListen notHalf steps =>
      have outside : Unqueued st _ :=
        fun i l there => keeps.1 i (table.within i l there) l there
      refine steps.orders (Sound.of_table all (table.unheld there)) ?_ ?_
      all_goals rw [unheld_deaf notListen]
      · exact lines.letGo there notHalf outside
      · exact orders.letGo clean there notListen notHalf outside

theorem Effect.clean {call : Call} (effect : Effect w st call st') (clean : Clean st) :
    Clean st' := by
  cases effect with
  | moves steps => exact steps.clean clean
  | loUp => exact clean
  | opened kind caps wnd prepares =>
      have clean₁ := (prepares.steps (w := w)).clean clean
      exact Clean.setRow clean₁ _ nofun
  | bound addr port l2 there | pinned h there =>
      have before := clean _ _ there
      exact clean.setRow _ before
  | listened depth cap there =>
      intro i t' there'
      obtain ⟨t, old, rfl⟩ := Option.map_eq_some_iff.1 there'
      dsimp only
      split <;> split
      · exact nofun
      · exact clean i t old
      · exact nofun
      · exact clean i t old
  | @accepted fd child rest s c waiter there =>
      have before := clean fd s there
      have shorter : Clean (st.setRow fd (some (s.dequeue waiter rest))) :=
        clean.setRow fd before
      have passed : Clean ((st.setRow fd (some (s.dequeue waiter rest))).setRow child
          (some c.taken)) :=
        shorter.setRow child nofun
      exact passed
  | @acceptedDead fd child rest s waiter there =>
      have before := clean fd s there
      have shorter : Clean (st.setRow fd (some (s.dequeue waiter rest))) :=
        clean.setRow fd before
      exact shorter
  | @dialed fd s _ waiter src addr port there kind steps =>
      refine steps.clean ?_
      obtain ⟨eph, same⟩ := dialPort_eq st { s with waiter := waiter }
      unfold Stack.dialed
      rw [same]
      exact clean.setRow fd (clean fd s there)
  | dropped there =>
      exact fun i t there' => clean.unheld i t (Stack.drop_old there').2
  | closing there _ _ steps => exact steps.clean clean.unheld

/-- The accept queues hold exactly the completed connections that nobody has
yet. -/
structure Exact (st : Stack) : Prop where
  live : ∀ i l c, st.sk i = some l → c ∈ l.acceptQ →
    ∃ s, st.sk c = some s ∧ s.kind = .tcp ∧ s.listenFd = some i
  once : ∀ i l, st.sk i = some l → l.acceptQ.Nodup
  apart : ∀ i j l m c, st.sk i = some l → st.sk j = some m →
    c ∈ l.acceptQ → c ∈ m.acceptQ → i = j
  single : (st.queued.map Prod.snd).Nodup
  handed : ∀ n, entries st.taken n <+: entries st.queued n
  order : ∀ i l, st.sk i = some l →
    entries st.queued l.id = entries st.taken l.id ++ names st l.acceptQ
  settled : ∀ i s lfd, st.sk i = some s → s.listenFd = some lfd →
    s.tcpSt = .synRcvd ∨
      (∃ l, st.sk lfd = some l ∧ l.tcpSt = .listen ∧ i ∈ l.acceptQ) ∨
      ∃ n, (n, s.id) ∈ st.taken

theorem exact_of_orders (lines : Lines st) (clean : Clean st) (orders : Orders st) :
    Exact st where
  live i l c there waits := by
    obtain ⟨s, thereC, kind, under, -⟩ := lines.live i l c there waits
    exact ⟨s, thereC, kind, under⟩
  once := lines.once
  apart i j l m c thereL thereM waits also := by
    obtain ⟨s, thereS, -, under, -⟩ := lines.live i l c thereL waits
    obtain ⟨t, thereT, -, under', -⟩ := lines.live j m c thereM also
    obtain rfl := Option.some.inj (thereS.symm.trans thereT)
    exact Option.some.inj (under.symm.trans under')
  single := orders.single
  handed := orders.handed
  order := orders.order
  settled i s lfd there under := by
    have placed := orders.placed i s there
    have some : s.listenFd ≠ none := by
      rw [under]
      exact nofun
    unfold Placed at placed
    cases stage : s.stage <;> rw [stage] at placed
    case own => exact absurd placed some
    case half => exact Or.inl placed.1
    case queued =>
      obtain ⟨j, l, under', thereL, listens, waits⟩ := placed
      obtain rfl := Option.some.inj (under.symm.trans under')
      exact Or.inr (Or.inl ⟨l, thereL, listens, waits⟩)
    case taken => exact Or.inr (Or.inr (placed.resolve_left some))
    case left => exact Or.inr (Or.inr (placed.resolve_left some))
    case refused => exact absurd stage (clean i s there)
    case orphan => exact absurd placed id

structure Queued (st : Stack) : Prop where
  table : Table st
  lines : Lines st
  clean : Clean st
  orders : Orders st

theorem Queued.step (inv : Queued st) (depth : Nat) (call : Env × Call)
    (keeps : KeepsQueues st call.2) : Queued (act depth st call) := by
  have effect : Effect (World.open False) { st with env := call.1 } call.2
      (act depth st call) := act_effect inv.table depth call nofun
  have table := inv.table.env call.1
  have lines : Lines { st with env := call.1 } := inv.lines.of_sk rfl
  have orders : Orders { st with env := call.1 } := inv.orders.of_sk rfl rfl rfl rfl
  have keeps' : KeepsQueues { st with env := call.1 } call.2 := by
    cases same : call.2 <;> rw [same] at keeps <;> exact keeps
  have outside (fd : Fd) (same : call.2 = .close fd) :
      Unqueued { st with env := call.1 } fd := by
    rw [same] at keeps'
    exact fun i l there => keeps'.1 i (table.within i l there) l there
  exact
    { table := effect.table (fun _ => trivial) table
      lines := effect.lines (fun _ => trivial) table outside lines
      clean := effect.clean inv.clean
      orders := effect.orders (fun _ => trivial) table keeps' lines inv.clean orders }

theorem Queued.init (env : Env) : Queued (Stack.init env) where
  table := Table.init env
  lines := Lines.init env
  clean := fun i s there => absurd there (init_sk env i s)
  orders :=
    { placed := fun i s there => absurd there (init_sk env i s)
      owner := fun i s there => absurd there (init_sk env i s)
      holder := fun i s there => absurd there (init_sk env i s)
      fresh := nofun
      pending := fun i s there => absurd there (init_sk env i s)
      single := List.nodup_nil
      order := fun i s there => absurd there (init_sk env i s)
      handed := fun _ => List.prefix_refl _ }

/-- In every run that keeps the queues they are exact in every state reached. -/
theorem queuesExact_of_keeps (depth : Nat) (env : Env) (run : List (Env × Call))
    (keeps : Along (act depth) (fun st call => KeepsQueues st call.2)
      (Stack.init env) run) : Exact (run.foldl (act depth) (Stack.init env)) := by
  have step (st : Stack) (call : Env × Call) (inv : Queued st)
      (keeps : KeepsQueues st call.2) : Queued (act depth st call) :=
    inv.step depth call keeps
  have reached := keeps.invariant step (Queued.init env)
  exact exact_of_orders reached.lines reached.clean reached.orders

def visited : List (Env × Call) :=
  [.socket .tcp, .bind 0 0 80, .listen 0 4, .input 1 (strangerSyn 80),
    .input 1 { strangerSyn 80 with seq := 8, ack := 1001, flags := .ackOnly }].map
      fun call => (Env.ample, call)

theorem queuesExact_of_keeps_visited :
    Exact (visited.foldl (act 4) (Stack.init Env.ample)) :=
  queuesExact_of_keeps 4 Env.ample visited (by decide +kernel)

/-- A second `listen` forgets the connection that waits. -/
theorem queuesExact_fails :
    ¬ ∀ (depth : Nat) (env : Env) (run : List (Env × Call)),
      Exact (run.foldl (act depth) (Stack.init env)) := by
  intro exact
  have reached := exact 4 Env.ample (visited ++ [(Env.ample, Call.listen 0 4)])
  have row : ∀ s ∈ ((visited ++ [(Env.ample, Call.listen 0 4)]).foldl (act 4)
      (Stack.init Env.ample)).sk 1, s.listenFd = some 0 ∧ s.tcpSt ≠ .synRcvd := by
    decide +kernel
  have queue : ∀ l ∈ ((visited ++ [(Env.ample, Call.listen 0 4)]).foldl (act 4)
      (Stack.init Env.ample)).sk 0, 1 ∉ l.acceptQ := by
    decide +kernel
  have there : (((visited ++ [(Env.ample, Call.listen 0 4)]).foldl (act 4)
      (Stack.init Env.ample)).sk 1).isSome := by
    decide +kernel
  have taken : ((visited ++ [(Env.ample, Call.listen 0 4)]).foldl (act 4)
      (Stack.init Env.ample)).taken = [] := by
    decide +kernel
  obtain ⟨s, there⟩ := Option.isSome_iff_exists.1 there
  obtain ⟨under, notHalf⟩ := row s there
  rcases reached.settled 1 s 0 there under with half | ⟨l, thereL, _, waits⟩ | ⟨n, logged⟩
  · exact notHalf half
  · exact queue l thereL waits
  · rw [taken] at logged
    exact absurd logged List.not_mem_nil

end Metal.Net.Ip
