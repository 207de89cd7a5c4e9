import Metal.Net.Ip.Lines

namespace Metal.Net.Ip

open Metal.Lib

/-! Completed handshakes in the order in which they complete and are handed out. -/

variable {w : World} {st st' : Stack} {fd : Fd} {s s' : Sock}

def entries (log : List (Nat × Nat)) (n : Nat) : List Nat :=
  (log.filter fun e => e.1 = n).map Prod.snd

def names (st : Stack) (queue : List Fd) : List Nat :=
  queue.filterMap fun c => (st.sk c).map Sock.id

theorem entries_append (log log' : List (Nat × Nat)) (n : Nat) :
    entries (log ++ log') n = entries log n ++ entries log' n := by
  simp [entries]

theorem entries_same (n id : Nat) : entries [(n, id)] n = [id] := by
  simp [entries]

theorem entries_other {n m : Nat} (differ : m ≠ n) (id : Nat) :
    entries [(m, id)] n = [] := by
  simp [entries, differ]

theorem entries_eq_nil {log : List (Nat × Nat)} {n : Nat}
    (none : ∀ e ∈ log, e.1 ≠ n) : entries log n = [] := by
  simpa [entries, List.filter_eq_nil_iff] using none

theorem names_append (queue queue' : List Fd) :
    names st (queue ++ queue') = names st queue ++ names st queue' :=
  List.filterMap_append ..

theorem names_congr {queue : List Fd}
    (same : ∀ c ∈ queue, (st'.sk c).map Sock.id = (st.sk c).map Sock.id) :
    names st' queue = names st queue :=
  List.filterMap_congr same

def Placed (st : Stack) (i : Fd) (s : Sock) : Prop :=
  match s.stage with
  | .own => s.listenFd = none
  | .half => s.tcpSt = .synRcvd ∧
      ∃ lfd l, s.listenFd = some lfd ∧ st.sk lfd = some l ∧ l.tcpSt = .listen
  | .queued => ∃ lfd l, s.listenFd = some lfd ∧ st.sk lfd = some l ∧
      l.tcpSt = .listen ∧ i ∈ l.acceptQ
  | .taken | .left => s.listenFd = none ∨ ∃ n, (n, s.id) ∈ st.taken
  | .refused => True
  | .orphan => False

theorem Placed.carry {i : Fd} (placed : Placed st i s) (stage : s'.stage = s.stage)
    (listenFd : s'.listenFd = s.listenFd) (id : s'.id = s.id)
    (half : s.stage = .half → s.tcpSt = .synRcvd → s'.tcpSt = .synRcvd)
    (listener : ∀ lfd l, s.listenFd = some lfd →
      s.stage = .half ∨ s.stage = .queued → st.sk lfd = some l → l.tcpSt = .listen →
      ∃ l', st'.sk lfd = some l' ∧ l'.tcpSt = .listen ∧
        (i ∈ l.acceptQ → i ∈ l'.acceptQ))
    (taken : st.taken ⊆ st'.taken) : Placed st' i s' := by
  unfold Placed at placed ⊢
  rw [stage, listenFd, id]
  cases was : s.stage with
  | own =>
      rw [was] at placed
      exact placed
  | half =>
      rw [was] at placed
      obtain ⟨waits, lfd, l, under, there, listens⟩ := placed
      obtain ⟨l', there', listens', -⟩ := listener lfd l under (Or.inl was) there listens
      exact ⟨half was waits, lfd, l', under, there', listens'⟩
  | queued =>
      rw [was] at placed
      obtain ⟨lfd, l, under, there, listens, waits⟩ := placed
      obtain ⟨l', there', listens', queue⟩ :=
        listener lfd l under (Or.inr was) there listens
      exact ⟨lfd, l', under, there', listens', queue waits⟩
  | taken | left =>
      rw [was] at placed
      exact placed.imp_right fun ⟨n, logged⟩ => ⟨n, taken logged⟩
  | refused => trivial
  | orphan =>
      rw [was] at placed
      exact placed

def Stage.Held (stage : Stage) : Prop := stage = .own ∨ stage = .taken

structure Orders (st : Stack) : Prop where
  placed : ∀ i s, st.sk i = some s → Placed st i s
  owner : ∀ i s, st.sk i = some s → s.tcpSt = .listen → s.kind = .tcp ∧ s.stage.Held
  holder : ∀ i s, st.sk i = some s → s.held = true → s.stage.Held
  fresh : ∀ e ∈ st.queued, e.1 < st.nextId ∧ e.2 < st.nextId
  pending : ∀ i s, st.sk i = some s → s.stage = .half → s.id ∉ st.queued.map Prod.snd
  single : (st.queued.map Prod.snd).Nodup
  order : ∀ i l, st.sk i = some l →
    entries st.queued l.id = entries st.taken l.id ++ names st l.acceptQ
  handed : ∀ n, entries st.taken n <+: entries st.queued n

def Unattended (st : Stack) (fd : Fd) : Prop :=
  ∀ i s, st.sk i = some s → s.listenFd = some fd →
    s.stage ≠ .half ∧ s.stage ≠ .queued

structure Steady (st : Stack) (i : Fd) (s s' : Sock) : Prop where
  id : s'.id = s.id
  kind : s'.kind = s.kind
  listenFd : s'.listenFd = s.listenFd
  acceptQ : s'.acceptQ = s.acceptQ
  stage : s'.stage = s.stage
  half : s.tcpSt = .synRcvd → s'.tcpSt = .synRcvd ∨ s.stage ≠ .half
  listens : s.tcpSt = .listen → s'.tcpSt = .listen ∨ Unattended st i
  owner : s'.tcpSt = .listen → s.tcpSt = .listen ∨ s.kind = .tcp ∧ s.stage.Held
  holder : s'.held = true → s.held = true

theorem Steady.refl (i : Fd) (s : Sock) : Steady st i s s :=
  ⟨rfl, rfl, rfl, rfl, rfl, Or.inl, Or.inl, Or.inl, fun held => held⟩

theorem Frame.steady (frame : Frame s s') (i : Fd) : Steady st i s s' where
  id := frame.id
  kind := frame.kind
  listenFd := frame.listenFd
  acceptQ := frame.acceptQ
  stage := frame.stage
  half half := Or.inl (frame.half.2 half)
  listens listens := Or.inl (frame.listens.2 listens)
  owner listens := Or.inl (frame.listens.1 listens)
  holder held := frame.held ▸ held

namespace Orders

section

variable (orders : Orders st)
include orders

theorem attended {lfd : Fd} (there : st.sk fd = some s)
    (under : s.listenFd = some lfd) (waits : s.stage = .half ∨ s.stage = .queued) :
    ∃ l, st.sk lfd = some l ∧ l.tcpSt = .listen := by
  have placed := orders.placed fd s there
  unfold Placed at placed
  rcases waits with stage | stage <;> rw [stage] at placed
  · obtain ⟨-, lfd', l, under', thereL, listens⟩ := placed
    obtain rfl := Option.some.inj (under.symm.trans under')
    exact ⟨l, thereL, listens⟩
  · obtain ⟨lfd', l, under', thereL, listens, -⟩ := placed
    obtain rfl := Option.some.inj (under.symm.trans under')
    exact ⟨l, thereL, listens⟩

theorem of_rows
    (rows : ∀ i s', st'.sk i = some s' → ∃ s, st.sk i = some s ∧ Steady st i s s')
    (under : ∀ i s lfd, (st'.sk i).isSome → st.sk i = some s →
      s.listenFd = some lfd → s.stage = .half ∨ s.stage = .queued →
      (st'.sk lfd).isSome)
    (still : ∀ i l c, (st'.sk i).isSome → st.sk i = some l → c ∈ l.acceptQ →
      (st'.sk c).isSome)
    (ids : st'.nextId = st.nextId) (queued : st'.queued = st.queued)
    (taken : st'.taken = st.taken) : Orders st' where
  placed i s' there' := by
    obtain ⟨s, there, same⟩ := rows i s' there'
    refine (orders.placed i s there).carry same.stage same.listenFd same.id
      (fun stage half => (same.half half).resolve_right fun other => other stage)
      (fun lfd l isUnder waits thereL listens => ?_) (fun _ logged => taken ▸ logged)
    -- the listener of a row that waits is still there and still listens
    obtain ⟨l', thereL'⟩ := Option.isSome_iff_exists.1
      (under i s lfd (there' ▸ rfl) there isUnder waits)
    obtain ⟨l₀, thereL₀, sameL⟩ := rows lfd l' thereL'
    obtain rfl := Option.some.inj (thereL.symm.trans thereL₀)
    refine ⟨l', thereL', ?_, fun queued => sameL.acceptQ ▸ queued⟩
    rcases sameL.listens listens with still | unattended
    · exact still
    · have ⟨notHalf, notQueued⟩ := unattended i s there isUnder
      exact absurd waits (by simp [notHalf, notQueued])
  owner i s' there' listens := by
    obtain ⟨s, there, same⟩ := rows i s' there'
    rw [same.kind, same.stage]
    exact (same.owner listens).elim (orders.owner i s there) fun held => held
  holder i s' there' held := by
    obtain ⟨s, there, same⟩ := rows i s' there'
    rw [same.stage]
    exact orders.holder i s there (same.holder held)
  fresh := by
    rw [queued, ids]
    exact orders.fresh
  pending i s' there' half := by
    obtain ⟨s, there, same⟩ := rows i s' there'
    rw [queued, same.id]
    exact orders.pending i s there (same.stage.symm.trans half)
  single := by
    rw [queued]
    exact orders.single
  order i l' there' := by
    obtain ⟨l, there, same⟩ := rows i l' there'
    rw [queued, taken, same.id, same.acceptQ, orders.order i l there]
    congr 1
    refine (names_congr fun c waits => ?_).symm
    obtain ⟨t', thereT'⟩ := Option.isSome_iff_exists.1
      (still i l c (there' ▸ rfl) there waits)
    obtain ⟨t, thereT, sameT⟩ := rows c t' thereT'
    rw [thereT, thereT', Option.map_some, Option.map_some, sameT.id]
  handed n := by
    rw [queued, taken]
    exact orders.handed n

theorem of_sk (sk : st'.sk = st.sk) (ids : st'.nextId = st.nextId)
    (queued : st'.queued = st.queued) (taken : st'.taken = st.taken) :
    Orders st' where
  placed i s there := by
    rw [sk] at there
    have placed := orders.placed i s there
    unfold Placed at placed ⊢
    rwa [sk, taken]
  owner := by
    rw [sk]
    exact orders.owner
  holder := by
    rw [sk]
    exact orders.holder
  fresh := by
    rw [queued, ids]
    exact orders.fresh
  pending := by
    rw [sk, queued]
    exact orders.pending
  single := by
    rw [queued]
    exact orders.single
  order i l there := by
    rw [sk] at there
    rw [queued, taken, orders.order i l there]
    congr 1
    exact (names_congr fun c _ => by rw [sk]).symm
  handed := by
    rw [queued, taken]
    exact orders.handed

theorem setRow (lines : Lines st) (there : st.sk fd = some s)
    (steady : Steady st fd s s') : Orders (st.setRow fd (some s')) := by
  have still (i : Fd) (t : Sock) (thereT : st.sk i = some t) :
      ((st.setRow fd (some s')).sk i).isSome := by
    rw [Stack.setRow_sk]
    split
    · rfl
    · rw [thereT]
      rfl
  refine orders.of_rows (fun i t there' => ?_) (fun i t lfd _ thereT under waits => ?_)
    (fun i l c _ thereL waits => ?_) rfl rfl rfl
  · obtain ⟨rfl, rfl⟩ | ⟨_, old⟩ := Stack.setRow_old there'
    · exact ⟨s, there, steady⟩
    · exact ⟨t, old, Steady.refl i t⟩
  · obtain ⟨l, thereL, -⟩ := orders.attended thereT under waits
    exact still lfd l thereL
  · obtain ⟨t, thereT, -⟩ := lines.live i l c thereL waits
    exact still c t thereT

theorem drop (lines : Lines st) (outside : Unqueued st fd)
    (unattended : Unattended st fd) : Orders (st.drop fd) := by
  have still (i : Fd) (t : Sock) (differ : i ≠ fd) (thereT : st.sk i = some t) :
      ((st.drop fd).sk i).isSome := by
    rw [Stack.drop, Stack.setRow_sk_of_ne differ, thereT]
    rfl
  refine orders.of_rows (fun i t there' => ?_) (fun i t lfd _ thereT under waits => ?_)
    (fun i l c _ thereL waits => ?_) rfl rfl rfl
  · exact ⟨t, (Stack.drop_old there').2, Steady.refl i t⟩
  · obtain ⟨l, thereL, -⟩ := orders.attended thereT under waits
    refine still lfd l ?_ thereL
    rintro rfl
    obtain ⟨notHalf, notQueued⟩ := unattended i t thereT under
    exact waits.elim notHalf notQueued
  · obtain ⟨t, thereT, -⟩ := lines.live i l c thereL waits
    refine still c t ?_ thereT
    rintro rfl
    exact outside i l thereL waits

theorem unattended
    (deaf : ∀ s, st.sk fd = some s → s.tcpSt ≠ .listen) : Unattended st fd := by
  intro i t there under
  refine ⟨fun half => ?_, fun queued => ?_⟩
  · obtain ⟨l, thereL, listens⟩ := orders.attended there under (Or.inl half)
    exact deaf l thereL listens
  · obtain ⟨l, thereL, listens⟩ := orders.attended there under (Or.inr queued)
    exact deaf l thereL listens

theorem insert (lines : Lines st) (free : st.sk fd = none)
    (named : s.id = st.nextId) (empty : s.acceptQ = []) (deaf : s.tcpSt ≠ .listen)
    (placed : Placed st fd s) (holder : s.held = true → s.stage.Held) :
    Orders (({ st with nextId := st.nextId + 1 }).setRow fd (some s)) where
  placed i t there' := by
    have carried (t : Sock) (placed : Placed st i t) :
        Placed (({ st with nextId := st.nextId + 1 }).setRow fd (some s)) i t := by
      refine placed.carry rfl rfl rfl (fun _ half => half)
        (fun lfd l _ _ thereL listens => ?_) (List.Subset.refl _)
      have differ : lfd ≠ fd := by
        rintro rfl
        exact absurd (free.symm.trans thereL) nofun
      exact ⟨l, (Stack.setRow_sk_of_ne differ _).trans thereL, listens, id⟩
    obtain ⟨rfl, rfl⟩ | ⟨_, old⟩ := Stack.setRow_old there'
    · exact carried t placed
    · exact carried t (orders.placed i t old)
  owner i t there' listens := by
    obtain ⟨rfl, rfl⟩ | ⟨_, old⟩ := Stack.setRow_old there'
    · exact absurd listens deaf
    · exact orders.owner i t old listens
  holder i t there' held := by
    obtain ⟨rfl, rfl⟩ | ⟨_, old⟩ := Stack.setRow_old there'
    · exact holder held
    · exact orders.holder i t old held
  fresh e member := by
    have ⟨first, second⟩ := orders.fresh e member
    exact ⟨Nat.lt_succ_of_lt first, Nat.lt_succ_of_lt second⟩
  pending i t there' half := by
    obtain ⟨rfl, rfl⟩ | ⟨_, old⟩ := Stack.setRow_old there'
    · intro member
      obtain ⟨e, logged, same⟩ := List.mem_map.1 member
      have known := (orders.fresh e logged).2
      rw [same, named] at known
      exact absurd known (Nat.lt_irrefl _)
    · exact orders.pending i t old half
  single := orders.single
  order i l there' := by
    obtain ⟨rfl, rfl⟩ | ⟨_, old⟩ := Stack.setRow_old there'
    · -- no log knows a row that is not there yet
      have queued : entries st.queued l.id = [] := by
        refine entries_eq_nil fun e logged same => ?_
        have known := (orders.fresh e logged).1
        rw [same, named] at known
        exact absurd known (Nat.lt_irrefl _)
      have taken : entries st.taken l.id = [] := by
        have handed := orders.handed l.id
        rw [queued] at handed
        exact List.prefix_nil.1 handed
      show entries st.queued l.id = entries st.taken l.id ++ _
      rw [queued, taken, empty]
      rfl
    · show entries st.queued l.id = entries st.taken l.id ++ _
      rw [orders.order i l old]
      congr 1
      refine (names_congr fun c waits => ?_).symm
      obtain ⟨t, thereT, -⟩ := lines.live i l c old waits
      have differ : c ≠ fd := by
        rintro rfl
        exact absurd (free.symm.trans thereT) nofun
      exact congrArg _ (Stack.setRow_sk_of_ne differ _)
  handed := orders.handed

theorem turn (there : st.sk fd = some s)
    (id : s'.id = s.id) (acceptQ : s'.acceptQ = s.acceptQ)
    (deaf : s.tcpSt ≠ .listen) (deaf' : s'.tcpSt ≠ .listen) (notHalf : s'.stage ≠ .half)
    (placed : Placed st fd s') (holder : s'.held = true → s'.stage.Held) :
    Orders (st.setRow fd (some s')) where
  placed i t there' := by
    have carried (t : Sock) (placed : Placed st i t) :
        Placed (st.setRow fd (some s')) i t := by
      refine placed.carry rfl rfl rfl (fun _ half => half)
        (fun lfd l _ _ thereL listens => ?_) (List.Subset.refl _)
      have differ : lfd ≠ fd := by
        rintro rfl
        obtain rfl := Option.some.inj (there.symm.trans thereL)
        exact deaf listens
      exact ⟨l, (Stack.setRow_sk_of_ne differ _).trans thereL, listens, fun waits => waits⟩
    obtain ⟨rfl, rfl⟩ | ⟨_, old⟩ := Stack.setRow_old there'
    · exact carried t placed
    · exact carried t (orders.placed i t old)
  owner i t there' listens := by
    obtain ⟨rfl, rfl⟩ | ⟨_, old⟩ := Stack.setRow_old there'
    · exact absurd listens deaf'
    · exact orders.owner i t old listens
  holder i t there' held := by
    obtain ⟨rfl, rfl⟩ | ⟨_, old⟩ := Stack.setRow_old there'
    · exact holder held
    · exact orders.holder i t old held
  fresh := orders.fresh
  pending i t there' half := by
    obtain ⟨rfl, rfl⟩ | ⟨_, old⟩ := Stack.setRow_old there'
    · exact absurd half notHalf
    · exact orders.pending i t old half
  single := orders.single
  order i l there' := by
    have same (queue : List Fd) : names (st.setRow fd (some s')) queue = names st queue := by
      refine names_congr fun c _ => ?_
      by_cases here : c = fd
      · subst here
        rw [Stack.setRow_sk_same, there, Option.map_some, Option.map_some, id]
      · rw [Stack.setRow_sk_of_ne here]
    rw [same]
    obtain ⟨rfl, rfl⟩ | ⟨_, old⟩ := Stack.setRow_old there'
    · rw [id, acceptQ]
      exact orders.order i s there
    · exact orders.order i l old
  handed := orders.handed

end

end Orders

/-- A row that completed its handshake joins the queue of its listener, and the
log. -/
def Stack.completed (fd lfd : Fd) (s l : Sock) (st : Stack) : Stack :=
  ({ st with queued := st.queued ++ [(l.id, s.id)] }).setRow fd
    (some (s.complete .queued)) |>.setRow lfd (some (l.enqueue fd))

section Completed

variable {lfd : Fd} {l : Sock}

theorem completed_old {i : Fd} {t : Sock}
    (there : (st.completed fd lfd s l).sk i = some t) :
    i = lfd ∧ t = l.enqueue fd ∨ i = fd ∧ t = s.complete .queued ∨
      i ≠ lfd ∧ i ≠ fd ∧ st.sk i = some t := by
  obtain same | ⟨other, there⟩ := Stack.setRow_old there
  · exact Or.inl same
  · obtain same | ⟨other', old⟩ := Stack.setRow_old there
    · exact Or.inr (Or.inl same)
    · exact Or.inr (Or.inr ⟨other, other', old⟩)

theorem completed_name (there : st.sk fd = some s) (listener : st.sk lfd = some l)
    (i : Fd) :
    ((st.completed fd lfd s l).sk i).map Sock.id = (st.sk i).map Sock.id := by
  unfold Stack.completed
  by_cases same : i = lfd
  · subst same
    rw [Stack.setRow_sk_same, listener]
    rfl
  · rw [Stack.setRow_sk_of_ne same]
    by_cases here : i = fd
    · subst here
      rw [Stack.setRow_sk_same, there]
      rfl
    · rw [Stack.setRow_sk_of_ne here]

theorem Orders.completed (orders : Orders st) (lines : Lines st) (table : Table st)
    (there : st.sk fd = some s) (half : s.tcpSt = .synRcvd)
    (under : s.listenFd = some lfd) (listener : st.sk lfd = some l) :
    Orders (st.completed fd lfd s l) := by
  have stage := (lines.half fd s there half).2
  have differ : fd ≠ lfd := by
    rintro rfl
    exact lines.other fd s there under
  have listens : l.tcpSt = .listen := by
    obtain ⟨l', there', listens⟩ := orders.attended there under (Or.inl stage)
    obtain rfl := Option.some.inj (listener.symm.trans there')
    exact listens
  have atListener : (st.completed fd lfd s l).sk lfd = some (l.enqueue fd) :=
    Stack.setRow_sk_same _
  have carried (i : Fd) (t t' : Sock) (placed : Placed st i t) (stage : t'.stage = t.stage)
      (listenFd : t'.listenFd = t.listenFd) (id : t'.id = t.id)
      (state : t'.tcpSt = t.tcpSt) : Placed (st.completed fd lfd s l) i t' := by
    refine placed.carry stage listenFd id (fun _ half => state.trans half)
      (fun j m _ _ thereM isListening => ?_) (List.Subset.refl _)
    by_cases same : j = lfd
    · subst same
      obtain rfl := Option.some.inj (listener.symm.trans thereM)
      exact ⟨_, atListener, listens, fun waits => List.mem_append_left _ waits⟩
    · have other : j ≠ fd := by
        rintro rfl
        obtain rfl := Option.some.inj (there.symm.trans thereM)
        rw [half] at isListening
        exact absurd isListening nofun
      refine ⟨m, ?_, isListening, fun waits => waits⟩
      exact (Stack.setRow_sk_of_ne same _).trans
        ((Stack.setRow_sk_of_ne other _).trans thereM)
  have unlogged : s.id ∉ st.queued.map Prod.snd := orders.pending fd s there stage
  constructor
  case placed =>
    intro i t there'
    obtain ⟨rfl, rfl⟩ | ⟨rfl, rfl⟩ | ⟨_, _, old⟩ := completed_old there'
    · exact carried i l _ (orders.placed i l listener) rfl rfl rfl rfl
    · exact ⟨lfd, _, under, atListener, listens,
        List.mem_append_right _ (List.mem_singleton.2 rfl)⟩
    · exact carried i t t (orders.placed i t old) rfl rfl rfl rfl
  case owner =>
    intro i t there' isListening
    obtain ⟨rfl, rfl⟩ | ⟨rfl, rfl⟩ | ⟨_, _, old⟩ := completed_old there'
    · exact orders.owner i l listener isListening
    · exact absurd isListening nofun
    · exact orders.owner i t old isListening
  case holder =>
    intro i t there' held
    obtain ⟨rfl, rfl⟩ | ⟨rfl, rfl⟩ | ⟨_, _, old⟩ := completed_old there'
    · exact orders.holder i l listener held
    · -- nobody has a row whose handshake is under way
      have holds := orders.holder i s there held
      rw [stage] at holds
      exact absurd holds (by simp [Stage.Held])
    · exact orders.holder i t old held
  case fresh =>
    intro e logged
    rcases List.mem_append.1 logged with before | last
    · exact orders.fresh e before
    · rw [List.mem_singleton.1 last]
      exact ⟨table.named lfd l listener, table.named fd s there⟩
  case pending =>
    intro i t there' isHalf member
    obtain ⟨other, old⟩ : i ≠ fd ∧ ∃ t₀, st.sk i = some t₀ ∧ t₀.id = t.id ∧
        t₀.stage = .half := by
      obtain ⟨rfl, rfl⟩ | ⟨rfl, rfl⟩ | ⟨_, other, old⟩ := completed_old there'
      · exact ⟨differ.symm, l, listener, rfl, isHalf⟩
      · exact absurd isHalf nofun
      · exact ⟨other, t, old, rfl, isHalf⟩
    obtain ⟨t₀, old, id, wasHalf⟩ := old
    obtain ⟨e, logged, same⟩ := List.mem_map.1 member
    rcases List.mem_append.1 logged with before | last
    · refine orders.pending i t₀ old wasHalf (List.mem_map.2 ⟨e, before, ?_⟩)
      exact same.trans id.symm
    · rw [List.mem_singleton.1 last] at same
      exact other (table.apart i fd t₀ s old there (id.trans same.symm))
  case single =>
    show ((st.queued ++ [(l.id, s.id)]).map Prod.snd).Nodup
    rw [List.map_append, List.nodup_append]
    refine ⟨orders.single, by simp, fun id before id' last => ?_⟩
    obtain rfl : id' = s.id := by simpa using last
    rintro rfl
    exact unlogged before
  case order =>
    intro i m there'
    have named (queue : List Fd) :
        names (st.completed fd lfd s l) queue = names st queue :=
      names_congr fun c _ => completed_name there listener c
    show entries (st.queued ++ [(l.id, s.id)]) m.id = entries st.taken m.id ++ _
    rw [entries_append, named]
    obtain ⟨rfl, rfl⟩ | ⟨other, old⟩ : i = lfd ∧ m = l.enqueue fd ∨
        i ≠ lfd ∧ ∃ m₀, st.sk i = some m₀ ∧ m.id = m₀.id ∧ m.acceptQ = m₀.acceptQ := by
      obtain same | ⟨rfl, rfl⟩ | ⟨other, _, old⟩ := completed_old there'
      · exact Or.inl same
      · exact Or.inr ⟨differ, s, there, rfl, rfl⟩
      · exact Or.inr ⟨other, m, old, rfl, rfl⟩
    · show entries st.queued l.id ++ entries [(l.id, s.id)] l.id =
        entries st.taken l.id ++ names st (l.acceptQ ++ [fd])
      rw [orders.order i l listener, entries_same, names_append, List.append_assoc]
      simp [names, there]
    · obtain ⟨m₀, old, id, queue⟩ := old
      have apart : l.id ≠ m.id := by
        intro same
        exact other (table.apart i lfd m₀ l old listener (id.symm.trans same.symm))
      rw [entries_other apart, List.append_nil, id, queue, orders.order i m₀ old]
  case handed =>
    intro n
    show entries st.taken n <+: entries (st.queued ++ [(l.id, s.id)]) n
    rw [entries_append]
    exact (orders.handed n).trans (List.prefix_append _ _)

end Completed

theorem Orders.deaf (orders : Orders st) (there : st.sk fd = some s)
    (stage : ¬ s.stage.Held) : s.tcpSt ≠ .listen :=
  fun listens => stage (orders.owner fd s there listens).2

theorem Orders.release (orders : Orders st) (lines : Lines st)
    (stage : ∀ s, st.sk fd = some s → ¬ s.stage.Held ∧ s.stage ≠ .queued) :
    Orders (st.drop fd) :=
  orders.drop lines (lines.unqueued fun s there => (stage s there).2)
    (orders.unattended fun s there => orders.deaf there (stage s there).1)

theorem Orders.refused (orders : Orders st) (lines : Lines st)
    (there : st.sk fd = some s) (half : s.tcpSt = .synRcvd) :
    Orders (st.setRow fd (some (s.complete .refused))) := by
  refine orders.turn there rfl rfl ?_ nofun nofun trivial fun held => ?_
  · rw [half]
    exact nofun
  · have holds := orders.holder fd s there held
    rw [(lines.half fd s there half).2] at holds
    exact absurd holds (by simp [Stage.Held])

theorem Steps.orders (steps : Steps w st st') (sound : Sound w st) (lines : Lines st)
    (orders : Orders st) : Orders st' := by
  induction steps with
  | refl => exact orders
  | trans first _ ih₁ ih₂ =>
      exact ih₂ (first.sound sound) (first.lines sound lines)
        (ih₁ sound lines orders)
  | fault | deep | via | grow | spend | sent => exact orders.of_sk rfl rfl rfl rfl
  | change there change => exact orders.setRow lines there (change.frame.steady _)
  | release there gone =>
      refine orders.release lines fun t there' => ?_
      obtain rfl := Option.some.inj (there.symm.trans there')
      rcases lines.released there gone with stage | stage <;> rw [stage] <;>
        exact ⟨by simp [Stage.Held], nofun⟩
  | finished there sent =>
      refine orders.release lines fun t there' => ?_
      obtain rfl := Option.some.inj (there.symm.trans there')
      rw [lines.closed _ _ there (Or.inr sent)]
      exact ⟨by simp [Stage.Held], nofun⟩
  | @child st lfd fd l caps seg there kind listens admits syn notAck port free =>
      exact orders.insert lines free rfl rfl nofun
        ⟨rfl, lfd, l, rfl, there, listens⟩ nofun
  | @queue st lfd fd s l seg there _ _ half under listener =>
      have differ : lfd ≠ fd := by
        rintro rfl
        exact lines.other lfd s there under
      exact orders.completed lines sound.table there half under
        ((Stack.setRow_sk_of_ne differ _).symm.trans listener)
  | @orphan st fd s seg there _ _ half alone =>
      -- the listener of a handshake under way is there
      have stage := (lines.half fd s there half).2
      have placed := orders.placed fd s there
      unfold Placed at placed
      rw [stage] at placed
      obtain ⟨-, lfd, l, under, thereL, -⟩ := placed
      exact absurd ((alone lfd under).symm.trans thereL) nofun
  | refuse seg there _ _ half _ _ _ reset old ih =>
      have completed := sound.complete .refused there
      have linesC := lines.complete there half .refused
      have orders' := ih completed linesC (orders.refused lines there half)
      refine orders'.release (reset.lines completed linesC) fun t there' => ?_
      rw [reset.refusing old completed.table there']
      exact ⟨by simp [Stage.Held], nofun⟩

theorem Steps.clean (steps : Steps w st st')
    (clean : ∀ i s, st.sk i = some s → s.stage ≠ .refused) :
    ∀ i s, st'.sk i = some s → s.stage ≠ .refused := by
  have only : ∀ i s', st'.sk i = some s' → s'.stage = .refused →
      ∃ s, st.sk i = some s ∧ s.stage = .refused := by
    clear clean
    induction steps with
    | refl => exact fun i s there refused => ⟨s, there, refused⟩
    | trans _ _ first second =>
        intro i s there refused
        obtain ⟨t, there, refused⟩ := second i s there refused
        exact first i t there refused
    | change there change =>
        intro i t there' refused
        obtain ⟨rfl, rfl⟩ | ⟨_, old⟩ := Stack.setRow_old there'
        · exact ⟨_, there, change.frame.stage.symm.trans refused⟩
        · exact ⟨t, old, refused⟩
    | release
    | finished => exact fun i s there refused => ⟨s, (Stack.drop_old there).2, refused⟩
    | child =>
        intro i t there' refused
        obtain ⟨rfl, rfl⟩ | ⟨_, old⟩ := Stack.setRow_old there'
        · exact absurd refused nofun
        · exact ⟨t, old, refused⟩
    | queue seg there _ _ _ _ listener =>
        intro i t there' refused
        obtain ⟨rfl, rfl⟩ | ⟨_, old⟩ := Stack.setRow_old there'
        · obtain ⟨rfl, rfl⟩ | ⟨_, old⟩ := Stack.setRow_old listener
          · exact absurd refused nofun
          · exact ⟨_, old, refused⟩
        · obtain ⟨rfl, rfl⟩ | ⟨_, old⟩ := Stack.setRow_old old
          · exact absurd refused nofun
          · exact ⟨t, old, refused⟩
    | orphan =>
        intro i t there' refused
        obtain ⟨rfl, rfl⟩ | ⟨_, old⟩ := Stack.setRow_old there'
        · exact absurd refused nofun
        · exact ⟨t, old, refused⟩
    | refuse _ _ _ _ _ _ _ _ _ _ reset =>
        intro i t there' refused
        obtain ⟨differ, there'⟩ := Stack.drop_old there'
        obtain ⟨u, there', refused⟩ := reset i t there' refused
        obtain ⟨same, -⟩ | ⟨_, old⟩ := Stack.setRow_old there'
        · exact absurd same differ
        · exact ⟨u, old, refused⟩
    | _ => exact fun i s there refused => ⟨s, there, refused⟩
  intro i s there refused
  obtain ⟨t, old, refused⟩ := only i s there refused
  exact clean i t old refused

end Metal.Net.Ip
