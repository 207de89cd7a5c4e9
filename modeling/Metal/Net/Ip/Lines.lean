import Metal.Net.Ip.Acts

namespace Metal.Net.Ip

open Metal.Lib

/-! The queues of the listeners. -/

variable {w : World} {st st' : Stack} {fd : Fd} {s s' : Sock}

/-- What holds of the queues and the rows whatever the application does, as long
as it does not close a row that still waits in a queue. -/
structure Lines (st : Stack) : Prop where
  closed : ∀ i s, st.sk i = some s → s.appClosed = true ∨ s.finSent = true →
    s.stage = .left
  half : ∀ i s, st.sk i = some s → s.tcpSt = .synRcvd →
    s.kind = .tcp ∧ s.stage = .half
  other : ∀ i s, st.sk i = some s → s.listenFd ≠ some i
  live : ∀ i l c, st.sk i = some l → c ∈ l.acceptQ →
    ∃ s, st.sk c = some s ∧ s.kind = .tcp ∧ s.listenFd = some i ∧ s.stage = .queued
  once : ∀ i l, st.sk i = some l → l.acceptQ.Nodup

def Unqueued (st : Stack) (fd : Fd) : Prop :=
  ∀ i l, st.sk i = some l → fd ∉ l.acceptQ

structure Stands (s s' : Sock) : Prop where
  id : s'.id = s.id
  kind : s'.kind = s.kind
  listenFd : s'.listenFd = s.listenFd
  acceptQ : s'.acceptQ = s.acceptQ
  stage : s'.stage = s.stage
  half : s'.tcpSt = .synRcvd → s.tcpSt = .synRcvd
  closed : s'.appClosed = true ∨ s'.finSent = true →
    s.appClosed = true ∨ s.finSent = true ∨ s.stage = .left

theorem Stands.refl (s : Sock) : Stands s s :=
  ⟨rfl, rfl, rfl, rfl, rfl, fun half => half,
    fun closed => closed.imp_right Or.inl⟩

theorem Frame.stands (frame : Frame s s') : Stands s s' where
  id := frame.id
  kind := frame.kind
  listenFd := frame.listenFd
  acceptQ := frame.acceptQ
  stage := frame.stage
  half := frame.half.1
  closed := by
    rintro (closed | sent)
    · exact (frame.letGo closed).imp_right Or.inr
    · rcases frame.finSent sent with before | closed | left
      · exact Or.inr (Or.inl before)
      · exact Or.inl closed
      · exact Or.inr (Or.inr left)

namespace Lines

section

variable (lines : Lines st)
include lines

theorem of_sk (sk : st'.sk = st.sk) : Lines st' := by
  constructor <;> rw [sk]
  · exact lines.closed
  · exact lines.half
  · exact lines.other
  · exact lines.live
  · exact lines.once

theorem of_stands
    (stands : ∀ i s', st'.sk i = some s' → ∃ s, st.sk i = some s ∧ Stands s s')
    (still : ∀ i l c, (st'.sk i).isSome → st.sk i = some l → c ∈ l.acceptQ →
      (st'.sk c).isSome) : Lines st' where
  closed i s' there' closing := by
    obtain ⟨s, there, same⟩ := stands i s' there'
    rw [same.stage]
    rcases same.closed closing with closed | sent | left
    · exact lines.closed i s there (Or.inl closed)
    · exact lines.closed i s there (Or.inr sent)
    · exact left
  half i s' there' half := by
    obtain ⟨s, there, same⟩ := stands i s' there'
    rw [same.kind, same.stage]
    exact lines.half i s there (same.half half)
  other i s' there' := by
    obtain ⟨s, there, same⟩ := stands i s' there'
    rw [same.listenFd]
    exact lines.other i s there
  live i l' c there' waits := by
    obtain ⟨l, there, same⟩ := stands i l' there'
    rw [same.acceptQ] at waits
    obtain ⟨s, thereS, kind, under, stage⟩ := lines.live i l c there waits
    obtain ⟨s', thereS'⟩ := Option.isSome_iff_exists.1
      (still i l c (there' ▸ rfl) there waits)
    obtain ⟨t, thereT, sameT⟩ := stands c s' thereS'
    obtain rfl := Option.some.inj (thereS.symm.trans thereT)
    exact ⟨s', thereS', sameT.kind.trans kind, sameT.listenFd.trans under,
      sameT.stage.trans stage⟩
  once i l' there' := by
    obtain ⟨l, there, same⟩ := stands i l' there'
    rw [same.acceptQ]
    exact lines.once i l there

theorem unqueued
    (outside : ∀ s, st.sk fd = some s → s.stage ≠ .queued) : Unqueued st fd := by
  intro i l there waits
  obtain ⟨s, thereS, -, -, queued⟩ := lines.live i l fd there waits
  exact outside s thereS queued

theorem released (there : st.sk fd = some s)
    (gone : s.appClosed = true ∨ s.tcpSt = .synRcvd) : s.stage = .left ∨ s.stage = .half :=
  gone.imp (fun closed => lines.closed fd s there (Or.inl closed))
    fun half => (lines.half fd s there half).2

theorem setRow (there : st.sk fd = some s)
    (stands : Stands s s') : Lines (st.setRow fd (some s')) := by
  refine lines.of_stands (fun i t there' => ?_) fun i l c _ thereL waits => ?_
  · obtain ⟨rfl, rfl⟩ | ⟨_, old⟩ := Stack.setRow_old there'
    · exact ⟨s, there, stands⟩
    · exact ⟨t, old, Stands.refl t⟩
  · obtain ⟨t, thereT, -⟩ := lines.live i l c thereL waits
    rw [Stack.setRow_sk]
    split
    · rfl
    · rw [thereT]
      rfl

theorem drop (outside : Unqueued st fd) : Lines (st.drop fd) := by
  refine lines.of_stands (fun i t there' => ?_) fun i l c _ thereL waits => ?_
  · exact ⟨t, (Stack.drop_old there').2, Stands.refl t⟩
  · obtain ⟨t, thereT, -⟩ := lines.live i l c thereL waits
    have differ : c ≠ fd := by
      rintro rfl
      exact outside i l thereL waits
    rw [Stack.drop, Stack.setRow_sk_of_ne differ, thereT]
    rfl

/-- A row that waits in no queue is put in its slot, with a queue that was there
before. -/
theorem put (outside : Unqueued st fd)
    (closed : s'.appClosed = true ∨ s'.finSent = true → s'.stage = .left)
    (half : s'.tcpSt = .synRcvd → s'.kind = .tcp ∧ s'.stage = .half)
    (other : s'.listenFd ≠ some fd)
    (queue : s'.acceptQ = [] ∨ ∃ s, st.sk fd = some s ∧ s'.acceptQ = s.acceptQ) :
    Lines (st.setRow fd (some s')) where
  closed i t there' closing := by
    obtain ⟨rfl, rfl⟩ | ⟨_, old⟩ := Stack.setRow_old there'
    · exact closed closing
    · exact lines.closed i t old closing
  half i t there' isHalf := by
    obtain ⟨rfl, rfl⟩ | ⟨_, old⟩ := Stack.setRow_old there'
    · exact half isHalf
    · exact lines.half i t old isHalf
  other i t there' := by
    obtain ⟨rfl, rfl⟩ | ⟨_, old⟩ := Stack.setRow_old there'
    · exact other
    · exact lines.other i t old
  live i l c there' waits := by
    obtain ⟨l₀, thereL, waits₀⟩ : ∃ l₀, st.sk i = some l₀ ∧ c ∈ l₀.acceptQ := by
      obtain ⟨rfl, rfl⟩ | ⟨_, old⟩ := Stack.setRow_old there'
      · rcases queue with empty | ⟨s, there, same⟩
        · rw [empty] at waits
          exact absurd waits List.not_mem_nil
        · exact ⟨s, there, same ▸ waits⟩
      · exact ⟨l, old, waits⟩
    obtain ⟨t, thereT, rest⟩ := lines.live i l₀ c thereL waits₀
    have differ : c ≠ fd := by
      rintro rfl
      exact outside i l₀ thereL waits₀
    exact ⟨t, (Stack.setRow_sk_of_ne differ _).trans thereT, rest⟩
  once i l there' := by
    obtain ⟨rfl, rfl⟩ | ⟨_, old⟩ := Stack.setRow_old there'
    · rcases queue with empty | ⟨s, there, same⟩
      · rw [empty]
        exact List.nodup_nil
      · rw [same]
        exact lines.once i s there
    · exact lines.once i l old

theorem complete (there : st.sk fd = some s) (half : s.tcpSt = .synRcvd) (stage : Stage) :
    Lines (st.setRow fd (some (s.complete stage))) := by
  have waits := (lines.half fd s there half).2
  have outside : Unqueued st fd := by
    refine lines.unqueued fun t there' => ?_
    obtain rfl := Option.some.inj (there.symm.trans there')
    rw [waits]
    exact nofun
  refine lines.put outside (fun closing => ?_) nofun (lines.other fd s there)
    (Or.inr ⟨s, there, rfl⟩)
  · -- a row whose handshake is under way was not closed
    have left := lines.closed fd s there closing
    rw [waits] at left
    exact absurd left nofun

theorem enqueue {lfd : Fd} {l : Sock}
    (listener : st.sk lfd = some l) (there : st.sk fd = some s)
    (kind : s.kind = .tcp) (under : s.listenFd = some lfd)
    (stage : s.stage = .queued) (outside : fd ∉ l.acceptQ) :
    Lines (st.setRow lfd (some (l.enqueue fd))) where
  closed i t there' closing := by
    obtain ⟨rfl, rfl⟩ | ⟨_, old⟩ := Stack.setRow_old there'
    · exact lines.closed i l listener closing
    · exact lines.closed i t old closing
  half i t there' half := by
    obtain ⟨rfl, rfl⟩ | ⟨_, old⟩ := Stack.setRow_old there'
    · exact lines.half i l listener half
    · exact lines.half i t old half
  other i t there' := by
    obtain ⟨rfl, rfl⟩ | ⟨_, old⟩ := Stack.setRow_old there'
    · exact lines.other i l listener
    · exact lines.other i t old
  live i t c there' waits := by
    obtain ⟨t₀, there₀, new⟩ : ∃ t₀, st.sk i = some t₀ ∧
        (c ∈ t₀.acceptQ ∨ i = lfd ∧ c = fd) := by
      obtain ⟨rfl, rfl⟩ | ⟨_, old⟩ := Stack.setRow_old there'
      · rcases List.mem_append.1 waits with before | last
        · exact ⟨l, listener, Or.inl before⟩
        · exact ⟨l, listener, Or.inr ⟨rfl, List.mem_singleton.1 last⟩⟩
      · exact ⟨t, old, Or.inl waits⟩
    obtain ⟨u, thereU, rest⟩ : ∃ u, st.sk c = some u ∧ u.kind = .tcp ∧
        u.listenFd = some i ∧ u.stage = .queued := by
      rcases new with before | ⟨rfl, rfl⟩
      · exact lines.live i t₀ c there₀ before
      · exact ⟨s, there, kind, under, stage⟩
    by_cases same : c = lfd
    · subst same
      obtain rfl := Option.some.inj (listener.symm.trans thereU)
      exact ⟨l.enqueue fd, Stack.setRow_sk_same _, rest⟩
    · exact ⟨u, (Stack.setRow_sk_of_ne same _).trans thereU, rest⟩
  once i t there' := by
    obtain ⟨rfl, rfl⟩ | ⟨_, old⟩ := Stack.setRow_old there'
    · refine List.nodup_append.2 ⟨lines.once i l listener, by simp, ?_⟩
      intro c before d last
      rw [List.mem_singleton.1 last]
      rintro rfl
      exact outside before
    · exact lines.once i t old

end

end Lines

theorem Steps.refused (steps : Steps w st st') :
    Descends (fun s s' => s.tcpSt ≠ .synRcvd ∧ s.stage = .refused →
      s'.tcpSt ≠ .synRcvd ∧ s'.stage = .refused) st st' := by
  refine steps.descends ?_ ?_ ?_ ?_ ?_
  · exact fun _ refused => refused
  · exact fun _ _ _ first second refused => second (first refused)
  · intro s s' change refused
    have frame := change.frame
    exact ⟨fun half => refused.1 (frame.half.1 half), frame.stage.trans refused.2⟩
  · exact fun _ _ half refused => absurd half refused.1
  · exact fun _ _ refused => refused

theorem Steps.refusing (steps : Steps w (st.setRow fd (some (s.complete .refused))) st')
    (old : Carries (st.setRow fd (some (s.complete .refused))) st')
    (table : Table (st.setRow fd (some (s.complete .refused))))
    {t : Sock} (there : st'.sk fd = some t) : t.stage = .refused := by
  obtain ⟨s₁, there₁, id, -⟩ := old fd t there
  have same := Option.some.inj ((Stack.setRow_sk_same _).symm.trans there₁)
  have known := table.named fd s₁ there₁
  obtain ⟨s₂, there₂, -, kept⟩ := steps.refused.rows fd t there (id ▸ known)
  obtain rfl := Option.some.inj (there₁.symm.trans there₂)
  refine (kept ?_).2
  rw [← same]
  exact ⟨nofun, rfl⟩

theorem Steps.lines (steps : Steps w st st') (sound : Sound w st)
    (lines : Lines st) : Lines st' := by
  induction steps with
  | refl => exact lines
  | trans first _ ih₁ ih₂ =>
      exact ih₂ (first.sound sound) (ih₁ sound lines)
  | fault | deep | via | grow | spend | sent => exact lines.of_sk rfl
  | change there change => exact lines.setRow there change.frame.stands
  | release there gone =>
      refine lines.drop (lines.unqueued fun t there' => ?_)
      obtain rfl := Option.some.inj (there.symm.trans there')
      rcases lines.released there gone with stage | stage <;> rw [stage] <;>
        simp
  | finished there sent =>
      refine lines.drop (lines.unqueued fun t there' => ?_)
      obtain rfl := Option.some.inj (there.symm.trans there')
      rw [lines.closed _ _ there (Or.inr sent)]
      simp
  | @child st lfd fd l caps seg there kind listens admits syn notAck port free room
      single =>
      have other : lfd ≠ fd := by
        rintro rfl
        cases free.symm.trans there
      have named : Lines { st with nextId := st.nextId + 1 } := lines.of_sk rfl
      refine named.put (named.unqueued fun t there' => ?_) ?_ ?_ ?_ (Or.inl rfl)
      · cases free.symm.trans there'
      · exact fun closing => absurd closing (by simp [Sock.child, Sock.new])
      · exact fun _ => ⟨rfl, rfl⟩
      · exact fun same => other (Option.some.inj same)
  | @queue st lfd fd s l seg there admits ack half under listener space =>
      obtain ⟨kind, stage⟩ := lines.half fd s there half
      have differ : lfd ≠ fd := by
        rintro rfl
        exact lines.other lfd s there under
      have outside : fd ∉ l.acceptQ := by
        intro waits
        obtain ⟨t, there', -, -, queued⟩ := lines.live lfd l fd
          ((Stack.setRow_sk_of_ne differ _).symm.trans listener) waits
        obtain rfl := Option.some.inj (there.symm.trans there')
        rw [stage] at queued
        cases queued
      have completed := lines.complete there half .queued
      exact Lines.of_sk (completed.enqueue listener (Stack.setRow_sk_same _) kind
        under rfl outside) rfl
  | orphan seg there _ _ half => exact lines.complete there half .orphan
  | refuse seg there _ _ half _ _ _ reset old ih =>
      have completed := sound.complete .refused there
      have lines' := ih completed (lines.complete there half .refused)
      refine lines'.drop (lines'.unqueued fun t there' => ?_)
      rw [reset.refusing old completed.table there']
      simp

namespace Lines

theorem letGo (lines : Lines st) (there : st.sk fd = some s)
    (notHalf : s.tcpSt ≠ .synRcvd) (outside : Unqueued st fd) :
    Lines (st.letGo fd s) := by
  have forgotten : Lines
      { st with handed := st.handed.filter fun h => h.1 ≠ fd } := lines.of_sk rfl
  exact forgotten.put outside (fun _ => rfl) (fun half => absurd half notHalf)
    (lines.other fd s there) (Or.inr ⟨s, there, rfl⟩)

/-- A listener that goes takes along the rows that wait in its queue and no
others. -/
theorem dropped (lines : Lines st) (outside : Unqueued st fd) :
    Lines ((st.unheld fd s).drop fd) := by
  have old (i : Fd) (t : Sock) (there' : ((st.unheld fd s).drop fd).sk i = some t) :
      i ≠ fd ∧ st.sk i = some t := by
    obtain ⟨differ, there'⟩ := Stack.drop_old there'
    refine ⟨differ, ?_⟩
    rcases unheld_old i t there' with ⟨same, -⟩ | ⟨-, there⟩
    · exact absurd same differ
    · exact there
  refine lines.of_stands (fun i t there' => ?_) fun i l c thereI thereL waits => ?_
  · exact ⟨t, (old i t there').2, Stands.refl t⟩
  · obtain ⟨t, thereT, -, under, -⟩ := lines.live i l c thereL waits
    obtain ⟨t', there'⟩ := Option.isSome_iff_exists.1 thereI
    have differ : c ≠ fd := by
      rintro rfl
      exact outside i l thereL waits
    have notOurs : t.listenFd ≠ some fd := by
      rw [under]
      exact fun same => (old i t' there').1 (Option.some.inj same)
    rw [Stack.drop, Stack.setRow_sk_of_ne differ, unheld_kept differ thereT notOurs]
    rfl

end Lines

/-- What `listen` leaves of a row. -/
structure Relisten (fd : Fd) (queue : List Fd) (i : Fd) (s s' : Sock) : Prop where
  id : s'.id = s.id
  kind : s'.kind = s.kind
  listenFd : s'.listenFd = s.listenFd
  appClosed : s'.appClosed = s.appClosed
  finSent : s'.finSent = s.finSent
  half : s'.tcpSt = .synRcvd → s.tcpSt = .synRcvd
  stage : i ∉ queue → s'.stage = s.stage
  waits : ∀ {c}, c ∈ s'.acceptQ → i ≠ fd ∧ c ∈ s.acceptQ
  once : s.acceptQ.Nodup → s'.acceptQ.Nodup

theorem listened_old {queue : List Fd} {cap : Nat} {i : Fd}
    (there : (st.listened fd queue cap).sk i = some s') :
    ∃ s, st.sk i = some s ∧ Relisten fd queue i s s' := by
  obtain ⟨s, old, rfl⟩ := Option.map_eq_some_iff.1 there
  refine ⟨s, old, ?_⟩
  dsimp only
  by_cases here : i = fd
  · rw [if_pos here]
    split
    · rename_i waits
      exact ⟨rfl, rfl, rfl, rfl, rfl, nofun, fun outside => absurd waits outside,
        nofun, fun _ => List.nodup_nil⟩
    · exact ⟨rfl, rfl, rfl, rfl, rfl, nofun, fun _ => rfl, nofun,
        fun _ => List.nodup_nil⟩
  · rw [if_neg here]
    split
    · rename_i waits
      exact ⟨rfl, rfl, rfl, rfl, rfl, fun half => half,
        fun outside => absurd waits outside, fun waits => ⟨here, waits⟩,
        fun once => once⟩
    · exact ⟨rfl, rfl, rfl, rfl, rfl, fun half => half, fun _ => rfl,
        fun waits => ⟨here, waits⟩, fun once => once⟩

theorem listened_there {i : Fd} (there : st.sk i = some s) (fd : Fd)
    (queue : List Fd) (cap : Nat) :
    ∃ s', (st.listened fd queue cap).sk i = some s' := by
  simp [Stack.listened, there]

namespace Lines

theorem listened (lines : Lines st) (there : st.sk fd = some s) (cap : Nat) :
    Lines (st.listened fd s.acceptQ cap) := by
  -- a row that waited in the queue waits in no other one
  have only (i : Fd) (l : Sock) (c : Fd) (thereL : st.sk i = some l)
      (waits : c ∈ l.acceptQ) (also : c ∈ s.acceptQ) : i = fd := by
    obtain ⟨t, thereT, -, under, -⟩ := lines.live i l c thereL waits
    obtain ⟨u, thereU, -, under', -⟩ := lines.live fd s c there also
    obtain rfl := Option.some.inj (thereT.symm.trans thereU)
    exact Option.some.inj (under.symm.trans under')
  have waiting (i : Fd) (t : Sock) (thereT : st.sk i = some t)
      (waits : i ∈ s.acceptQ) : t.stage = .queued := by
    obtain ⟨u, thereU, -, -, queued⟩ := lines.live fd s i there waits
    obtain rfl := Option.some.inj (thereT.symm.trans thereU)
    exact queued
  constructor
  case closed =>
    rintro i t' there' closing
    obtain ⟨t, thereT, same⟩ := listened_old there'
    have left := lines.closed i t thereT (by
      rwa [same.appClosed, same.finSent] at closing)
    rw [same.stage fun waits => ?_]
    · exact left
    · rw [waiting i t thereT waits] at left
      exact absurd left nofun
  case half =>
    intro i t' there' half
    obtain ⟨t, thereT, same⟩ := listened_old there'
    have ⟨kind, stage⟩ := lines.half i t thereT (same.half half)
    refine ⟨same.kind.trans kind, ?_⟩
    rw [same.stage fun waits => ?_]
    · exact stage
    · rw [waiting i t thereT waits] at stage
      exact absurd stage nofun
  case other =>
    intro i t' there'
    obtain ⟨t, thereT, same⟩ := listened_old there'
    rw [same.listenFd]
    exact lines.other i t thereT
  case live =>
    intro i l' c there' waits
    obtain ⟨l, thereL, same⟩ := listened_old there'
    obtain ⟨differ, waits⟩ := same.waits waits
    obtain ⟨t, thereT, kind, under, stage⟩ := lines.live i l c thereL waits
    obtain ⟨t', there'⟩ := listened_there thereT fd s.acceptQ cap
    obtain ⟨u, thereU, same⟩ := listened_old there'
    obtain rfl := Option.some.inj (thereT.symm.trans thereU)
    refine ⟨t', there', same.kind.trans kind, same.listenFd.trans under, ?_⟩
    rw [same.stage fun also => differ (only i l c thereL waits also)]
    exact stage
  case once =>
    intro i l' there'
    obtain ⟨l, thereL, same⟩ := listened_old there'
    exact same.once (lines.once i l thereL)

theorem dequeue (lines : Lines st) {child : Fd} {rest : List Fd}
    (there : st.sk fd = some s) (queue : s.acceptQ = child :: rest)
    (waiter : Option Nat) :
    Lines (st.setRow fd (some (s.dequeue waiter rest))) ∧
      Unqueued (st.setRow fd (some (s.dequeue waiter rest))) child := by
  have once := lines.once fd s there
  rw [queue] at once
  obtain ⟨alone, once⟩ := List.nodup_cons.1 once
  have old (i : Fd) (l : Sock)
      (thereL : (st.setRow fd (some (s.dequeue waiter rest))).sk i = some l) :
      ∃ l₀, st.sk i = some l₀ ∧ l.acceptQ ⊆ l₀.acceptQ := by
    obtain ⟨rfl, rfl⟩ | ⟨_, old⟩ := Stack.setRow_old thereL
    · exact ⟨s, there, queue ▸ List.subset_cons_self child rest⟩
    · exact ⟨l, old, List.Subset.refl _⟩
  refine ⟨⟨?closed, ?half, ?other, ?live, ?once⟩, ?unqueued⟩
  case closed =>
    intro i t there' closing
    obtain ⟨rfl, rfl⟩ | ⟨_, old⟩ := Stack.setRow_old there'
    · exact lines.closed i s there closing
    · exact lines.closed i t old closing
  case half =>
    intro i t there' half
    obtain ⟨rfl, rfl⟩ | ⟨_, old⟩ := Stack.setRow_old there'
    · exact lines.half i s there half
    · exact lines.half i t old half
  case other =>
    intro i t there'
    obtain ⟨rfl, rfl⟩ | ⟨_, old⟩ := Stack.setRow_old there'
    · exact lines.other i s there
    · exact lines.other i t old
  case live =>
    intro i l c thereL waits
    obtain ⟨l₀, thereL₀, fewer⟩ := old i l thereL
    obtain ⟨t, thereT, rest'⟩ := lines.live i l₀ c thereL₀ (fewer waits)
    by_cases same : c = fd
    · subst same
      obtain rfl := Option.some.inj (there.symm.trans thereT)
      exact ⟨_, Stack.setRow_sk_same _, rest'⟩
    · exact ⟨t, (Stack.setRow_sk_of_ne same _).trans thereT, rest'⟩
  case once =>
    intro i l thereL
    obtain ⟨rfl, rfl⟩ | ⟨_, old⟩ := Stack.setRow_old thereL
    · exact once
    · exact lines.once i l old
  case unqueued =>
    intro i l thereL waits
    obtain ⟨rfl, rfl⟩ | ⟨differ, old⟩ := Stack.setRow_old thereL
    · exact alone waits
    · obtain ⟨t, thereT, -, under, -⟩ := lines.live i l child old waits
      obtain ⟨u, thereU, -, under', -⟩ :=
        lines.live fd s child there (queue ▸ List.mem_cons_self)
      obtain rfl := Option.some.inj (thereT.symm.trans thereU)
      exact differ (Option.some.inj (under.symm.trans under'))

end Lines

theorem Lines.head (lines : Lines st) {child : Fd} {rest : List Fd} {c : Sock}
    {waiter : Option Nat} (there : st.sk fd = some s)
    (queue : s.acceptQ = child :: rest)
    (live : (st.setRow fd (some (s.dequeue waiter rest))).sk child = some c) :
    child ≠ fd ∧ st.sk child = some c ∧ c.listenFd = some fd ∧ c.stage = .queued := by
  obtain ⟨c₀, there₀, -, under, stage⟩ :=
    lines.live fd s child there (queue ▸ List.mem_cons_self)
  have differ : child ≠ fd := by
    rintro rfl
    obtain rfl := Option.some.inj (there.symm.trans there₀)
    exact lines.other child s there under
  have old := (Stack.setRow_sk_of_ne differ _).symm.trans live
  obtain rfl := Option.some.inj (there₀.symm.trans old)
  exact ⟨differ, old, under, stage⟩

theorem Lines.head_isSome (lines : Lines st) {child : Fd} {rest : List Fd}
    (waiter : Option Nat) (there : st.sk fd = some s)
    (queue : s.acceptQ = child :: rest) :
    (st.setRow fd (some (s.dequeue waiter rest))).sk child ≠ none := by
  obtain ⟨c, thereC, -⟩ := lines.live fd s child there (queue ▸ List.mem_cons_self)
  rw [Stack.setRow_sk]
  split
  · exact nofun
  · rw [thereC]
    exact nofun

theorem Effect.lines (all : ∀ seg, w.admits seg) (table : Table st) {call : Call}
    (effect : Effect w st call st') (outside : ∀ fd, call = .close fd → Unqueued st fd)
    (lines : Lines st) : Lines st' := by
  have sound := Sound.of_table all table
  cases effect with
  | moves steps => exact steps.lines sound lines
  | loUp => exact lines.of_sk rfl
  | @opened _ st₁ fd kind caps wnd prepares free room =>
      have free' : st₁.sk fd = none := by rw [prepares.sk, free]
      have named : Lines { st₁ with nextId := st₁.nextId + 1 } :=
        lines.of_sk prepares.sk
      refine named.put (named.unqueued fun t there' => ?_) ?_ ?_ ?_ (Or.inl rfl)
      · exact absurd (free'.symm.trans there') nofun
      · exact fun closing => absurd closing (by simp [Sock.opened, Sock.new])
      · exact nofun
      · exact nofun
  | bound addr port l2 there | pinned h there =>
      exact lines.setRow there ⟨rfl, rfl, rfl, rfl, rfl, fun half => half,
        fun closed => closed.imp_right Or.inl⟩
  | listened depth cap there => exact lines.listened there cap
  | @accepted fd child rest s c waiter there _ _ queue live =>
      have ⟨differ, old, _, stage⟩ := lines.head there queue live
      have ⟨shorter, outside⟩ := lines.dequeue there queue waiter
      have passed : Lines ((st.setRow fd (some (s.dequeue waiter rest))).setRow child
          (some c.taken)) := by
        refine shorter.put outside (fun closing => ?_) (fun half => ?_)
          (shorter.other child c live) (Or.inr ⟨c, live, rfl⟩)
        · have left := lines.closed child c old closing
          rw [stage] at left
          exact absurd left nofun
        · have waits := (lines.half child c old half).2
          rw [stage] at waits
          exact absurd waits nofun
      exact passed.of_sk rfl
  | acceptedDead waiter there queue dead =>
      exact absurd dead (lines.head_isSome waiter there queue)
  | @dialed fd s _ waiter src addr port there kind steps =>
      have renamed := table.dialed there
        (show ({ s with waiter := waiter } : Sock).id = s.id from rfl) src addr port
      refine steps.lines (Sound.of_table all renamed) ?_
      obtain ⟨eph, same⟩ := dialPort_eq st { s with waiter := waiter }
      unfold Stack.dialed
      rw [same]
      have named : Lines { st with eph := eph } := lines.of_sk rfl
      exact named.setRow there ⟨rfl, rfl, rfl, rfl, rfl, nofun,
        fun closed => closed.imp_right Or.inl⟩
  | dropped there => exact lines.dropped (outside _ rfl)
  | closing there notListen notHalf steps =>
      refine steps.lines (Sound.of_table all (table.unheld there)) ?_
      rw [unheld_deaf notListen]
      exact lines.letGo there notHalf (outside _ rfl)

theorem Lines.init (env : Env) : Lines (Stack.init env) where
  closed i s there := absurd there (init_sk env i s)
  half i s there := absurd there (init_sk env i s)
  other i s there := absurd there (init_sk env i s)
  live i l _ there := absurd there (init_sk env i l)
  once i l there := absurd there (init_sk env i l)

end Metal.Net.Ip
