import Metal.Net.Ip.Acts

namespace Metal.Net.Ip

open Metal.Lib

/-! Which connection a segment belongs to. -/

variable {w : World} {st st' : Stack}

def Distinct (st : Stack) : Prop :=
  ∀ i j s t, st.sk i = some s → st.sk j = some t → s.Connected → t.Connected →
    s.lport = t.lport → s.raddr = t.raddr → s.rport = t.rport → i = j

structure SameEnd (s s' : Sock) : Prop where
  connected : s'.Connected → s.Connected
  lport : s'.lport = s.lport
  raddr : s'.raddr = s.raddr
  rport : s'.rport = s.rport

namespace SameEnd

theorem refl (s : Sock) : SameEnd s s := ⟨fun connected => connected, rfl, rfl, rfl⟩

theorem of_frame {s s' : Sock} (frame : Frame s s') : SameEnd s s' where
  connected connected :=
    ⟨frame.kind ▸ connected.1, fun listens => connected.2.1 (frame.listens.2 listens),
      frame.iss ▸ connected.2.2⟩
  lport := frame.lport
  raddr := frame.raddr
  rport := frame.rport

theorem complete {s : Sock} (half : s.tcpSt = .synRcvd) (stage : Stage) :
    SameEnd s (s.complete stage) where
  connected connected := ⟨connected.1, half ▸ nofun, connected.2.2⟩
  lport := rfl
  raddr := rfl
  rport := rfl

end SameEnd

namespace Distinct

section

variable (distinct : Distinct st)
include distinct

theorem of_old (old : ∀ i s', st'.sk i = some s' → ∃ s, st.sk i = some s ∧ SameEnd s s') :
    Distinct st' := by
  intro i j s' t' thereS' thereT' connS connT lport raddr rport
  obtain ⟨s, thereS, sameS⟩ := old i s' thereS'
  obtain ⟨t, thereT, sameT⟩ := old j t' thereT'
  refine distinct i j s t thereS thereT (sameS.connected connS)
    (sameT.connected connT) ?_ ?_ ?_
  · exact sameS.lport.symm.trans (lport.trans sameT.lport)
  · exact sameS.raddr.symm.trans (raddr.trans sameT.raddr)
  · exact sameS.rport.symm.trans (rport.trans sameT.rport)

theorem of_sk (sk : st'.sk = st.sk) : Distinct st' :=
  distinct.of_old fun _ s there => ⟨s, sk ▸ there, SameEnd.refl s⟩

theorem setRow {fd : Fd} {s s' : Sock} (there : st.sk fd = some s) (same : SameEnd s s') :
    Distinct (st.setRow fd (some s')) := by
  refine distinct.of_old fun i t there' => ?_
  rw [Stack.setRow_sk] at there'
  split at there'
  · rename_i here
    obtain rfl := Option.some.inj there'
    exact ⟨s, here ▸ there, same⟩
  · exact ⟨t, there', SameEnd.refl t⟩

theorem drop (fd : Fd) : Distinct (st.drop fd) := by
  refine distinct.of_old fun i t there' => ?_
  rw [Stack.drop, Stack.setRow_sk] at there'
  split at there'
  · exact absurd there' (by simp)
  · exact ⟨t, there', SameEnd.refl t⟩

theorem put {fd : Fd} {s : Sock}
    (free : ∀ i t, i ≠ fd → st.sk i = some t → s.Connected → t.Connected →
      ¬ (t.lport = s.lport ∧ t.raddr = s.raddr ∧ t.rport = s.rport)) :
    Distinct (st.setRow fd (some s)) := by
  intro i j t u there there' connT connU lport raddr rport
  rw [Stack.setRow_sk] at there there'
  split at there <;> split at there'
  · rename_i same same'
    exact same.trans same'.symm
  · rename_i same differ
    obtain rfl := Option.some.inj there
    exact absurd ⟨lport.symm, raddr.symm, rport.symm⟩ (free j u differ there' connT connU)
  · rename_i differ same
    obtain rfl := Option.some.inj there'
    exact absurd ⟨lport, raddr, rport⟩ (free i t differ there connU connT)
  · exact distinct i j t u there there' connT connU lport raddr rport

theorem unheld {fd : Fd} {s : Sock}
    (there : st.sk fd = some s) : Distinct (st.unheld fd s) := by
  refine distinct.of_old fun i t there' => ?_
  rcases unheld_old i t there' with ⟨rfl, rfl⟩ | ⟨_, old⟩
  · exact ⟨s, there, fun connected => connected, rfl, rfl, rfl⟩
  · exact ⟨t, old, SameEnd.refl t⟩

end

end Distinct

theorem Steps.distinct (strict : w.strict) (steps : Steps w st st')
    (distinct : Distinct st) : Distinct st' := by
  induction steps with
  | refl => exact distinct
  | trans _ _ first second => exact second (first distinct)
  | fault | deep | via | grow | spend | sent => exact distinct.of_sk rfl
  | change there change =>
      exact distinct.setRow there (SameEnd.of_frame change.frame)
  | release => exact distinct.drop _
  | finished => exact distinct.drop _
  | child caps seg there kind listens admits syn notAck port free room single =>
      refine (distinct.of_sk rfl).put fun i t _ there' _ connected same => ?_
      exact single strict i t there'
        ⟨connected, same.1.trans port, same.2.1, same.2.2⟩
  | queue seg there _ _ half _ listener =>
      have done := distinct.setRow there (SameEnd.complete half .queued)
      refine Distinct.of_sk (done.setRow listener ?_) rfl
      exact ⟨fun connected => connected, rfl, rfl, rfl⟩
  | orphan seg there _ _ half =>
      exact distinct.setRow there (SameEnd.complete half .orphan)
  | refuse seg there _ _ half _ _ _ _ _ reset =>
      exact (reset (distinct.setRow there (SameEnd.complete half .refused))).drop _

def Free (st : Stack) (fd : Fd) (lport : Port) (raddr : Addr) (rport : Port) :
    Prop :=
  ∀ i < st.skCap, ∀ t ∈ st.sk i, i ≠ fd → t.Connected →
    ¬ (t.lport = lport ∧ t.raddr = raddr ∧ t.rport = rport)

instance (st : Stack) (fd : Fd) (lport : Port) (raddr : Addr) (rport : Port) :
    Decidable (Free st fd lport raddr rport) :=
  inferInstanceAs (Decidable (∀ i < st.skCap, ∀ t ∈ st.sk i, _))

/-- The call makes no connection that is there already: `connect` takes ports
and a peer that no row has, `bind` does not move a connection onto another one,
and a segment comes in where its connection hears it. -/
def KeepsApart (st : Stack) : Call → Prop
  | .connect fd addr port =>
      ∀ s ∈ st.sk fd, Free st fd (st.dialPort s).2 addr port
  | .bind fd _ port =>
      ∀ s ∈ st.sk fd, s.Connected → Free st fd port s.raddr s.rport
  | .input h seg => Heard { st with rxL2 := h } seg
  | _ => True

instance (st : Stack) : ∀ call, Decidable (KeepsApart st call)
  | .connect fd addr port =>
      inferInstanceAs (Decidable
        (∀ s ∈ st.sk fd, Free st fd (st.dialPort s).2 addr port))
  | .bind fd _ port =>
      inferInstanceAs (Decidable
        (∀ s ∈ st.sk fd, s.Connected → Free st fd port s.raddr s.rport))
  | .input h seg => inferInstanceAs (Decidable (Heard { st with rxL2 := h } seg))
  | .loUp | .socket _ | .outSocket _ | .bindL2 .. | .listen .. | .accept _
  | .send .. | .recv .. | .close _ | .pump => isTrue trivial

theorem Effect.distinct (strict : w.strict) (table : Table st) {call : Call}
    (effect : Effect w st call st') (apart : KeepsApart st call)
    (distinct : Distinct st) : Distinct st' := by
  have free {fd lport raddr rport} (free : Free st fd lport raddr rport)
      (i : Fd) (t : Sock) (differ : i ≠ fd) (there : st.sk i = some t) :=
    free i (table.within i t there) t there differ
  cases effect with
  | moves steps => exact steps.distinct strict distinct
  | loUp => exact distinct.of_sk rfl
  | opened kind caps wnd prepares unused room =>
      refine (distinct.of_sk prepares.sk).put fun i t _ _ connected => ?_
      exact absurd rfl connected.2.2
  | bound addr port l2 there =>
      refine distinct.put fun i t differ there' connected => ?_
      exact free (apart _ there connected) i t differ there'
  | pinned h there =>
      exact distinct.setRow there ⟨fun connected => connected, rfl, rfl, rfl⟩
  | listened depth cap there =>
      refine distinct.of_old fun i s there' => ?_
      obtain ⟨t, old, rfl⟩ := Option.map_eq_some_iff.1 there'
      refine ⟨t, old, ?_⟩
      dsimp only
      split <;> split
      · exact ⟨fun connected => absurd rfl connected.2.1, rfl, rfl, rfl⟩
      · exact ⟨fun connected => absurd rfl connected.2.1, rfl, rfl, rfl⟩
      · exact ⟨fun connected => connected, rfl, rfl, rfl⟩
      · exact SameEnd.refl t
  | @accepted fd child rest s c waiter there _ _ _ live =>
      have shorter := distinct.setRow there (show SameEnd s (s.dequeue waiter rest)
        from ⟨fun connected => connected, rfl, rfl, rfl⟩)
      refine Distinct.of_sk (shorter.setRow live ?_) rfl
      exact ⟨fun connected => connected, rfl, rfl, rfl⟩
  | acceptedDead waiter there =>
      refine Distinct.of_sk (distinct.setRow there ?_) rfl
      exact ⟨fun connected => connected, rfl, rfl, rfl⟩
  | @dialed fd s _ waiter src addr port there kind steps =>
      refine steps.distinct strict ?_
      obtain ⟨eph, same⟩ := dialPort_eq st { s with waiter := waiter }
      unfold Stack.dialed
      rw [same]
      refine Distinct.put (distinct.of_sk rfl) fun i t differ there' _ connected => ?_
      exact free (apart _ there) i t differ there' connected
  | @dropped fd s there => exact (distinct.unheld there).drop fd
  | closing there _ _ steps => exact steps.distinct strict (distinct.unheld there)

def Sock.Unset (s : Sock) : Prop := s.iss = 0 → s.rport = 0

theorem unset_rule : RowRule w Sock.Unset where
  change s s' change unset iss :=
    change.frame.rport.trans (unset (change.frame.iss.symm.trans iss))
  complete _ _ _ unset := unset
  enqueue _ _ unset := unset
  child _ _ _ _ _ iss := absurd iss (show (1000 : Seq) ≠ 0 by decide)
  opened _ _ _ _ _ := rfl
  named _ _ _ _ unset := unset
  pinned _ _ unset := unset
  listening _ _ unset := unset
  dequeue _ _ _ unset := unset
  dial _ _ _ _ _ _ _ iss := absurd iss (show (2000 : Seq) ≠ 0 by decide)
  passed _ _ _ unset := unset

/-- Connections are told apart, and a segment goes to the one it belongs to. -/
structure Identity (st : Stack) : Prop where
  distinct : Distinct st
  delivers : ∀ seg i s, seg.sport ≠ 0 → st.sk i = some s → s.Owns seg →
    ¬ (s.l2 ≥ 0 ∧ st.rxL2 ≥ 0 ∧ s.l2 ≠ st.rxL2) →
    st.tcpFind seg = some ⟨i, s.id⟩

theorem tcpFind_of_distinct (table : Table st) (distinct : Distinct st)
    (unset : Rows Sock.Unset st) : Identity st := by
  refine ⟨distinct, fun seg i s named there owns near => ?_⟩
  have hit : st.matchesRow seg s = true := by
    simp only [Stack.matchesRow, decide_eq_true_eq]
    exact ⟨owns.1.1, owns.1.2.1, owns.2.1, owns.2.2.2, owns.2.2.1, near⟩
  -- whichever row matches is a connection with these ports and this peer
  have only : ∀ j t, st.sk j = some t → st.matchesRow seg t = true → j = i := by
    intro j t there' matched
    simp only [Stack.matchesRow, decide_eq_true_eq] at matched
    obtain ⟨kind, notListen, lport, rport, raddr, -⟩ := matched
    have connected : t.Connected := by
      refine ⟨kind, notListen, fun iss => named ?_⟩
      rw [← rport]
      exact unset j t there' iss
    exact distinct j i t s there' there connected owns.1 (lport.trans owns.2.1.symm)
      (raddr.trans owns.2.2.1.symm) (rport.trans owns.2.2.2.symm)
  exact tcpFind_only (table.within i s there) there hit only

structure Apart (st : Stack) : Prop where
  table : Table st
  distinct : Distinct st
  unset : Rows Sock.Unset st

theorem Apart.step (apart : Apart st) (depth : Nat) (call : Env × Call)
    (keeps : KeepsApart st call.2) : Apart (act depth st call) := by
  have effect : Effect (World.open True) { st with env := call.1 } call.2
      (act depth st call) := by
    refine act_effect apart.table depth call fun _ h seg same => ?_
    rw [same] at keeps
    exact keeps
  have table := apart.table.env call.1
  have keeps' : KeepsApart { st with env := call.1 } call.2 := by
    cases same : call.2 with
    | connect fd addr port =>
        rw [same] at keeps
        intro s there
        rw [dialPort_port]
        exact dialPort_port st s ▸ keeps s there
    | _ =>
        rw [same] at keeps
        exact keeps
  exact
    { table := effect.table (fun _ => trivial) table
      distinct := effect.distinct trivial table keeps' (apart.distinct.of_sk rfl)
      unset := effect.rows unset_rule (apart.unset.of_sk rfl) }

/-- In every run that keeps connections apart they are told apart in every state
reached. -/
theorem identity_of_keepsApart (depth : Nat) (env : Env) (run : List (Env × Call))
    (apart : Along (act depth) (fun st call => KeepsApart st call.2)
      (Stack.init env) run) :
    Identity (run.foldl (act depth) (Stack.init env)) := by
  have start : Apart (Stack.init env) :=
    { table := Table.init env
      distinct := fun i _ s _ there => absurd there (init_sk env i s)
      unset := fun i s there => absurd there (init_sk env i s) }
  have step (st : Stack) (call : Env × Call) (inv : Apart st)
      (keeps : KeepsApart st call.2) : Apart (act depth st call) :=
    inv.step depth call keeps
  have reached := apart.invariant step start
  exact tcpFind_of_distinct reached.table reached.distinct reached.unset

def strangerSyn (dport : Port) : Segment where
  src := 0x0a000002
  dst := 0x0a000001
  sport := 5000
  dport := dport
  seq := 7
  ack := 0
  flags := .synOnly
  wnd := 4096
  data := []

/-- A listener takes on a connection from the stranger, and later we connect to
that very port of the stranger. -/
def crossed (listens : Port) : List (Env × Call) :=
  [.socket .tcp, .bind 0 0 listens, .listen 0 4, .input 1 (strangerSyn listens),
    .socket .tcp, .connect 2 0x0a000002 5000].map fun call => (Env.ample, call)

theorem identity_of_keepsApart_crossed :
    Along (act 4) (fun st call => KeepsApart st call.2) (Stack.init Env.ample)
        (crossed 80) ∧
      Identity ((crossed 80).foldl (act 4) (Stack.init Env.ample)) := by
  have apart : Along (act 4) (fun st call => KeepsApart st call.2)
      (Stack.init Env.ample) (crossed 80) := by
    decide +kernel
  exact ⟨apart, identity_of_keepsApart 4 Env.ample (crossed 80) apart⟩

/-- The first ephemeral port is taken without a look at the rows. -/
theorem identity_fails :
    ¬ ∀ (depth : Nat) (env : Env) (run : List (Env × Call)),
      Identity (run.foldl (act depth) (Stack.init env)) := by
  intro identity
  have distinct := (identity 4 Env.ample (crossed 49152)).distinct
  have twins : ∀ s ∈ ((crossed 49152).foldl (act 4) (Stack.init Env.ample)).sk 1,
      ∀ t ∈ ((crossed 49152).foldl (act 4) (Stack.init Env.ample)).sk 2,
      s.Connected ∧ t.Connected ∧ s.lport = t.lport ∧ s.raddr = t.raddr ∧
        s.rport = t.rport := by
    decide +kernel
  have there : (((crossed 49152).foldl (act 4) (Stack.init Env.ample)).sk 1).isSome ∧
      (((crossed 49152).foldl (act 4) (Stack.init Env.ample)).sk 2).isSome := by
    decide +kernel
  obtain ⟨s, thereS⟩ := Option.isSome_iff_exists.1 there.1
  obtain ⟨t, thereT⟩ := Option.isSome_iff_exists.1 there.2
  obtain ⟨connS, connT, lport, raddr, rport⟩ := twins s thereS t thereT
  exact absurd (distinct 1 2 s t thereS thereT connS connT lport raddr rport) nofun

end Metal.Net.Ip
