import Metal.Lib.Run
import Metal.Net.Rpc
import Mathlib.Data.List.Nodup
import Mathlib.Data.List.Perm.Basic

namespace Metal.Net.Rpc

open Metal.Lib

/-! Runs of the pending calls beside a ledger of what was called, delivered and
polled so far. -/

inductive Op
  | invoke (key : Option CString) (args : Option Bytes) (argsLen : UInt32)
  | deliver (callId : CallId) (status : Int32) (result : Option Bytes)
      (resultLen : Nat)
  | poll (out : Bool)

/-- A call that was not polled yet, with its result when it was delivered. -/
structure Outstanding where
  callId : CallId
  answer : Option (Int32 × Bytes)

def Outstanding.delivered (call : Outstanding) : Option Result :=
  call.answer.map fun (status, result) => ⟨call.callId, status, result⟩

structure World where
  state : State
  issued : List CallId
  outstanding : List Outstanding
  delivered : List Result
  polled : List Result

def World.boot : World := ⟨Rpc.boot, [], [], [], []⟩

def World.waiting (w : World) : List Result :=
  w.outstanding.filterMap Outstanding.delivered

def carried (result : Option Bytes) (resultLen : Nat) : Bytes :=
  (result.getD []).take resultLen

def answered (callId : CallId) (answer : Int32 × Bytes) (call : Outstanding) :
    Outstanding :=
  if call.callId = callId then { call with answer := some answer } else call

def step (w : World) : Op → World
  | .invoke key args argsLen =>
      let (returned, state) := invoke key args argsLen w.state
      if 0 ≤ returned then
        let callId := UInt64.ofNat returned.toNat
        { w with
          state
          issued := w.issued ++ [callId]
          outstanding := w.outstanding ++ [⟨callId, none⟩] }
      else
        { w with state }
  | .deliver callId status result resultLen =>
      let (returned, state) := deliverResult callId status result resultLen w.state
      if returned = 0 then
        { w with
          state
          outstanding :=
            w.outstanding.map (answered callId (status, carried result resultLen))
          delivered :=
            w.delivered ++ [⟨callId, status, carried result resultLen⟩] }
      else
        { w with state }
  | .poll out =>
      match poll out w.state with
      | (_, none, state) => { w with state }
      | (_, some result, state) =>
          { w with
            state
            outstanding :=
              w.outstanding.filter fun call => call.callId ≠ result.callId
            polled := w.polled ++ [result] }

/-- No pending call is lost: the calls that were issued are those that were
polled and those that are outstanding, every outstanding one can be delivered,
every delivered result is polled once or waits to be, and the ring refuses a
call when it is full of outstanding ones only. -/
structure Exact (w : World) : Prop where
  distinct : w.issued.Nodup
  issued : w.issued.Perm
    (w.polled.map Result.callId ++ w.outstanding.map Outstanding.callId)
  deliverable : ∀ callId status result resultLen,
    (deliverResult callId status result resultLen w.state).1 =
      if callId ∈ w.outstanding.map Outstanding.callId then 0 else -1
  delivered : w.delivered.Perm (w.polled ++ w.waiting)
  polls : (w.waiting = [] ∧ (poll true w.state).1 = 0 ∧
      (poll true w.state).2.1 = none) ∨
    ∃ result ∈ w.waiting, (poll true w.state).1 = 1 ∧
      (poll true w.state).2.1 = some result
  count : w.state.pendingCount = w.outstanding.length
  refuses : ∀ key args argsLen, invokeArgs key args argsLen = true →
    ((invoke key args argsLen w.state).1 = -1 ↔ w.outstanding.length = callsMax)

/-- An invoke has ids left that are not negative as an `int64_t`; a delivery
finds its call without a result, does not bring the sentinel as its status, and
brings all of its bytes, not more than fit; a poll finds a result for no other
call than the newest. -/
def KeepsCalls (w : World) : Op → Prop
  | .invoke _ _ _ => w.state.nextCallId.toNat < 2 ^ 63
  | .deliver callId status result resultLen =>
      ∀ call ∈ w.outstanding, call.callId = callId →
        call.answer = none ∧ status ≠ pendingSentinel ∧
          resultLen ≤ resultMax ∧ resultLen ≤ (result.getD []).length
  | .poll out => out = true → ∀ call ∈ w.outstanding.dropLast, call.answer = none

instance (w : World) : (op : Op) → Decidable (KeepsCalls w op)
  | .invoke _ _ _ => inferInstanceAs (Decidable (_ < _))
  | .deliver callId status result resultLen =>
      inferInstanceAs (Decidable (∀ call ∈ w.outstanding, call.callId = callId →
        call.answer = none ∧ status ≠ pendingSentinel ∧
          resultLen ≤ resultMax ∧ resultLen ≤ (result.getD []).length))
  | .poll out => inferInstanceAs (Decidable
      (out = true → ∀ call ∈ w.outstanding.dropLast, call.answer = none))

structure Agree (slot : PendingCall) (call : Outstanding) : Prop where
  valid : slot.valid = true
  callId : slot.callId = call.callId
  pending : call.answer = none → slot.status = pendingSentinel
  complete : ∀ status result, call.answer = some (status, result) →
    slot.status = status ∧ status ≠ pendingSentinel ∧
      slot.resultLen ≤ resultMax ∧ slot.result.take slot.resultLen = result

structure Ringed (w : World) : Prop where
  window : Window Agree w.state.calls w.state.pendingHead w.outstanding
  count : w.state.pendingCount = w.outstanding.length
  room : w.outstanding.length ≤ callsMax
  small : w.state.nextCallId.toNat ≤ 2 ^ 63
  fresh : ∀ callId ∈ w.issued, callId.toNat < w.state.nextCallId.toNat
  distinct : w.issued.Nodup
  issued : w.issued.Perm
    (w.polled.map Result.callId ++ w.outstanding.map Outstanding.callId)
  delivered : w.delivered.Perm (w.polled ++ w.waiting)

variable {call : Outstanding}

theorem Agree.completed {slot : PendingCall} (agree : Agree slot call) :
    completed slot = call.answer.isSome := by
  cases answer : call.answer with
  | none => simp [Rpc.completed, agree.pending answer]
  | some given =>
      obtain ⟨status, result⟩ := given
      have done := agree.complete status result answer
      simp [Rpc.completed, agree.valid, done.1, done.2.1]

theorem Agree.awaits {slot : PendingCall} (callId : CallId) (agree : Agree slot call) :
    awaits callId slot = decide (call.callId = callId) := by
  simp [Rpc.awaits, agree.valid, agree.callId]

theorem compact_window {calls : Fin callsMax → PendingCall}
    {head : Fin callsMax} {l : List Outstanding}
    (window : Window Agree calls head l) : compact calls head l.length = head := by
  cases l with
  | nil => rfl
  | cons call rest => rw [List.length_cons, compact, if_pos window.head.valid]

theorem countValid_window {calls : Fin callsMax → PendingCall}
    {head : Fin callsMax} {l : List Outstanding}
    (window : Window Agree calls head l) :
    countValid calls head l.length = l.length := by
  induction l generalizing head with
  | nil => rfl
  | cons call rest ih =>
      rw [List.length_cons, countValid, window.head.valid, ih window.tail,
        Bool.toNat_true, Nat.add_comm]

section Calls

variable {w : World}

theorem Ringed.allocPending (ringed : Ringed w) :
    allocPending w.state =
      (if w.outstanding.length ≥ callsMax then none
        else some (slotAfter w.state.pendingHead w.outstanding.length),
        w.state) := by
  rw [Rpc.allocPending]
  simp only [ringed.count, compact_window ringed.window,
    countValid_window ringed.window]
  simp only [← ringed.count]

theorem signed_of_small {callId : CallId} (small : callId.toNat < 2 ^ 63) :
    signed callId = callId.toNat := if_pos small

theorem signed_ne {callId : CallId} (small : callId.toNat ≤ 2 ^ 63) :
    signed callId ≠ -1 := by
  unfold signed
  split <;> omega

section Ringed

variable (ringed : Ringed w)
include ringed

theorem Ringed.invoke_eq {key : Option CString} {args : Option Bytes}
    {argsLen : UInt32} (proper : invokeArgs key args argsLen = true) :
    invoke key args argsLen w.state =
      if w.outstanding.length ≥ callsMax then (-1, w.state)
      else
        let slot := slotAfter w.state.pendingHead w.outstanding.length
        (signed w.state.nextCallId,
          { w.state with
            calls := Function.update w.state.calls slot
              { w.state.calls slot with
                valid := true
                callId := w.state.nextCallId
                status := pendingSentinel
                resultLen := 0 }
            pendingCount := w.state.pendingCount + 1
            nextCallId := w.state.nextCallId + 1 }) := by
  rw [Rpc.invoke, if_pos proper, ringed.allocPending]
  by_cases full : w.outstanding.length ≥ callsMax
  · rw [if_pos full, if_pos full]
  · rw [if_neg full, if_neg full]

theorem Ringed.refuses {key : Option CString} {args : Option Bytes}
    {argsLen : UInt32} (proper : invokeArgs key args argsLen = true) :
    (invoke key args argsLen w.state).1 = -1 ↔ w.outstanding.length = callsMax := by
  have room := ringed.room
  rw [ringed.invoke_eq proper]
  by_cases full : w.outstanding.length ≥ callsMax
  · rw [if_pos full]
    exact iff_of_true rfl (by omega)
  · rw [if_neg full]
    exact iff_of_false (signed_ne ringed.small) (by omega)

theorem Ringed.deliver_cases (callId : CallId) (status : Int32)
    (result : Option Bytes) (resultLen : Nat) :
    deliverResult callId status result resultLen w.state = (-1, w.state) ∧
        (∀ call ∈ w.outstanding, call.callId ≠ callId) ∨
      ∃ (before : List Outstanding) (call : Outstanding) (after : List Outstanding),
        w.outstanding = before ++ call :: after ∧
        call.callId = callId ∧
        deliverResult callId status result resultLen w.state =
          (0, { w.state with
            calls :=
              let slot := slotAfter w.state.pendingHead before.length
              Function.update w.state.calls slot
                { w.state.calls slot with
                  status
                  resultLen := min resultLen resultMax
                  result := match result with
                    | none => (w.state.calls slot).result
                    | some bytes => memcpy (w.state.calls slot).result bytes
                        (min resultLen resultMax) } }) := by
  rcases ringed.window.scan (fun _ _ agree => agree.awaits callId) with
    ⟨missed, absent⟩ | ⟨before, call, after, split, hit, here, -⟩
  · refine .inl ⟨?_, by simpa using absent⟩
    rw [← ringed.count] at missed
    rw [deliverResult, missed]
  · refine .inr ⟨before, call, after, split, by simpa using here, ?_⟩
    rw [← ringed.count] at hit
    unfold deliverResult
    exact hit.symm ▸ rfl

theorem Ringed.deliverable (callId : CallId) (status : Int32)
    (result : Option Bytes) (resultLen : Nat) :
    (deliverResult callId status result resultLen w.state).1 =
      if callId ∈ w.outstanding.map Outstanding.callId then 0 else -1 := by
  rcases ringed.deliver_cases callId status result resultLen with
    ⟨missed, absent⟩ | ⟨before, call, after, split, rfl, hit⟩
  · rw [missed, if_neg]
    rintro member
    obtain ⟨call, member, same⟩ := List.mem_map.mp member
    exact absent call member same
  · rw [hit, if_pos]
    exact List.mem_map_of_mem (by simp [split])

theorem Ringed.poll_cases :
    poll true w.state = (0, none, w.state) ∧
        (∀ call ∈ w.outstanding, call.answer = none) ∨
      ∃ (before : List Outstanding) (call : Outstanding) (after : List Outstanding)
          (answer : Int32 × Bytes), w.outstanding = before ++ call :: after ∧
        call.answer = some answer ∧ (∀ earlier ∈ before, earlier.answer = none) ∧
        poll true w.state = (1, some ⟨call.callId, answer.1, answer.2⟩,
          { w.state with
            calls :=
              let slot := slotAfter w.state.pendingHead before.length
              Function.update w.state.calls slot
                { w.state.calls slot with valid := false }
            pendingCount := w.state.pendingCount - 1 }) := by
  rcases ringed.window.scan (fun _ _ agree => agree.completed) with
    ⟨missed, absent⟩ | ⟨before, call, after, split, hit, here, earlier⟩
  · refine .inl ⟨?_, by simpa using absent⟩
    rw [← ringed.count] at missed
    rw [poll, if_pos rfl, missed]
  · obtain ⟨answer, given⟩ := Option.isSome_iff_exists.mp here
    have agree := ringed.window before.length call (by simp [split])
    have done := agree.complete answer.1 answer.2 given
    refine .inr ⟨before, call, after, answer, split, given, by simpa using earlier, ?_⟩
    rw [← ringed.count] at hit
    rw [poll, if_pos rfl, hit]
    simp only [agree.callId, done.1, Nat.min_eq_left done.2.2.1, done.2.2.2]

theorem Ringed.outstanding_nodup : (w.outstanding.map Outstanding.callId).Nodup :=
  ((ringed.issued.nodup_iff.mp ringed.distinct).of_append_right)

theorem Ringed.polls : (w.waiting = [] ∧ (poll true w.state).1 = 0 ∧
      (poll true w.state).2.1 = none) ∨
    ∃ result ∈ w.waiting, (poll true w.state).1 = 1 ∧
      (poll true w.state).2.1 = some result := by
  rcases ringed.poll_cases with
    ⟨missed, absent⟩ | ⟨before, call, after, answer, split, given, -, hit⟩
  · refine .inl ⟨?_, by rw [missed], by rw [missed]⟩
    rw [World.waiting, List.filterMap_eq_nil_iff]
    intro call member
    simp [Outstanding.delivered, absent call member]
  · refine .inr ⟨_, ?_, by rw [hit], by rw [hit]⟩
    rw [World.waiting, List.mem_filterMap]
    exact ⟨call, by simp [split], by simp [Outstanding.delivered, given]⟩

theorem Ringed.exact : Exact w where
  distinct := ringed.distinct
  issued := ringed.issued
  deliverable := ringed.deliverable
  delivered := ringed.delivered
  polls := ringed.polls
  count := ringed.count
  refuses _ _ _ := ringed.refuses

end Ringed

theorem ringed_boot : Ringed World.boot where
  window := Window.nil
  count := rfl
  room := by decide
  small := by decide
  fresh := by simp [World.boot]
  distinct := List.nodup_nil
  issued := .refl _
  delivered := .refl _

theorem Ringed.invoke (ringed : Ringed w) (key : Option CString) (args : Option Bytes)
    (argsLen : UInt32) (keeps : KeepsCalls w (.invoke key args argsLen)) :
    Ringed (step w (.invoke key args argsLen)) := by
  have refused : Rpc.invoke key args argsLen w.state = (-1, w.state) →
      Ringed (step w (.invoke key args argsLen)) := by
    intro same
    simpa [step, same] using ringed
  cases proper : invokeArgs key args argsLen with
  | false => exact refused (by rw [Rpc.invoke, proper]; rfl)
  | true =>
      have taken := ringed.invoke_eq proper
      by_cases full : w.outstanding.length ≥ callsMax
      · exact refused (by rw [taken, if_pos full])
      · rw [if_neg full, signed_of_small keeps] at taken
        have below : w.state.nextCallId.toNat < 2 ^ 63 := keeps
        have next : (w.state.nextCallId + 1).toNat =
            w.state.nextCallId.toNat + 1 := by
          rw [UInt64.toNat_add]
          exact Nat.mod_eq_of_lt (by simp; omega)
        have new : w.state.nextCallId ∉ w.issued := fun member =>
          Nat.lt_irrefl _ (ringed.fresh _ member)
        simp only [step, taken, Int.natCast_nonneg, if_true, Int.toNat_natCast,
          UInt64.ofNat_toNat]
        refine ⟨?_, ?_, ?_, ?_, ?_, ?_, ?_, ?_⟩
        · refine ringed.window.push (by omega) ?_
          exact ⟨rfl, rfl, fun _ => rfl, by simp⟩
        · simpa using ringed.count
        · simp only [List.length_append, List.length_singleton]
          omega
        · simp only [next]
          omega
        · intro callId member
          rw [next]
          rcases List.mem_append.mp member with old | here
          · exact Nat.lt_succ_of_lt (ringed.fresh callId old)
          · rw [List.mem_singleton.mp here]
            exact Nat.lt_succ_self _
        · rw [List.nodup_append]
          refine ⟨ringed.distinct, List.nodup_singleton _, ?_⟩
          rintro callId old _ here rfl
          exact new (List.mem_singleton.mp here ▸ old)
        · simp only [List.map_append, List.map_singleton, ← List.append_assoc]
          exact ringed.issued.append_right _
        · have idle : Outstanding.delivered ⟨w.state.nextCallId, none⟩ = none := rfl
          simpa [World.waiting, List.filterMap_cons, idle] using ringed.delivered

theorem map_answered {before after : List Outstanding}
    (distinct : ((before ++ call :: after).map Outstanding.callId).Nodup) (answer : Int32 × Bytes) :
    (before ++ call :: after).map (answered call.callId answer) =
      before ++ { call with answer := some answer } :: after := by
  have apart : ∀ other ∈ before ++ after, answered call.callId answer other = other := by
    intro other member
    apply if_neg
    intro same
    rw [List.map_append, List.map_cons, List.nodup_middle, ← List.map_append,
      List.nodup_cons] at distinct
    exact distinct.1 (same ▸ List.mem_map_of_mem member)
  rw [List.map_append, List.map_cons,
    List.map_congr_left fun other member => apart other (List.mem_append_left _ member),
    List.map_congr_left fun other member => apart other (List.mem_append_right _ member),
    List.map_id', List.map_id', answered, if_pos rfl]

theorem Ringed.deliver (ringed : Ringed w) (callId : CallId) (status : Int32)
    (result : Option Bytes) (resultLen : Nat)
    (keeps : KeepsCalls w (.deliver callId status result resultLen)) :
    Ringed (step w (.deliver callId status result resultLen)) := by
  rcases ringed.deliver_cases callId status result resultLen with
    ⟨missed, -⟩ | ⟨before, call, after, split, rfl, hit⟩
  · simpa [step, missed] using ringed
  · obtain ⟨first, proper, fits, readable⟩ := keeps call (by simp [split]) rfl
    have distinct := ringed.outstanding_nodup
    have answers := map_answered (split ▸ distinct) (status, carried result resultLen)
    have window := ringed.window
    have room := ringed.room
    rw [split] at window room
    simp only [step, hit, if_true, split, answers]
    refine ⟨?_, ?_, ?_, ringed.small, ringed.fresh, ringed.distinct, ?_, ?_⟩
    · have agree := window before.length call (by simp)
      refine window.write room ⟨agree.valid, agree.callId, by simp, ?_⟩
      rintro _ _ ⟨⟩
      refine ⟨rfl, proper, Nat.min_le_right .., ?_⟩
      simp only [Nat.min_eq_left fits, carried]
      cases result with
      | none =>
          have empty : resultLen = 0 := Nat.le_zero.mp readable
          simp [empty]
      | some bytes => exact take_memcpy readable
    · simpa [split] using ringed.count
    · simpa using room
    · simpa [split] using ringed.issued
    · have waiting := ringed.delivered
      simp only [World.waiting, split, List.filterMap_append, List.filterMap_cons,
        Outstanding.delivered, first, Option.map_none, Option.map_some] at waiting ⊢
      refine (waiting.append_right _).trans ?_
      rw [List.append_assoc, List.append_assoc]
      exact .append_left _ (.append_left _ (List.perm_append_singleton ..))

theorem filter_newest {before : List Outstanding}
    (distinct : ((before ++ [call]).map Outstanding.callId).Nodup) :
    (before ++ [call]).filter (fun other => other.callId ≠ call.callId) = before := by
  have apart : ∀ other ∈ before, other.callId ≠ call.callId := by
    intro other member same
    rw [List.map_append, List.map_singleton, ← List.concat_eq_append,
      List.nodup_concat] at distinct
    exact distinct.1 (same ▸ List.mem_map_of_mem member)
  rw [List.filter_append, List.filter_eq_self.mpr (by simpa using apart)]
  simp

theorem Ringed.poll (ringed : Ringed w) (out : Bool)
    (keeps : KeepsCalls w (.poll out)) : Ringed (step w (.poll out)) := by
  cases out with
  | false => exact ringed
  | true =>
      rcases ringed.poll_cases with
        ⟨missed, -⟩ | ⟨before, call, after, answer, split, given, earlier, hit⟩
      · simpa [step, missed] using ringed
      · have last : after = [] := by
          by_contra more
          have inner : call ∈ w.outstanding.dropLast := by
            rw [split, List.dropLast_append_of_ne_nil (by simp),
              List.dropLast_cons_of_ne_nil more]
            simp
          rw [keeps rfl call inner] at given
          cases given
        subst last
        have distinct := ringed.outstanding_nodup
        rw [split] at distinct
        have window := ringed.window
        have room := ringed.room
        have idle : before.filterMap Outstanding.delivered = [] := by
          rw [List.filterMap_eq_nil_iff]
          intro other member
          simp [Outstanding.delivered, earlier other member]
        rw [split] at window room
        rw [List.length_append] at room
        simp only [step, hit, split, filter_newest distinct]
        refine ⟨?_, ?_, Nat.le_of_lt room, ringed.small, ringed.fresh, ringed.distinct,
          ?_, ?_⟩
        · exact window.left.frame room
        · simp [ringed.count, split]
        · refine ringed.issued.trans ?_
          simp only [split, List.map_append, List.map_singleton, List.append_assoc]
          exact .append_left _ (List.perm_append_comm)
        · refine ringed.delivered.trans ?_
          simp [World.waiting, split, idle, Outstanding.delivered, given]

end Calls

theorem Ringed.step {w : World} (ringed : Ringed w) (op : Op)
    (keeps : KeepsCalls w op) : Ringed (step w op) := by
  cases op with
  | invoke key args argsLen => exact ringed.invoke key args argsLen keeps
  | deliver callId status result resultLen =>
      exact ringed.deliver callId status result resultLen keeps
  | poll out => exact ringed.poll out keeps

/-- A run whose steps all keep the window free of holes loses no call. -/
theorem callsExact_of_keeps (ops : List Op)
    (keeps : Along step KeepsCalls World.boot ops) :
    Exact (ops.foldl step World.boot) :=
  (keeps.invariant (fun _ op ringed keeps => ringed.step op keeps) ringed_boot).exact

def twoCalls : List Op :=
  [.invoke (some (.ofBytes (ascii "key"))) none 0, .invoke (some (.ofBytes (ascii "key"))) none 0,
    .deliver 2 0 (some [7]) 1, .poll true, .deliver 1 (-1) none 0, .poll true]

theorem callsExact_of_keeps_twoCalls : Exact (twoCalls.foldl step World.boot) :=
  callsExact_of_keeps twoCalls (by decide)

/-- A result polled from the older of two calls hides the newer one. -/
theorem callsExact_fails :
    ¬ Exact (([.invoke (some (.ofBytes (ascii "key"))) none 0,
      .invoke (some (.ofBytes (ascii "key"))) none 0,
      .deliver 1 0 none 0, .poll true] : List Op).foldl step World.boot) := by
  intro exact
  have found := exact.deliverable 2 0 none 0
  revert found
  decide

end Metal.Net.Rpc
