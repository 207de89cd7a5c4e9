import Metal.Coop.Available
import Metal.Lib.Counter

namespace Metal.Coop

open Metal.Lib Function

/-! The ready ring of one runner as a bounded queue. -/

/-- A push, or a claim whose slot is released before anything else happens. -/
inductive RingAct
  | push (payload : TaskPtr)
  | take

inductive RingAnswer
  | pushed (stored : Bool)
  | took (payload : Option TaskPtr)

def ringAct (n : Nat) : RingAct → RingProgram RingAnswer
  | .push payload => do
      let stored ← ringPush n ringKindTask payload
      pure (.pushed stored)
  | .take => do
      match ← ringClaim n with
      | none => pure (.took none)
      | some (word, idx) =>
          ringRelease n idx
          pure (.took (some (payPtr (ringPay word))))

def ringActs (n : Nat) : List RingAct → RingProgram (List RingAnswer)
  | [] => pure []
  | act :: acts => do
      let answer ← ringAct n act
      let answers ← ringActs n acts
      pure (answer :: answers)

def queueAct (n : Nat) : RingAct → List TaskPtr → RingAnswer × List TaskPtr
  | .push payload, queue =>
      if queue.length < n then (.pushed true, queue ++ [payload]) else (.pushed false, queue)
  | .take, [] => (.took none, [])
  | .take, payload :: queue => (.took (some payload), queue)

def queueActs (n : Nat) : List RingAct → List TaskPtr → List RingAnswer
  | [], _ => []
  | act :: acts, queue =>
      (queueAct n act queue).1 :: queueActs n acts (queueAct n act queue).2

/-- The ring after a word was stored at `tail`. -/
def Inbox.stored (n : Nat) (word : Word) (box : Inbox) : Inbox :=
  { box with
    slot := update box.slot box.tail word
    tail := ringIndex n box.tail 1
    count := (box.count + 1) % 2 ^ 32 }

/-- The ring after the word at `head` was claimed and its slot released. -/
def Inbox.released (n : Nat) (box : Inbox) : Inbox :=
  { box with
    slot := update
      (update box.slot box.head (claimedWord (box.slot box.head))) box.head ringStEmpty
    head := ringIndex n box.head 1
    count := (box.count + (2 ^ 32 - 1)) % 2 ^ 32 }

/-- The queued payloads fill the slots from `head` up to `tail`. -/
structure Queued (n : Nat) (box : Inbox) (queue : List TaskPtr) : Prop where
  room : queue.length ≤ n
  count : box.count = queue.length
  head : box.head < n
  tail : box.tail = (box.head + queue.length) % n
  filled : ∀ i payload, queue[i]? = some payload →
    box.slot ((box.head + i) % n) = ringPack ringStReady ringKindTask (ptrPay payload)
  empty : ∀ i, queue.length ≤ i → i < n → box.slot ((box.head + i) % n) = ringStEmpty

variable {n : Nat} {box : Inbox} {queue : List TaskPtr}

theorem queued_start (positive : 0 < n) : Queued n (emptyInbox n) [] where
  room := Nat.zero_le n
  count := rfl
  head := positive
  tail := (Nat.zero_mod n).symm
  filled _ _ there := by cases there
  empty _ _ _ := rfl

theorem ring_apart (head : Nat) {i j : Nat} (first : i < n) (second : j < n) (different : i ≠ j) :
    (head + i) % n ≠ (head + j) % n := by
  intro same
  rcases Nat.lt_or_gt_of_ne different with less | less
  · have := mod_near (by omega : head + i ≤ head + j) (by omega) same
    omega
  · have := mod_near (by omega : head + j ≤ head + i) (by omega) same.symm
    omega

theorem ringIndex_wraps {k : Nat} (small : k < 32) (start i : Nat) :
    ringIndex (2 ^ k) start i = (start + i) % 2 ^ k := by
  rw [ringIndex, Nat.and_two_pow_sub_one_eq_mod,
    Nat.mod_mod_of_dvd _ (Nat.pow_dvd_pow 2 (Nat.le_of_lt small))]

theorem ne_empty_of_pushed (payload : TaskPtr) :
    ringPack ringStReady ringKindTask (ptrPay payload) ≠ ringStEmpty :=
  ne_empty_of_ready (ringSt_ringPack _ (by decide) (by decide))

section Wrapping

variable {k : Nat} (small : k < 32)

include small

section Queued

variable (queued : Queued (2 ^ k) box queue) (payload : TaskPtr)
include queued payload

theorem Queued.push_solo (less : queue.length < 2 ^ k) :
    ringSolo (ringPush (2 ^ k) ringKindTask payload) box =
      (true, box.stored (2 ^ k) (ringPack ringStReady ringKindTask (ptrPay payload))) := by
  have small' : 2 ^ k < 2 ^ 32 := Nat.pow_lt_pow_right (by decide) small
  have inside := queued.head
  have at_ : ringIndex (2 ^ k) box.tail 0 = box.tail := by
    rw [ringIndex_wraps small, Nat.add_zero, queued.tail, Nat.mod_mod]
  have free : box.slot box.tail = ringStEmpty := by
    rw [queued.tail]
    exact queued.empty queue.length (Nat.le_refl _) less
  have hunt : ringHunt (2 ^ k) box.count ≠ 0 := by
    unfold ringHunt
    dsimp only
    split <;> split <;> omega
  obtain ⟨left, hunt⟩ := Nat.exists_eq_succ_of_ne_zero hunt
  simp only [ringPush, ringPushAttempt, Program.bind_eq, ringSolo_loadTail, ringSolo_loadCount]
  rw [hunt, ringSolo_bind, ringPushScan]
  simp only [Program.bind_eq]
  rw [at_, ringSolo_casSlot_won free]
  rfl

theorem Queued.push (less : queue.length < 2 ^ k) :
    Queued (2 ^ k) (box.stored (2 ^ k) (ringPack ringStReady ringKindTask (ptrPay payload)))
      (queue ++ [payload]) := by
  have small' : 2 ^ k < 2 ^ 32 := Nat.pow_lt_pow_right (by decide) small
  have length : (queue ++ [payload]).length = queue.length + 1 := List.length_append
  exact {
    room := by omega
    count := by
      rw [Inbox.stored, queued.count, length, Nat.mod_eq_of_lt (by omega)]
    head := queued.head
    tail := by
      rw [Inbox.stored]
      dsimp only
      rw [ringIndex_wraps small, queued.tail, Nat.mod_add_mod, length, Nat.add_assoc]
    filled := fun i payload' there => by
      rw [Inbox.stored]
      dsimp only
      rcases Nat.lt_or_ge i queue.length with before | last
      · rw [List.getElem?_append_left before] at there
        rw [queued.tail, update_of_ne]
        · exact queued.filled i payload' there
        · exact ring_apart _ (by omega) less (Nat.ne_of_lt before)
      · have here := (List.getElem?_eq_some_iff.mp there).1
        obtain rfl : i = queue.length := by omega
        rw [List.getElem?_concat_length] at there
        cases there
        rw [queued.tail, update_self]
    empty := fun i beyond below => by
      rw [Inbox.stored]
      dsimp only
      rw [queued.tail, update_of_ne]
      · exact queued.empty i (by omega) below
      · exact ring_apart _ below less (by omega) }

theorem Queued.refuses (full : ¬ queue.length < 2 ^ k) :
    ringSolo (ringPush (2 ^ k) ringKindTask payload) box = (false, box) := by
  have room := queued.room
  have inside := queued.head
  have taken (i : Nat) : box.slot (ringIndex (2 ^ k) box.tail i) ≠ ringStEmpty := by
    have below : i % 2 ^ k < queue.length := by
      have := Nat.mod_lt i (Nat.two_pow_pos k)
      omega
    rw [ringIndex_wraps small, queued.tail, Nat.mod_add_mod]
    have turn : (box.head + queue.length + i) % 2 ^ k = (box.head + i % 2 ^ k) % 2 ^ k := by
      have all : queue.length = 2 ^ k := by omega
      rw [all, Nat.add_right_comm, Nat.add_mod_right, Nat.add_mod_mod]
    rw [turn, queued.filled _ _ (List.getElem?_eq_getElem below)]
    exact ne_empty_of_pushed _
  have missed := ringPushScan_missed (n := 2 ^ k) (ringPack ringStReady ringKindTask
    (ptrPay payload)) box.tail (ringHunt (2 ^ k) box.count) 0 fun j _ => taken (0 + j)
  simp only [ringPush, ringPushAttempt, Program.bind_eq, ringSolo_loadTail, ringSolo_loadCount]
  rw [ringSolo_bind, missed]
  simp only [Bool.false_eq_true, if_false, ringSolo_loadCount]
  rw [ringSolo_ite, if_pos (by rw [queued.count]; omega)]
  rfl

end Queued

theorem Queued.take_solo {payload : TaskPtr} (queued : Queued (2 ^ k) box (payload :: queue)) :
    ringSolo (ringAct (2 ^ k) .take) box =
      (.took (some payload), box.released (2 ^ k)) := by
  have inside := queued.head
  have at_ : ringIndex (2 ^ k) box.head 0 = box.head := by
    rw [ringIndex_wraps small, Nat.add_zero, Nat.mod_eq_of_lt inside]
  have word : box.slot box.head = ringPack ringStReady ringKindTask (ptrPay payload) := by
    have first := queued.filled 0 payload rfl
    rwa [Nat.add_zero, Nat.mod_eq_of_lt inside] at first
  have counted : box.count ≠ 0 := by
    rw [queued.count]
    exact Nat.succ_ne_zero _
  have ready : ringSt (box.slot box.head) = ringStReady := by
    rw [word, ringSt_ringPack _ (by decide) (by decide)]
  have task : ringKind (box.slot box.head) ≠ ringKindStop := by
    rw [word, ringKind_ringPack _ (by decide) (by decide)]
    decide
  have same : payPtr (ringPay (claimedWord (box.slot box.head))) = payload := by
    rw [ringPay_claimedWord, word, payPtr_ringPay_ringPack _ (by decide) (by decide)]
  obtain ⟨left, whole⟩ := Nat.exists_eq_succ_of_ne_zero (Nat.two_pow_pos k).ne'
  have claims : ringSolo (ringClaim (2 ^ k)) box =
      (some (claimedWord (box.slot box.head), box.head),
        { box with
          slot := update box.slot box.head (claimedWord (box.slot box.head))
          head := ringIndex (2 ^ k) box.head 1 }) := by
    simp only [ringClaim, Program.bind_eq, ringSolo_loadCount]
    rw [if_neg counted, ringSolo_loadHead]
    have first : ringClaimScan (2 ^ k) box.head (2 ^ k) 0 =
        ringClaimScan (2 ^ k) box.head (left + 1) 0 :=
      congrArg (fun turns => ringClaimScan (2 ^ k) box.head turns 0) whole
    rw [first]
    simp only [ringClaimScan, Program.bind_eq, ringSolo_loadSlot]
    rw [at_, if_neg (not_not.mpr ready), if_neg task, ringSolo_casSlot_won rfl]
    rfl
  unfold ringAct
  simp only [Program.bind_eq]
  rw [ringSolo_bind, claims]
  dsimp only
  rw [ringSolo_bind, ringRelease, if_neg (Nat.not_le.mpr inside), same]
  rfl

theorem Queued.take {payload : TaskPtr} (queued : Queued (2 ^ k) box (payload :: queue)) :
    Queued (2 ^ k) (box.released (2 ^ k)) queue := by
  have small' : 2 ^ k < 2 ^ 32 := Nat.pow_lt_pow_right (by decide) small
  have room : queue.length + 1 ≤ 2 ^ k := queued.room
  have inside := queued.head
  have next : ringIndex (2 ^ k) box.head 1 = (box.head + 1) % 2 ^ k := ringIndex_wraps small ..
  have shift (i : Nat) : ((box.head + 1) % 2 ^ k + i) % 2 ^ k = (box.head + (i + 1)) % 2 ^ k := by
    rw [Nat.mod_add_mod, Nat.add_assoc, Nat.add_comm 1 i]
  have away (i : Nat) (below : i + 1 < 2 ^ k) : (box.head + (i + 1)) % 2 ^ k ≠ box.head := by
    have apart := ring_apart box.head below (Nat.two_pow_pos k) (Nat.succ_ne_zero i)
    rwa [Nat.add_zero box.head, Nat.mod_eq_of_lt inside] at apart
  exact {
    room := by omega
    count := by
      have count : box.count = queue.length + 1 := queued.count
      change (box.count + (2 ^ 32 - 1)) % 2 ^ 32 = _
      omega
    head := by
      change ringIndex (2 ^ k) box.head 1 < _
      rw [next]
      exact Nat.mod_lt _ (Nat.two_pow_pos k)
    tail := by
      change box.tail = (ringIndex (2 ^ k) box.head 1 + _) % _
      rw [next, shift]
      exact queued.tail
    filled := fun i payload' there => by
      change update (update _ _ _) _ _ ((ringIndex (2 ^ k) box.head 1 + i) % _) = _
      have below := (List.getElem?_eq_some_iff.mp there).1
      rw [next, shift, update_of_ne (away i (by omega)),
        update_of_ne (away i (by omega))]
      exact queued.filled (i + 1) payload' there
    empty := fun i beyond below => by
      change update (update _ _ _) _ _ ((ringIndex (2 ^ k) box.head 1 + i) % _) = _
      rw [next, shift]
      rcases Nat.lt_or_ge (i + 1) (2 ^ k) with inside' | last
      · rw [update_of_ne (away i inside'), update_of_ne (away i inside')]
        exact queued.empty (i + 1) (Nat.succ_le_succ beyond) inside'
      · have whole : i + 1 = 2 ^ k := by omega
        rw [whole, Nat.add_mod_right, Nat.mod_eq_of_lt inside, update_self] }

theorem Queued.act (queued : Queued (2 ^ k) box queue) (act : RingAct) :
    ∃ after, ringSolo (ringAct (2 ^ k) act) box = ((queueAct (2 ^ k) act queue).1, after) ∧
      Queued (2 ^ k) after (queueAct (2 ^ k) act queue).2 := by
  cases act with
  | push payload =>
      unfold queueAct
      dsimp only
      split
      · rename_i less
        refine ⟨_, ?_, queued.push small payload less⟩
        unfold ringAct
        simp only [Program.bind_eq]
        rw [ringSolo_bind, queued.push_solo small payload less]
        rfl
      · rename_i full
        refine ⟨box, ?_, queued⟩
        unfold ringAct
        simp only [Program.bind_eq]
        rw [ringSolo_bind, queued.refuses small payload full]
        rfl
  | take =>
      cases queue with
      | nil =>
          have none_ : box.count = 0 := queued.count
          refine ⟨box, ?_, queued⟩
          unfold ringAct
          simp only [ringClaim, Program.bind_eq]
          rw [ringSolo_bind, ringSolo_loadCount, if_pos none_]
          rfl
      | cons payload queue => exact ⟨_, queued.take_solo small, queued.take small⟩

theorem Queued.acts (queued : Queued (2 ^ k) box queue) (acts : List RingAct) :
    (ringSolo (ringActs (2 ^ k) acts) box).1 = queueActs (2 ^ k) acts queue := by
  induction acts generalizing box queue with
  | nil => rfl
  | cons act acts ih =>
      obtain ⟨after, answered, queued'⟩ := queued.act small act
      unfold ringActs queueActs
      simp only [Program.bind_eq]
      rw [ringSolo_bind, answered]
      dsimp only
      rw [ringSolo_bind, ih queued']
      rfl

end Wrapping

/-- Every run of pushes and claims on an empty ring of a power of two of slots. -/
theorem ring_refines_queue (k : Fin 32) (acts : List RingAct) :
    (ringSolo (ringActs (2 ^ k.val) acts) (emptyInbox (2 ^ k.val))).1 =
      queueActs (2 ^ k.val) acts [] :=
  (queued_start (Nat.two_pow_pos k.val)).acts k.isLt acts

end Metal.Coop
