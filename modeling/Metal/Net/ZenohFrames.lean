import Metal.Net.Zenoh

namespace Metal.Net.Zenoh

open Metal.Lib

/-! What the decoder is handed of a stream of frames, however the socket cuts it. -/

def frame (body : Bytes) : Bytes := natLe 2 body.length ++ body

def encode (bodies : List Bytes) : Bytes := bodies.flatMap frame

/-- What was consumed of the frames to come is a part of the first of them. -/
def Within (part : Bytes) (todo : List Bytes) : Prop :=
  part = [] ∨ ∃ body rest, todo = body :: rest ∧ part.length < (frame body).length

/-- Some bodies were handed over in order, and a part of the next frame is read; or the
socket failed there, or the decoder refused the last of them. -/
inductive Sound (decode : Bytes → Bool) (frames : List Bytes) (s : Session) : Prop
  | reading {part todo} (split : frames = s.handed ++ todo) (alive : s.failed = none)
      (consumed : part ++ s.sock.rest = encode todo) (within : Within part todo)
  | lost {part todo} (split : frames = s.handed ++ todo) (failed : s.failed = some .recv)
      (consumed : part ++ s.sock.rest = encode todo) (within : Within part todo)
  | refused {front body todo} (split : frames = front ++ body :: todo)
      (handed : s.handed = front ++ [body]) (failed : s.failed = some .decode)
      (refused : decode body = false) (consumed : s.sock.rest = encode todo)

def Fit (s : Session) : Prop :=
  s.ac.lenKnown = false → ∀ n plan, s.sock.plan = some n :: plan →
    (s.sock.rest.take (min n 2)).length ≠ 1

instance (s : Session) : Decidable (Fit s) :=
  decidable_of_iff (s.ac.lenKnown = false → ∀ n ∈ s.sock.plan.head?.join,
      (s.sock.rest.take (min n 2)).length ≠ 1)
    (imp_congr_right fun _ => by cases plan : s.sock.plan with | nil => simp | cons recv plan => simp)

/-- The last `recv` that was asked gave nothing. -/
def Blocked (plan : List (Option Nat)) (sock : Sock) : Prop :=
  sock.plan = [] ∨ ∃ asked n, plan = asked ++ some n :: sock.plan ∧ (n = 0 ∨ sock.rest = [])

inductive Runs (decode : Bytes → Bool) (fit : Session → Prop) (sock : Sock) : Session → Prop
  | start : Runs decode fit sock (.start sock)
  | call {s} (run : Runs decode fit sock s) (fits : fit s) :
      Runs decode fit sock (s.call decode)

structure Sized (ac : Accept) : Prop where
  mini : ac.miniBuf.length = 2
  scratch : ac.inBuf.length = bufMax

structure Between (ac : Accept) : Prop extends Sized ac where
  lenKnown : ac.lenKnown = false
  miniOff : ac.miniOff = 0
  bodyOff : ac.bodyOff = 0

structure Inside (ac : Accept) (rest body : Bytes) (todo : List Bytes) : Prop
    extends Sized ac where
  lenKnown : ac.lenKnown = true
  len : ac.len = body.length
  off : ac.bodyOff ≤ body.length
  got : ac.inBuf.take ac.bodyOff = body.take ac.bodyOff
  rest : rest = body.drop ac.bodyOff ++ encode todo

section Readers

variable {ac : Accept} {rest body : Bytes} {todo : List Bytes} {plan : List (Option Nat)}

theorem natLe_two (n : Nat) : natLe 2 n = [UInt8.ofNat n, UInt8.ofNat (n / 256)] := rfl

theorem length_read (body : Bytes) (small : body.length < 65536) :
    (UInt8.ofNat body.length).toNat ||| (UInt8.ofNat (body.length / 256)).toNat <<< 8 =
      body.length := by
  have low : (UInt8.ofNat body.length).toNat < 2 ^ 8 := UInt8.toNat_lt _
  rw [Nat.or_comm, ← Nat.shiftLeft_add_eq_or_of_lt low, Nat.shiftLeft_eq]
  simp
  omega

theorem encode_cons : encode (body :: todo) = natLe 2 body.length ++ (body ++ encode todo) := by
  rw [encode, List.flatMap_cons, frame, List.append_assoc]
  rfl

theorem lenFrom_between (between : Between ac) (stream : rest = encode todo)
    (fits : ∀ n plan', plan = some n :: plan' → (rest.take (min n 2)).length ≠ 1) :
    (∃ plan', lenFrom ac rest plan = (.park, ac, ⟨rest, plan'⟩)) ∨
      (∃ plan', lenFrom ac rest plan = (.error .recv, ac, ⟨rest, plan'⟩)) ∨
      ∃ body todo' plan', todo = body :: todo' ∧
        lenFrom ac rest plan =
          (.done, { ac with miniBuf := natLe 2 body.length, miniOff := 2 },
            ⟨body ++ encode todo', plan'⟩) := by
  have under : ac.miniOff < 2 := by rw [between.miniOff]; decide
  cases plan with
  | nil => exact .inl ⟨[], by rw [lenFrom, if_pos under]⟩
  | cons recv plan =>
      cases recv with
      | none => exact .inr (.inl ⟨plan, by rw [lenFrom, if_pos under]⟩)
      | some n =>
          rw [lenFrom, if_pos under]
          dsimp only
          split
          · exact .inl ⟨plan, rfl⟩
          · rename_i some_
            have two : (rest.take (min n 2)).length = 2 := by
              have other := fits n plan rfl
              have most : (rest.take (min n 2)).length ≤ 2 := by
                rw [List.length_take]
                omega
              omega
            have wide : min n 2 = 2 ∧ 2 ≤ rest.length := by
              rw [List.length_take] at two
              omega
            rw [wide.1] at two ⊢
            cases todo with
            | nil =>
                rw [stream] at wide
                exact absurd wide.2 (by decide)
            | cons body todo =>
                rw [encode_cons] at stream
                have first : rest.take 2 = natLe 2 body.length := by
                  rw [stream, List.take_left' (length_natLe ..)]
                have behind : rest.drop 2 = body ++ encode todo := by
                  rw [stream, List.drop_left' (length_natLe ..)]
                have written : writeAt 0 (natLe 2 body.length) ac.miniBuf =
                    natLe 2 body.length := by
                  rw [writeAt, List.drop_of_length_le (by rw [length_natLe, between.mini])]
                  simp
                refine .inr (.inr ⟨body, todo, plan, rfl, ?_⟩)
                rw [first, length_natLe, behind, written, between.miniOff]
                cases plan with
                | nil => rfl
                | cons => rfl

theorem Inside.read (inside : Inside ac rest body todo) (fits : body.length ≤ bufMax) {n : Nat}
    (under : ac.bodyOff < ac.len) :
    Inside { ac with
        inBuf := writeAt ac.bodyOff (rest.take (min n (ac.len - ac.bodyOff))) ac.inBuf
        bodyOff := ac.bodyOff + (rest.take (min n (ac.len - ac.bodyOff))).length }
      (rest.drop (rest.take (min n (ac.len - ac.bodyOff))).length) body todo := by
  have len := inside.len
  have scratch := inside.scratch
  have long : (body.drop ac.bodyOff).length = ac.len - ac.bodyOff := by
    rw [List.length_drop, len]
  have taken : rest.take (min n (ac.len - ac.bodyOff)) =
      (body.drop ac.bodyOff).take (min n (ac.len - ac.bodyOff)) := by
    rw [inside.rest, List.take_append_of_le_length (by omega)]
  have size : (rest.take (min n (ac.len - ac.bodyOff))).length = min n (ac.len - ac.bodyOff) := by
    rw [taken, List.length_take]
    omega
  rw [size, taken]
  have fill : ac.bodyOff + min n (ac.len - ac.bodyOff) ≤ ac.inBuf.length := by omega
  have chunk : ((body.drop ac.bodyOff).take (min n (ac.len - ac.bodyOff))).length =
      min n (ac.len - ac.bodyOff) := by rw [← taken, size]
  refine ⟨⟨inside.mini, ?_⟩, inside.lenKnown, len, ?_, ?_, ?_⟩
  · change (writeAt _ _ _).length = _
    rw [length_writeAt (by rw [chunk]; exact fill), scratch]
  · change ac.bodyOff + _ ≤ _
    omega
  · change (writeAt _ _ _).take (ac.bodyOff + _) = body.take (ac.bodyOff + _)
    have whole := take_writeAt ((body.drop ac.bodyOff).take (min n (ac.len - ac.bodyOff)))
      (show ac.bodyOff ≤ ac.inBuf.length by omega)
    rw [chunk] at whole
    rw [whole, inside.got, ← List.take_add]
  · change rest.drop _ = body.drop (ac.bodyOff + _) ++ _
    rw [inside.rest, List.drop_append_of_le_length (by omega), List.drop_drop]

theorem bodyFrom_inside (plan : List (Option Nat)) (inside : Inside ac rest body todo)
    (fits : body.length ≤ bufMax) :
    ∃ ac' rest' plan', Inside ac' rest' body todo ∧
      (ac'.bodyOff < body.length ∧
          (bodyFrom ac rest plan = (.park, ac', ⟨rest', plan'⟩) ∨
            bodyFrom ac rest plan = (.error .recv, ac', ⟨rest', plan'⟩)) ∨
        ac'.bodyOff = body.length ∧ bodyFrom ac rest plan = (.done, ac', ⟨rest', plan'⟩)) := by
  induction plan generalizing ac rest with
  | nil =>
      refine ⟨ac, rest, [], inside, ?_⟩
      have off := inside.off
      rw [bodyFrom, inside.len]
      split
      · rename_i under
        exact .inl ⟨under, .inl rfl⟩
      · rename_i full
        exact .inr ⟨by omega, rfl⟩
  | cons recv plan ih =>
      have off := inside.off
      by_cases under : ac.bodyOff < ac.len
      · have here : ac.bodyOff < body.length := by rw [← inside.len]; exact under
        cases recv with
        | none => exact ⟨ac, rest, plan, inside, .inl ⟨here, .inr (by rw [bodyFrom, if_pos under])⟩⟩
        | some n =>
            rw [bodyFrom, if_pos under]
            dsimp only
            split
            · exact ⟨ac, rest, plan, inside, .inl ⟨here, .inl rfl⟩⟩
            · exact ih (inside.read fits under)
      · have full : ac.bodyOff = body.length := by
          rw [inside.len] at under
          omega
        refine ⟨ac, rest, recv :: plan, inside, .inr ⟨full, ?_⟩⟩
        cases recv <;> rw [bodyFrom, if_neg under]

end Readers

inductive Reading (ac : Accept) (rest : Bytes) : List Bytes → Prop
  | between {todo} (between : Between ac) (stream : rest = encode todo) : Reading ac rest todo
  | inside {body todo} (inside : Inside ac rest body todo) (under : ac.bodyOff < body.length) :
      Reading ac rest (body :: todo)

inductive Outcome (decode : Bytes → Bool) :
    List Bytes → Status × Accept × Sock × Option Bytes → Prop
  | parked {todo ac sock} (reading : Reading ac sock.rest todo) :
      Outcome decode todo (.park, ac, sock, none)
  | lost {todo ac sock} (reading : Reading ac sock.rest todo) :
      Outcome decode todo (.error .recv, ac, sock, none)
  | taken {body todo ac sock} (between : Between ac) (stream : sock.rest = encode todo) :
      Outcome decode (body :: todo) (.done, ac, sock, some body)
  | refused {body todo ac sock} (refused : decode body = false)
      (stream : sock.rest = encode todo) :
      Outcome decode (body :: todo) (.error .decode, ac, sock, some body)

inductive Track (decode : Bytes → Bool) (frames : List Bytes) (s : Session) : Prop
  | alive {todo} (split : frames = s.handed ++ todo) (alive : s.failed = none)
      (reading : Reading s.ac s.sock.rest todo)
  | failed (failed : s.failed ≠ none) (sound : Sound decode frames s)

section Calls

variable {decode : Bytes → Bool} {frames todo : List Bytes} {ac : Accept} {sock : Sock}
  {s : Session} {body rest : Bytes}

theorem Reading.part (reading : Reading ac rest todo) :
    ∃ part, part ++ rest = encode todo ∧ Within part todo := by
  cases reading with
  | between _ stream => exact ⟨[], stream, .inl rfl⟩
  | @inside body todo inside under =>
      refine ⟨natLe 2 body.length ++ body.take ac.bodyOff, ?_, .inr ⟨body, todo, rfl, ?_⟩⟩
      · rw [inside.rest, encode_cons, List.append_assoc, ← List.append_assoc (body.take _),
          List.take_append_drop]
      · rw [frame, List.length_append, List.length_append, List.length_take]
        omega

theorem recvBody_inside (inside : Inside ac sock.rest body todo) (fits : body.length ≤ bufMax) :
    Outcome decode (body :: todo) (recvBody decode ac sock) := by
  obtain ⟨ac', rest', plan', inside', ⟨under, stopped | stopped⟩ | ⟨full, whole⟩⟩ :=
    bodyFrom_inside sock.plan inside fits
  · rw [recvBody, acceptBodyStep, stopped]
    exact .parked (.inside inside' under)
  · rw [recvBody, acceptBodyStep, stopped]
    exact .lost (.inside inside' under)
  · have got : ac'.inBuf.take ac'.len = body := by
      have got := inside'.got
      rw [full, List.take_length] at got
      rw [inside'.len, got]
    have stream : rest' = encode todo := by
      rw [inside'.rest, full, List.drop_length, List.nil_append]
    rw [recvBody, acceptBodyStep, whole]
    dsimp only
    rw [got]
    split
    · exact .taken ⟨⟨inside'.mini, inside'.scratch⟩, rfl, rfl, rfl⟩ stream
    · rename_i refused
      exact .refused (by simpa using refused) stream

theorem acceptRecvTmsg_reading (decode : Bytes → Bool) (reading : Reading ac sock.rest todo)
    (fits : ac.lenKnown = false → ∀ n plan, sock.plan = some n :: plan →
      (sock.rest.take (min n 2)).length ≠ 1)
    (small : ∀ body ∈ todo, body.length ≤ bufMax) :
    Outcome decode todo (acceptRecvTmsg decode ac sock) := by
  cases reading with
  | inside inside under =>
      rw [acceptRecvTmsg, if_pos inside.lenKnown]
      exact recvBody_inside inside (small _ List.mem_cons_self)
  | between between stream =>
      rw [acceptRecvTmsg, if_neg (by rw [between.lenKnown]; exact Bool.false_ne_true),
        acceptLenStep]
      obtain ⟨plan, stopped⟩ | ⟨plan, stopped⟩ | ⟨body, todo, plan, rfl, read⟩ :=
        lenFrom_between between stream (fits between.lenKnown)
      · rw [stopped]
        exact .parked (.between between stream)
      · rw [stopped]
        exact .lost (.between between stream)
      · have short : body.length ≤ bufMax := small body List.mem_cons_self
        have len := length_read body (Nat.lt_of_le_of_lt short (by decide))
        rw [read]
        dsimp only
        rw [natLe_two, List.getD_cons_zero, List.getD_cons_succ, List.getD_cons_zero, len,
          if_neg (Nat.not_lt.mpr short)]
        refine recvBody_inside ⟨⟨rfl, between.scratch⟩, rfl, rfl, ?_, ?_, ?_⟩ short
        · change ac.bodyOff ≤ _
          rw [between.bodyOff]
          exact Nat.zero_le _
        · change ac.inBuf.take ac.bodyOff = body.take ac.bodyOff
          rw [between.bodyOff, List.take_zero, List.take_zero]
        · change _ = body.drop ac.bodyOff ++ _
          rw [between.bodyOff, List.drop_zero]

theorem Track.sound (track : Track decode frames s) : Sound decode frames s := by
  cases track with
  | alive split alive reading =>
      obtain ⟨part, consumed, within⟩ := reading.part
      exact .reading split alive consumed within
  | failed _ sound => exact sound

theorem Track.call (track : Track decode frames s) (fits : Fit s)
    (small : ∀ body ∈ frames, body.length ≤ bufMax) : Track decode frames (s.call decode) := by
  cases track with
  | failed failed sound =>
      rw [Session.call, if_pos (Option.isSome_iff_ne_none.mpr failed)]
      exact .failed failed sound
  | @alive todo split alive reading =>
      have outcome := acceptRecvTmsg_reading decode reading fits
        (fun body member => small body (by rw [split]; exact List.mem_append_right _ member))
      rw [Session.call, if_neg (by rw [alive]; exact Bool.false_ne_true)]
      revert outcome
      generalize acceptRecvTmsg decode s.ac s.sock = result
      intro outcome
      cases outcome with
      | parked reading =>
          exact .alive (split.trans (by simp)) rfl reading
      | lost reading =>
          obtain ⟨part, consumed, within⟩ := reading.part
          exact .failed (Option.some_ne_none _)
            (.lost (split.trans (by simp)) rfl consumed within)
      | taken between stream =>
          refine .alive ?_ rfl (.between between stream)
          rw [split]
          simp
      | refused refused stream =>
          exact .failed (Option.some_ne_none _) (.refused split rfl rfl refused stream)

theorem Sound.whole (sound : Sound decode frames s) (alive : s.failed = none)
    (empty : s.sock.rest = []) : s.handed = frames := by
  cases sound with
  | @reading part todo split _ consumed within =>
      rw [empty, List.append_nil] at consumed
      cases todo with
      | nil => rw [split, List.append_nil]
      | cons body todo =>
          have size : part.length = (frame body).length + (encode todo).length := by
            rw [consumed, encode, List.flatMap_cons, List.length_append]
            rfl
          have some_ : 2 ≤ (frame body).length := by
            rw [frame, List.length_append, length_natLe]
            omega
          rcases within with rfl | ⟨_, _, ⟨⟩, short⟩
          · rw [List.length_nil] at size
            omega
          · omega
  | lost _ failed | refused _ _ failed =>
      rw [alive] at failed
      cases failed

end Calls

section Parking

variable {ac ac' : Accept} {rest : Bytes} {plan : List (Option Nat)} {sock : Sock}

theorem Blocked.before {plan' : List (Option Nat)} (blocked : Blocked plan' sock)
    (later : plan' <:+ plan) : Blocked plan sock := by
  obtain ⟨before, rfl⟩ := later
  refine blocked.imp_right fun ⟨asked, n, split, nothing⟩ => ⟨before ++ asked, n, ?_, nothing⟩
  rw [split, List.append_assoc]

theorem blocked_now {n k : Nat} (some_ : 0 < k) (nothing : (rest.take (min n k)).length = 0) :
    Blocked (some n :: plan) ⟨rest, plan⟩ := by
  refine .inr ⟨[], n, rfl, ?_⟩
  rw [List.length_take] at nothing
  rw [← List.length_eq_zero_iff]
  dsimp only
  omega

theorem lenFrom_blocked (parks : lenFrom ac rest plan = (.park, ac', sock)) :
    Blocked plan sock := by
  fun_induction lenFrom ac rest plan with
  | case1 ac rest =>
      cases (Prod.mk.inj (Prod.mk.inj parks).2).2
      exact .inl rfl
  | case2 => cases parks
  | case3 ac rest plan under n got nothing =>
      cases parks
      exact blocked_now (by decide) nothing
  | case4 ac rest plan under n got some_ ih => exact (ih parks).before (List.suffix_cons ..)
  | case5 => cases parks

theorem bodyFrom_blocked (parks : bodyFrom ac rest plan = (.park, ac', sock)) :
    Blocked plan sock := by
  fun_induction bodyFrom ac rest plan with
  | case1 ac rest =>
      cases (Prod.mk.inj (Prod.mk.inj parks).2).2
      exact .inl rfl
  | case2 => cases parks
  | case3 ac rest plan under n got nothing =>
      cases parks
      exact blocked_now (Nat.sub_pos_of_lt under) nothing
  | case4 ac rest plan under n got some_ ih => exact (ih parks).before (List.suffix_cons ..)
  | case5 => cases parks

theorem lenFrom_suffix (ac : Accept) (rest : Bytes) (plan : List (Option Nat)) :
    (lenFrom ac rest plan).2.2.plan <:+ plan := by
  fun_induction lenFrom ac rest plan with
  | case1 => exact List.suffix_refl _
  | case2 => exact List.suffix_cons ..
  | case3 => exact List.suffix_cons ..
  | case4 _ _ _ _ _ _ _ ih => exact ih.trans (List.suffix_cons ..)
  | case5 => exact List.suffix_refl _

theorem acceptRecvTmsg_blocked {decode : Bytes → Bool} {body : Option Bytes} {sock' : Sock}
    (parks : acceptRecvTmsg decode ac sock = (.park, ac', sock', body)) :
    Blocked sock.plan sock' := by
  have parked {ac : Accept} {sock : Sock}
      (parks : recvBody decode ac sock = (.park, ac', sock', body)) : Blocked sock.plan sock' := by
    unfold recvBody acceptBodyStep at parks
    split at parks
    · dsimp only at parks
      split at parks <;> cases parks
    · rename_i _ result
      cases parks
      exact bodyFrom_blocked result
  have begun := lenFrom_suffix ac sock.rest sock.plan
  unfold acceptRecvTmsg acceptLenStep at parks
  split at parks
  · exact parked parks
  · split at parks
    · rename_i result
      rw [result] at begun
      dsimp only at parks
      split at parks
      · cases parks
      · exact (parked parks).before begun
    · rename_i _ result
      cases parks
      exact lenFrom_blocked result

end Parking

theorem frames_handed (decode : Bytes → Bool) (frames : List Bytes)
    (small : ∀ body ∈ frames, body.length ≤ bufMax) (plan : List (Option Nat)) (s : Session)
    (run : Runs decode Fit ⟨encode frames, plan⟩ s) :
    Sound decode frames s ∧
      (s.failed = none → s.sock.rest = [] → s.handed = frames) ∧
      ∀ ac sock body, acceptRecvTmsg decode s.ac s.sock = (.park, ac, sock, body) →
        Blocked s.sock.plan sock := by
  have track : Track decode frames s := by
    induction run with
    | start =>
        exact .alive rfl rfl (.between ⟨⟨rfl, List.length_replicate⟩, rfl, rfl, rfl⟩ rfl)
    | call _ fits track => exact track.call fits small
  exact ⟨track.sound, track.sound.whole, fun _ _ _ => acceptRecvTmsg_blocked⟩

def twoFrames : List Bytes := [[7, 8], [9]]

/-- The first body comes in two pieces, with nothing between them. -/
def brokenPlan : List (Option Nat) := [some 2, some 1, some 0, some 1, some 2, some 5]

theorem frames_handed_two :
    ∃ s, Runs (fun _ => true) Fit ⟨encode twoFrames, brokenPlan⟩ s ∧ s.handed = twoFrames ∧
      Sound (fun _ => true) twoFrames s := by
  have run : Runs (fun _ => true) Fit ⟨encode twoFrames, brokenPlan⟩
      (.call _ (.call _ (.call _ _))) :=
    .call (.call (.call .start (by decide +kernel)) (by decide +kernel)) (by decide +kernel)
  exact ⟨_, run, by decide +kernel, (frames_handed _ twoFrames (by decide) brokenPlan _ run).1⟩

def oneFrame : List Bytes := [[7, 8]]

def bytewise : Sock := ⟨encode oneFrame, [some 1, some 2, some 1]⟩

/-- All bytes are consumed, and nothing is handed over. -/
theorem bytewise_lost :
    ∃ s, Runs (fun _ => true) (fun _ => True) bytewise s ∧ s.failed = none ∧
      s.sock.rest = [] ∧ s.handed = [] ∧ ¬ Sound (fun _ => true) oneFrame s := by
  let s := (Session.start bytewise).call fun _ => true
  have alive : s.failed = none := by decide +kernel
  have empty : s.sock.rest = [] := by decide +kernel
  have none_ : s.handed = [] := by decide +kernel
  refine ⟨s, .call .start trivial, alive, empty, none_, fun sound => ?_⟩
  have whole := sound.whole alive empty
  rw [none_] at whole
  cases whole

end Metal.Net.Zenoh
