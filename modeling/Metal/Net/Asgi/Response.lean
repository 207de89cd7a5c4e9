import Metal.Net.Asgi.Conn

namespace Metal.Net.Asgi

open Metal.Lib

/-! What one step of a connection sends: a header that tells the length of the body, and
the body after it. -/

def decimalValue (digits : Bytes) : Nat :=
  digits.foldl (fun n digit => 10 * n + (digit.toNat - 48)) 0

structure Decimal (digits : Bytes) (n : Nat) : Prop where
  some_ : digits ≠ []
  each : ∀ digit ∈ digits, 48 ≤ digit ∧ digit ≤ 57
  value : decimalValue digits = n

/-- A whole header, for a body of `n` bytes. -/
def WellFormed (hdr : Bytes) (n : Nat) : Prop :=
  ∃ type digits, Decimal digits n ∧
    hdr = ascii "HTTP/1.0 200 OK" ++ [13, 10] ++ ascii "Content-Type: " ++ type ++
      [13, 10] ++ ascii "Content-Length: " ++ digits ++ [13, 10, 13, 10]

theorem putTmp_digits (room v : Nat) :
    ∀ digit ∈ putTmp room v, 48 ≤ digit ∧ digit ≤ 57 := by
  induction room generalizing v with
  | zero => exact nofun
  | succ room ih =>
      intro digit member
      rcases List.mem_cons.mp member with rfl | member
      · have small : 48 + v % 10 < 2 ^ 8 := by omega
        rw [UInt8.le_iff_toNat_le, UInt8.le_iff_toNat_le, UInt8.toNat_ofNat',
          Nat.mod_eq_of_lt small]
        exact ⟨Nat.le_add_right .., Nat.le_of_lt_succ (by omega : 48 + v % 10 < 57 + 1)⟩
      · split at member
        · cases member
        · exact ih (v / 10) digit member

theorem putTmp_value {room v : Nat} (fits : v < 10 ^ room) :
    (putTmp room v).foldr (fun digit n => 10 * n + (digit.toNat - 48)) 0 = v := by
  induction room generalizing v with
  | zero =>
      rw [Nat.lt_one_iff.mp fits]
      rfl
  | succ room ih =>
      have small : 48 + v % 10 < 2 ^ 8 := by omega
      have digit : (UInt8.ofNat (48 + v % 10)).toNat - 48 = v % 10 := by
        rw [UInt8.toNat_ofNat', Nat.mod_eq_of_lt small]
        omega
      rw [putTmp, List.foldr_cons, digit]
      split
      · rename_i last
        rw [List.foldr_nil]
        omega
      · rw [ih (by rw [Nat.pow_succ] at fits; omega)]
        omega

theorem putU64_decimal {v : Nat} (fits : v < 10 ^ 20) : Decimal (putU64 v) v where
  some_ := by
    rw [putU64, Ne, List.reverse_eq_nil_iff]
    exact List.cons_ne_nil _ _
  each digit member := putTmp_digits 20 v digit (List.mem_reverse.mp member)
  value := by
    rw [decimalValue, putU64, List.foldl_reverse]
    exact putTmp_value fits

theorem header_wellFormed (c : Conn) (path : Bytes) (small : c.bodyLen < 2 ^ 32) :
    WellFormed (c.header path) c.bodyLen := by
  refine ⟨c.typeText path, putU64 c.bodyLen, putU64_decimal (by omega), ?_⟩
  rw [Conn.header, statusText, lengthText, tailText]
  simp only [List.append_assoc]

theorem header_ne_nil (c : Conn) (path : Bytes) : c.header path ≠ [] := by
  rw [Conn.header, statusText]
  simp [ascii]

def Conn.accounts (c : Conn) : Nat × Option Nat × Bool × Nat × Nat × Nat :=
  (c.id, c.fd, c.bodyBuf, c.closes, c.takes, c.frees)

/-- The body, whether the renderer gave it, and whether it is the one for none. -/
def Conn.answer (c : Conn) : Bytes × Nat × Bool × Bool :=
  (c.body, c.bodyLen, c.deferReady, c.busy)

structure Same (was c : Conn) : Prop where
  accounts : c.accounts = was.accounts
  answer : c.answer = was.answer

theorem Same.rfl {c : Conn} : Same c c := ⟨Eq.refl _, Eq.refl _⟩

variable {was : Conn}

theorem Same.trans {now c : Conn} (first : Same was now) (second : Same now c) : Same was c :=
  ⟨second.accounts.trans first.accounts, second.answer.trans first.answer⟩

structure Blank (c : Conn) : Prop where
  sent : c.sent = []
  given : c.given = []
  chunk : c.chunk = []
  streamSent : c.streamSent = 0
  dry : c.dry = false
  strays : c.strays = false
  small : c.bodyLen < 2 ^ 32

def Readable (c : Conn) : Prop := c.busy = false → c.stream = false → c.bodyLen ≤ c.body.length

structure Prepared (c : Conn) : Prop extends Blank c where
  readable : Readable c

structure Asking (c : Conn) : Prop extends Blank c where
  stream : c.stream = false
  busy : c.busy = false
  whole : c.bodyLen ≤ c.body.length

structure Heading (c : Conn) : Prop where
  header : WellFormed c.hdr c.bodyLen
  off : c.sndOff < c.hdr.length
  sent : c.sent = c.hdr.take c.sndOff
  given : c.given = []
  chunk : c.chunk = []
  streamSent : c.streamSent = 0
  dry : c.dry = false
  strays : c.strays = false
  readable : Readable c

structure Plain (c : Conn) : Prop where
  plain : c.stream = false
  header : WellFormed c.hdr c.bodyLen
  sent : ∃ body, c.sent = c.hdr ++ body ∧ body.length = c.sndOff ∧ c.body.take c.sndOff <+: body
  off : c.sndOff ≤ c.bodyLen
  strays : c.busy = false → c.strays = false
  readable : Readable c

structure Streaming (c : Conn) : Prop where
  stream : c.stream = true
  header : WellFormed c.hdr c.bodyLen
  sent : c.sent ++ c.chunk.drop c.sndOff = c.hdr ++ c.given
  length : c.streamSent + c.chunk.length = c.given.length + c.sndOff
  off : c.sndOff ≤ c.chunk.length
  within : c.given.length ≤ c.bodyLen
  strays : c.strays = false

inductive Sound (c : Conn) : Prop
  | receiving (step : c.step = 0) (asking : Asking c) (unheld : c.takes = 0)
      (unready : c.deferReady = false)
  | waiting (step : c.step = 3) (asking : Asking c)
      (unheld : c.deferReady = false → c.takes = 0)
  | heading (step : c.step = 1) (heading : Heading c)
  | plain (step : c.step = 2) (plain : Plain c)
  | streaming (step : c.step = 2) (streaming : Streaming c)

/-- What the producer of a stream gave, or as many bytes as were told: those of the connection's
block, as far as it goes. -/
def Conn.Body (c : Conn) (body : Bytes) : Prop :=
  if c.stream then body = c.given ∧ body.length ≤ c.bodyLen
  else body.length = c.bodyLen ∧ c.body.take c.bodyLen <+: body

def Conn.InOrder (c : Conn) : Prop :=
  ∃ hdr body, WellFormed hdr c.bodyLen ∧ c.Body body ∧ c.sent <+: hdr ++ body

/-- They are all of them, or all that the producer gave when it ended early. -/
def Conn.Answered (c : Conn) : Prop :=
  ∃ hdr body, WellFormed hdr c.bodyLen ∧ c.Body body ∧ c.sent = hdr ++ body ∧
    (body.length = c.bodyLen ∨ c.dry = true ∧ body.length < c.bodyLen)

structure Closing (status : Status) (c : Conn) : Prop where
  over_ : status ≠ .waiting
  inOrder : c.InOrder
  answered : status = .done → c.Answered
  strays : c.busy = false → c.strays = false

def Outcome.Proper (was : Conn) : Outcome → Prop
  | .stays status c => status = .waiting ∧ Same was c ∧ c.step ≠ 3 ∧ Sound c
  | .closes status c => Same was c ∧ Closing status c
  | .torn => False

theorem Outcome.Proper.trans {now : Conn} {outcome : Outcome} (proper : outcome.Proper now)
    (same : Same was now) : outcome.Proper was := by
  cases outcome with
  | stays status c => exact ⟨proper.1, same.trans proper.2.1, proper.2.2⟩
  | closes status c => exact ⟨same.trans proper.1, proper.2⟩
  | torn => exact proper

variable {c : Conn}

theorem length_peek (block : Bytes) (beyond : Nat → UInt8) (offset n : Nat) :
    (peek block beyond offset n).length = n := by
  rw [peek, List.length_map, List.length_range]

theorem peek_starts (block : Bytes) (beyond : Nat → UInt8) (offset n : Nat) :
    (block.drop offset).take n <+: peek block beyond offset n := by
  refine List.prefix_iff_getElem.mpr ⟨?_, fun i inside => ?_⟩
  · rw [length_peek]
    exact List.length_take_le ..
  · rw [List.length_take, List.length_drop] at inside
    have here : offset + i < block.length := by omega
    simp [peek, List.getD_eq_getElem?_getD, here]

theorem take_add_prefix {front block more : Bytes} {n : Nat}
    (starts : block.take front.length <+: front) (goes : (block.drop front.length).take n <+: more) :
    block.take (front.length + n) <+: front ++ more := by
  rw [List.take_add]
  rcases Nat.le_total front.length block.length with inside | outside
  · have same : block.take front.length = front := starts.eq_of_length (List.length_take_of_le inside)
    rw [same]
    exact (List.prefix_append_right_inj front).mpr goes
  · rw [List.drop_of_length_le outside, List.take_nil, List.append_nil]
    exact starts.trans (List.prefix_append ..)

theorem Conn.body_given (stream : c.stream = true) (within : c.given.length ≤ c.bodyLen) :
    c.Body c.given := by
  rw [Conn.Body, if_pos stream]
  exact ⟨rfl, within⟩

theorem Conn.body_block (plain : c.stream = false) {body : Bytes} (length : body.length = c.bodyLen)
    (starts : c.body.take c.bodyLen <+: body) : c.Body body := by
  rw [Conn.Body, if_neg (by rw [plain]; decide)]
  exact ⟨length, starts⟩

theorem Conn.body_extend (plain : c.stream = false) {body : Bytes} (short : body.length ≤ c.bodyLen)
    (starts : c.body.take body.length <+: body) : ∃ more, c.Body (body ++ more) := by
  have length : body.length + (c.bodyLen - body.length) = c.bodyLen := Nat.add_sub_cancel' short
  have goes := take_add_prefix starts
    (peek_starts c.body (fun _ => 0) body.length (c.bodyLen - body.length))
  rw [length] at goes
  exact ⟨_, c.body_block plain (by rw [List.length_append, length_peek, length]) goes⟩

theorem Conn.exists_body (within : c.given.length ≤ c.bodyLen) : ∃ body, c.Body body := by
  cases stream : c.stream with
  | true => exact ⟨_, c.body_given stream within⟩
  | false =>
      obtain ⟨more, body⟩ := @c.body_extend stream [] (Nat.zero_le _) List.nil_prefix
      exact ⟨_, body⟩

theorem Blank.inOrder (blank : Blank c) : c.InOrder := by
  obtain ⟨body, body_⟩ := c.exists_body (by rw [blank.given]; exact Nat.zero_le _)
  refine ⟨c.header [], body, header_wellFormed c [] blank.small, body_, ?_⟩
  rw [blank.sent]
  exact List.nil_prefix

theorem Heading.inOrder (heading : Heading c) : c.InOrder := by
  obtain ⟨body, body_⟩ := c.exists_body (by rw [heading.given]; exact Nat.zero_le _)
  refine ⟨c.hdr, body, heading.header, body_, ?_⟩
  rw [heading.sent]
  exact (List.take_prefix ..).trans (List.prefix_append ..)

theorem Plain.inOrder (plain : Plain c) : c.InOrder := by
  obtain ⟨body, sent, length, starts⟩ := plain.sent
  rw [← length] at starts
  obtain ⟨more, body_⟩ := c.body_extend plain.plain (length ▸ plain.off) starts
  refine ⟨c.hdr, body ++ more, plain.header, body_, ?_⟩
  rw [sent, ← List.append_assoc]
  exact List.prefix_append ..

theorem Streaming.inOrder (streaming : Streaming c) : c.InOrder := by
  refine ⟨c.hdr, c.given, streaming.header, c.body_given streaming.stream streaming.within, ?_⟩
  rw [← streaming.sent]
  exact List.prefix_append ..

theorem Sound.inOrder (sound : Sound c) : c.InOrder := by
  cases sound with
  | receiving _ asking _ => exact asking.inOrder
  | waiting _ asking _ => exact asking.inOrder
  | heading _ heading => exact heading.inOrder
  | plain _ plain => exact plain.inOrder
  | streaming _ streaming => exact streaming.inOrder

theorem Sound.strays (sound : Sound c) (answered : c.busy = false) : c.strays = false := by
  cases sound with
  | receiving _ asking _ => exact asking.strays
  | waiting _ asking _ => exact asking.strays
  | heading _ heading => exact heading.strays
  | plain _ plain => exact plain.strays answered
  | streaming _ streaming => exact streaming.strays

theorem sendPlain_proper (answers : Answers) (step : c.step = 2) (plain : Plain c) :
    (sendPlain answers c).Proper c := by
  obtain ⟨body, sent, length, starts⟩ := plain.sent
  have off := plain.off
  unfold sendPlain
  dsimp only
  split
  · rename_i none_
    refine ⟨⟨rfl, rfl⟩, nofun, plain.inOrder, fun _ => ?_, plain.strays⟩
    have whole : c.sndOff = c.bodyLen := by omega
    rw [whole] at length starts
    exact ⟨c.hdr, body, plain.header, c.body_block plain.plain length starts, sent, .inl length⟩
  · rename_i left
    have inside : (c.busy = false →
        (c.strays || decide (c.body.length < c.sndOff + (c.bodyLen - c.sndOff))) = false) := by
      intro answered
      have readable := plain.readable answered plain.plain
      rw [plain.strays answered, Bool.false_or, decide_eq_false_iff_not]
      omega
    split
    · exact ⟨⟨rfl, rfl⟩, nofun, plain.inOrder, nofun, inside⟩
    · rename_i taken _
      split
      · refine ⟨rfl, ⟨rfl, rfl⟩, ?_, .plain step { plain with strays := inside }⟩
        rw [step]
        decide
      · have more : (body ++ peek c.body answers.beyond c.sndOff
            (min taken (c.bodyLen - c.sndOff))).length =
              c.sndOff + min taken (c.bodyLen - c.sndOff) := by
          rw [List.length_append, length_peek, length]
        have sent' : c.sent ++ peek c.body answers.beyond c.sndOff
            (min taken (c.bodyLen - c.sndOff)) =
              c.hdr ++ (body ++ peek c.body answers.beyond c.sndOff
                (min taken (c.bodyLen - c.sndOff))) := by
          rw [sent, List.append_assoc]
        have starts' : c.body.take (c.sndOff + min taken (c.bodyLen - c.sndOff)) <+:
            body ++ peek c.body answers.beyond c.sndOff (min taken (c.bodyLen - c.sndOff)) := by
          rw [← length] at starts ⊢
          exact take_add_prefix starts (peek_starts ..)
        have below : c.sndOff + min taken (c.bodyLen - c.sndOff) ≤ c.bodyLen := by omega
        have now : Plain { c with
            strays := c.strays || decide (c.body.length < c.sndOff + (c.bodyLen - c.sndOff))
            sndOff := c.sndOff + min taken (c.bodyLen - c.sndOff)
            sent := c.sent ++ peek c.body answers.beyond c.sndOff
              (min taken (c.bodyLen - c.sndOff)) } :=
          ⟨plain.plain, plain.header, ⟨_, sent', more, starts'⟩, below, inside, plain.readable⟩
        split
        · refine ⟨rfl, ⟨rfl, rfl⟩, ?_, .plain step now⟩
          rw [step]
          decide
        · rename_i all
          refine ⟨⟨rfl, rfl⟩, nofun, now.inOrder, fun _ => ?_, inside⟩
          have whole : c.sndOff + min taken (c.bodyLen - c.sndOff) = c.bodyLen := by omega
          rw [whole] at more starts'
          exact ⟨c.hdr, _, plain.header, c.body_block plain.plain more starts', sent', .inl more⟩

def Passed (was : Conn) : Conn ⊕ Outcome → Prop
  | .inl c => Same was c ∧ c.step = 2 ∧ Streaming c
  | .inr outcome => outcome.Proper was

theorem pull_passed (chunk : Option Bytes) (step : c.step = 2) (streaming : Streaming c)
    (more : c.streamSent < c.bodyLen) : Passed c (pull chunk c) := by
  unfold pull
  split
  · exact ⟨.rfl, step, streaming⟩
  · rename_i used
    have all : c.sndOff = c.chunk.length := Nat.le_antisymm streaming.off (Nat.not_lt.mp used)
    have length := streaming.length
    have sent : c.sent = c.hdr ++ c.given := by
      rw [← streaming.sent, all, List.drop_length, List.append_nil]
    split
    · exact ⟨⟨rfl, rfl⟩, nofun, streaming.inOrder, nofun, fun _ => streaming.strays⟩
    · rename_i bytes
      have short := List.length_take_le (min (c.bodyLen - c.streamSent) streamChunk) bytes
      have within : (c.given ++ bytes.take (min (c.bodyLen - c.streamSent) streamChunk)).length ≤
          c.bodyLen := by
        rw [List.length_append]
        omega
      dsimp only
      split
      · rename_i empty
        have none_ := List.isEmpty_iff.mp empty
        have same : c.given ++ bytes.take (min (c.bodyLen - c.streamSent) streamChunk) =
            c.given := by
          rw [none_, List.append_nil]
        have sent' : c.sent = c.hdr ++
            (c.given ++ bytes.take (min (c.bodyLen - c.streamSent) streamChunk)) := by
          rw [same, sent]
        have fewer : (c.given ++
            bytes.take (min (c.bodyLen - c.streamSent) streamChunk)).length < c.bodyLen := by
          rw [same]
          omega
        have body := Conn.body_given (c := { c with
          given := c.given ++ bytes.take (min (c.bodyLen - c.streamSent) streamChunk) })
          streaming.stream within
        exact ⟨⟨rfl, rfl⟩, nofun, ⟨c.hdr, _, streaming.header, body, sent' ▸ List.prefix_rfl⟩,
          fun _ => ⟨c.hdr, _, streaming.header, body, sent', .inr ⟨rfl, fewer⟩⟩,
          fun _ => streaming.strays⟩
      · refine ⟨⟨rfl, rfl⟩, step, streaming.stream, streaming.header, ?_, ?_, Nat.zero_le _, within,
          streaming.strays⟩
        · rw [List.drop_zero, sent, List.append_assoc]
        · rw [List.length_append]
          dsimp only
          omega

theorem sendChunk_passed (sent : Option Nat) (step : c.step = 2) (streaming : Streaming c) :
    Passed c (sendChunk sent c) := by
  unfold sendChunk
  split
  · exact ⟨⟨rfl, rfl⟩, nofun, streaming.inOrder, nofun, fun _ => streaming.strays⟩
  · rename_i taken
    have off := streaming.off
    have away : c.step ≠ 3 := by
      rw [step]
      decide
    dsimp only
    split
    · exact ⟨rfl, ⟨rfl, rfl⟩, away, .streaming step streaming⟩
    · have now : Streaming { c with
          sndOff := c.sndOff + min taken (c.chunk.length - c.sndOff)
          streamSent := c.streamSent + min taken (c.chunk.length - c.sndOff)
          sent := c.sent ++ (c.chunk.drop c.sndOff).take
            (min taken (c.chunk.length - c.sndOff)) } := by
        refine ⟨streaming.stream, streaming.header, ?_, ?_, ?_, streaming.within,
          streaming.strays⟩
        · rw [List.append_assoc, ← List.drop_drop, List.take_append_drop]
          exact streaming.sent
        · have length := streaming.length
          dsimp only
          omega
        · dsimp only
          omega
      split
      · exact ⟨rfl, ⟨rfl, rfl⟩, away, .streaming step now⟩
      · exact ⟨⟨rfl, rfl⟩, step, now⟩

theorem streamTurn_passed (turn : Turn) (step : c.step = 2) (streaming : Streaming c) :
    Passed c (streamTurn turn c) := by
  unfold streamTurn
  split
  · rename_i all
    have length := streaming.length
    have off := streaming.off
    have within := streaming.within
    have none_ : c.chunk.drop c.sndOff = [] := List.drop_of_length_le (by omega)
    refine ⟨⟨rfl, rfl⟩, nofun, streaming.inOrder, fun _ => ?_, fun _ => streaming.strays⟩
    have full : c.given.length = c.bodyLen := by omega
    refine ⟨c.hdr, c.given, streaming.header, Conn.body_given streaming.stream within, ?_,
      .inl full⟩
    rw [← streaming.sent, none_, List.append_nil]
  · rename_i more
    have pulled := pull_passed turn.chunk step streaming (Nat.not_le.mp more)
    split
    · rename_i outcome found
      rw [found] at pulled
      exact pulled
    · rename_i c' found
      rw [found] at pulled
      obtain ⟨same, step', streaming'⟩ := pulled
      have sent := sendChunk_passed turn.sent step' streaming'
      cases result : sendChunk turn.sent c' with
      | inl c'' =>
          rw [result] at sent
          exact ⟨same.trans sent.1, sent.2⟩
      | inr outcome =>
          rw [result] at sent
          exact Outcome.Proper.trans sent same

theorem streamLoop_proper (turns : List Turn) (step : c.step = 2) (streaming : Streaming c) :
    (streamLoop turns c).Proper c := by
  induction turns generalizing c with
  | nil =>
      have passed := streamTurn_passed ⟨none, some 0⟩ step streaming
      unfold streamLoop
      split
      · rename_i outcome found
        rw [found] at passed
        exact passed
      · rename_i c' found
        rw [found] at passed
        obtain ⟨same, step', streaming'⟩ := passed
        refine ⟨rfl, same, ?_, .streaming step' streaming'⟩
        rw [step']
        decide
  | cons turn turns ih =>
      have passed := streamTurn_passed turn step streaming
      unfold streamLoop
      split
      · rename_i outcome found
        rw [found] at passed
        exact passed
      · rename_i c' found
        rw [found] at passed
        obtain ⟨same, step', streaming'⟩ := passed
        exact (ih step' streaming').trans same

theorem sendHdr_proper (answers : Answers) (sound : Sound c) (asked : c.step ≠ 0)
    (answered : c.step ≠ 3) : (sendHdr answers c).Proper c := by
  unfold sendHdr sendBody
  cases sound with
  | receiving step => exact absurd step asked
  | waiting step => exact absurd step answered
  | plain step plain =>
      rw [if_neg (by rw [step]; decide), if_pos step, if_neg (by rw [plain.plain]; decide)]
      exact sendPlain_proper answers step plain
  | streaming step streaming =>
      rw [if_neg (by rw [step]; decide), if_pos step, if_pos streaming.stream]
      exact streamLoop_proper answers.turns step streaming
  | heading step heading =>
      have off := heading.off
      rw [if_pos step]
      split
      · exact ⟨⟨rfl, rfl⟩, nofun, heading.inOrder, nofun, fun _ => heading.strays⟩
      · rename_i taken _
        have sent : c.sent ++ (c.hdr.drop c.sndOff).take (min taken (c.hdr.length - c.sndOff)) =
            c.hdr.take (c.sndOff + min taken (c.hdr.length - c.sndOff)) := by
          rw [heading.sent, List.take_add]
        dsimp only
        split
        · exact ⟨rfl, ⟨rfl, rfl⟩, answered, .heading step heading⟩
        · split
          · rename_i part
            exact ⟨rfl, ⟨rfl, rfl⟩, answered,
              .heading step { heading with off := part, sent := sent }⟩
          · rename_i all
            have whole : c.sent ++
                (c.hdr.drop c.sndOff).take (min taken (c.hdr.length - c.sndOff)) = c.hdr := by
              rw [sent, List.take_of_length_le (Nat.not_lt.mp all)]
            split
            · rename_i stream
              refine (streamLoop_proper answers.turns rfl ?_).trans ⟨rfl, rfl⟩
              refine ⟨stream, heading.header, ?_, ?_, Nat.zero_le _, ?_, heading.strays⟩
              · dsimp only
                rw [heading.chunk, heading.given, whole, List.drop_nil]
              · dsimp only
                rw [heading.chunk, heading.given, heading.streamSent]
                rfl
              · dsimp only
                rw [heading.given]
                exact Nat.zero_le _
            · rename_i plain
              refine (sendPlain_proper answers rfl ?_).trans ⟨rfl, rfl⟩
              refine ⟨Bool.not_eq_true _ ▸ plain, heading.header, ⟨[], ?_, rfl, List.nil_prefix⟩,
                Nat.zero_le _, fun _ => heading.strays, heading.readable⟩
              dsimp only
              rw [whole, List.append_nil]

theorem respond_proper (answers : Answers) {path : Bytes} (prepared : Prepared c)
    (fits : (c.header path).length ≤ hdrMax) : (respond answers path c).Proper c := by
  rw [respond, buildHdr, if_pos fits]
  refine (sendHdr_proper answers (.heading rfl ?_) ?_ ?_).trans ⟨rfl, rfl⟩
  · refine ⟨header_wellFormed c path prepared.small, ?_, ?_, prepared.given, prepared.chunk,
      prepared.streamSent, prepared.dry, prepared.strays, prepared.readable⟩
    · exact List.length_pos_iff.mpr (header_ne_nil c path)
    · exact prepared.sent
  · exact Nat.one_ne_zero
  · exact (by decide : 1 ≠ 3)

theorem respond_torn (answers : Answers) {path : Bytes}
    (long : ¬ (c.header path).length ≤ hdrMax) : respond answers path c = .torn := by
  rw [respond, buildHdr, if_neg long]

/-- Its descriptor is open, and a buffer that was taken is freed or still there. -/
structure Steady (c : Conn) : Prop where
  open_ : c.fd.isSome
  closes : c.closes = 0
  once : c.takes ≤ 1
  balanced : c.frees + c.bodyBuf.toNat = c.takes

theorem Steady.same (steady : Steady was) (same : c.accounts = was.accounts) : Steady c := by
  obtain ⟨_, fd, buf, closes, takes, frees⟩ :
      c.id = was.id ∧ c.fd = was.fd ∧ c.bodyBuf = was.bodyBuf ∧ c.closes = was.closes ∧
        c.takes = was.takes ∧ c.frees = was.frees := by
    simpa only [Conn.accounts, Prod.mk.injEq] using same
  exact ⟨fd ▸ steady.open_, closes ▸ steady.closes, takes ▸ steady.once, by
    rw [frees, buf, takes]
    exact steady.balanced⟩

theorem Conn.id_same (same : c.accounts = was.accounts) : c.id = was.id :=
  congrArg Prod.fst same

structure Ready (was c : Conn) : Prop where
  prepared : Prepared c
  steady : Steady was → Steady c
  same : c.id = was.id
  kept : c.deferReady = was.deferReady

theorem handle_ready (arena : Bool) (callbacks : Callbacks) (asking : Asking c)
    (unheld : c.takes = 0) : Ready c (c.handle arena callbacks) := by
  have prepared : Prepared c := { asking.toBlank with readable := fun _ _ => asking.whole }
  have once : c.takes + 1 ≤ 1 := by omega
  unfold Conn.handle
  split
  · exact ⟨prepared, id, rfl, rfl⟩
  · have freed : Ready c { c with takes := c.takes + 1, frees := c.frees + 1 } := by
      refine ⟨{ prepared with }, fun steady => ⟨steady.open_, steady.closes, once, ?_⟩, rfl,
        rfl⟩
      have balanced := steady.balanced
      dsimp only
      omega
    dsimp only
    split
    · exact freed
    · rename_i bytes _
      split
      · rename_i short
        have small : bytes.length < 2 ^ 32 := Nat.lt_of_le_of_lt short (by decide)
        refine ⟨?_, fun steady => ⟨steady.open_, steady.closes, once, ?_⟩, rfl, rfl⟩
        · exact { asking.toBlank with
            small := small
            readable := fun _ _ => Nat.le_refl _ }
        · have balanced := steady.balanced
          change c.frees + 1 = c.takes + 1
          omega
      · exact freed

theorem lookupInto_ready (arena : Bool) (routes : List Route) (callbacks : Callbacks)
    (method path : Bytes) (asking : Asking c) (unheld : c.takes = 0) :
    (∃ c', lookupInto arena routes callbacks method path c = (true, c') ∧
        Asking c' ∧ c'.accounts = c.accounts) ∨
      ∃ c', lookupInto arena routes callbacks method path c = (false, c') ∧ Ready c c' := by
  unfold lookupInto
  split
  · have small : defaultBodyLen < 2 ^ 32 := by decide
    have whole : defaultBodyLen ≤ defaultBody.length := by decide +kernel
    refine .inr ⟨_, rfl, ?_, fun steady => { steady with }, rfl, rfl⟩
    exact { asking.toBlank with small := small, readable := fun _ _ => whole }
  · rename_i route _
    have typed : Asking { c with ctype := route.ctype } := { asking with }
    dsimp only
    split
    · exact .inl ⟨_, rfl, typed, rfl⟩
    · split
      · have ready := handle_ready arena callbacks typed unheld
        exact .inr ⟨_, rfl, ready.prepared, fun steady => ready.steady { steady with },
          ready.same, ready.kept⟩
      · split
        · refine .inr ⟨_, rfl, ?_, fun steady => { steady with }, rfl, rfl⟩
          have most : streamMax < 2 ^ 32 := by decide
          exact { asking.toBlank with
            chunk := rfl
            streamSent := rfl
            small := by
              dsimp only
              split <;> omega
            readable := nofun }
        · refine .inr ⟨_, rfl, ?_, fun steady => { steady with }, rfl, rfl⟩
          exact { asking.toBlank with
            small := route.small
            readable := fun _ _ => route.whole }

def Received.Proper (was : Conn) : Received → Prop
  | .over_ outcome => outcome.Proper was
  | .park c _ => Asking c ∧ c.deferReady = false ∧ c.accounts = was.accounts
  | .answer c _ => Ready was c

theorem Asking.stops (asking : Asking c) : Closing .error c :=
  ⟨nofun, asking.inOrder, nofun, fun _ => asking.strays⟩

theorem connStall_proper (answers : Answers) (budget : Nat) (step : c.step = 0)
    (asking : Asking c) (unheld : c.takes = 0) (unready : c.deferReady = false) :
    (connStall answers budget c).Proper c := by
  have asking' : Asking { c with stallWaits := c.stallWaits + 1 } := { asking with }
  unfold connStall
  dsimp only
  split
  · exact ⟨⟨rfl, rfl⟩, asking'.stops⟩
  · split
    · refine ⟨rfl, ⟨rfl, rfl⟩, ?_, .receiving step asking' unheld unready⟩
      rw [step]
      decide
    · exact ⟨⟨rfl, rfl⟩, asking'.stops⟩

theorem receive_proper (arena : Bool) (routes : List Route) (answers : Answers)
    (step : c.step = 0) (asking : Asking c) (unheld : c.takes = 0)
    (unready : c.deferReady = false) : (receive arena routes answers c).Proper c := by
  unfold receive
  split
  · exact ⟨.rfl, asking.stops⟩
  · split
    · exact ⟨.rfl, asking.stops⟩
    · rename_i bytes _
      dsimp only
      split
      · exact connStall_proper answers _ step asking unheld unready
      · have asking' : Asking { c with
            stallWaits := 0, rx := c.rx ++ bytes.take (rxMax - c.rx.length) } := { asking with }
        split
        · exact (connStall_proper answers connStallMaxWaits (by exact step) asking'
            unheld unready).trans ⟨rfl, rfl⟩
        · split
          · exact ⟨⟨rfl, rfl⟩, asking'.stops⟩
          · rename_i method path _
            rcases lookupInto_ready arena routes answers.callbacks (method.take 7)
              (path.take (pathMax - 1)) asking' unheld with
              ⟨c', found, asking'', same⟩ | ⟨c', found, ready⟩
            · rw [found]
              exact ⟨{ asking'' with }, rfl, same⟩
            · rw [found]
              exact ⟨ready.prepared, fun steady => ready.steady { steady with }, ready.same,
                ready.kept⟩

theorem ctypeOf_length (path : Bytes) : (ctypeOf path).length ≤ 24 := by
  unfold ctypeOf typeOfExt
  dsimp only
  repeat' split
  all_goals decide +kernel

theorem refuse_fits (c : Conn) (path : Bytes) : (c.refuse.header path).length ≤ hdrMax := by
  have type := ctypeOf_length path
  have rest : statusText.length + lengthText.length + (putU64 deferBusyBodyLen).length +
      tailText.length + 24 ≤ hdrMax := by
    decide +kernel
  rw [Conn.header]
  simp only [List.length_append]
  change _ + (ctypeOf path).length + _ + (putU64 deferBusyBodyLen).length + _ ≤ _
  omega

theorem refuse_prepared (blank : Blank c) : Prepared c.refuse :=
  { blank with
    small := by
      change deferBusyBodyLen < 2 ^ 32
      decide
    readable := nofun }

end Metal.Net.Asgi
