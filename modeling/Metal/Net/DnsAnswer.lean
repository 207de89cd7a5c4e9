import Metal.Net.DnsNames

namespace Metal.Net.Dns

open Metal.Lib

/-! What a lookup makes of a message, against the records that the message lists. -/

/-- Where a name that starts at `o` ends: behind its first pointer, or its root. -/
inductive NameEnd (msg : Bytes) : (o last : Nat) → Prop
  | root {o} (here : msg[o]? = some 0) : NameEnd msg o (o + 1)
  | pointer {o} (high : UInt8) (here : msg[o]? = some high) (marked : high &&& 0xc0 = 0xc0)
      (room : o + 1 < msg.length) : NameEnd msg o (o + 2)
  | label {o last} (size : UInt8) (here : msg[o]? = some size)
      (some_ : 0 < size.toNat) (short : size.toNat < 64)
      (room : o + 1 + size.toNat ≤ msg.length)
      (target : NameEnd msg (o + 1 + size.toNat) last) : NameEnd msg o last

/-- So many questions stand from `o` on. -/
inductive Questions (msg : Bytes) : (count o last : Nat) → Prop
  | none {o} : Questions msg 0 o o
  | some {count o e last} (name : NameEnd msg o e) (room : e + 4 ≤ msg.length)
      (rest : Questions msg count (e + 4) last) : Questions msg (count + 1) o last

structure Record where
  kind : UInt16
  class_ : UInt16
  data : Bytes

/-- A record at `o`: its name, ten bytes, and as much data as they say. -/
inductive RecordAt (msg : Bytes) (o : Nat) : Record → (next : Nat) → Prop
  | mk {e} (name : NameEnd msg o e)
      (room : e + 10 + (beU16 (msg.drop (e + 8))).toNat ≤ msg.length) :
      RecordAt msg o ⟨beU16 (msg.drop e), beU16 (msg.drop (e + 2)),
        (msg.drop (e + 10)).take (beU16 (msg.drop (e + 8))).toNat⟩
        (e + 10 + (beU16 (msg.drop (e + 8))).toNat)

inductive Records (msg : Bytes) : (o : Nat) → List Record → Prop
  | nil {o} : Records msg o []
  | cons {o r next rest} (head : RecordAt msg o r next) (tail : Records msg next rest) :
      Records msg o (r :: rest)

def Record.IsAddress (r : Record) : Prop := r.kind = 1 ∧ r.class_ = 1 ∧ r.data.length = 4

instance (r : Record) : Decidable r.IsAddress :=
  inferInstanceAs (Decidable (_ ∧ _ ∧ _))

def questionCount (msg : Bytes) : Nat := (beU16 (msg.drop 4)).toNat

def answerCount (msg : Bytes) : Nat := (beU16 (msg.drop 6)).toNat

/-- An answer of the message is a record of type A, class IN with this address. -/
def Lists (msg : Bytes) (addr : UInt32) : Prop :=
  ∃ o records, Questions msg (questionCount msg) 12 o ∧ Records msg o records ∧
    records.length ≤ answerCount msg ∧
    ∃ r ∈ records, r.IsAddress ∧ addr = beU32 r.data

def Response (xid : UInt16) (msg : Bytes) : Prop :=
  12 ≤ msg.length ∧ beU16 msg = xid ∧ msg.getD 2 0 &&& 0x80 ≠ 0

/-- Every read of a lookup is inside what it received, and an address that it gives
is listed there. -/
def LookupSound (env : Env) (name : CString) : Prop :=
  ∃ r, lookup env name = .ok r ∧ ∀ addr, r = some addr →
    ∃ msg, received env name = some msg ∧ Response env.xid msg ∧ Lists msg addr

/-- The header, the names or the length make a lookup refuse the message. -/
def Refused (xid : UInt16) (msg : Bytes) : Prop :=
  ¬ Response xid msg ∨ msg.getD 7 0 = 0 ∨
    ∀ place, recordPlace msg = .ok (some place) → msg.length < place + 14

def AddressFirst (msg : Bytes) : Prop :=
  questionCount msg = 1 ∧ ∃ o r next,
    Questions msg 1 12 o ∧ RecordAt msg o r next ∧ r.IsAddress

theorem decFrom_inside (msg : Bytes) (ocap o jumps : Nat) (out : Bytes) (end_ : Nat)
    (sawPtr : Bool) : ∃ r, decFrom msg ocap o jumps out end_ sawPtr = .ok r := by
  fun_induction decFrom msg ocap o jumps out end_ sawPtr with
  | case1 o jumps out end_ sawPtr inside pointed plain =>
      rw [byteAt_of_lt inside]
      dsimp only [Except.bind]
      split
      · split
        · exact ⟨_, rfl⟩
        · rename_i next
          rw [byteAt_of_lt (by omega)]
          exact pointed _ next _
      split
      · exact ⟨_, rfl⟩
      split
      · exact ⟨_, rfl⟩
      · rename_i room
        rw [bytesAt_of_le (by omega)]
        exact plain _ room _
  | case2 => exact ⟨_, rfl⟩

theorem decName_inside (msg : Bytes) (ocap off : Nat) : ∃ r, decName msg ocap off = .ok r :=
  decFrom_inside ..

theorem recordPlace_inside (msg : Bytes) : ∃ r, recordPlace msg = .ok r := by
  obtain ⟨name, question⟩ := decName_inside msg nameMax 12
  rw [recordPlace, question]
  cases name with
  | none => exact ⟨none, rfl⟩
  | some name =>
      obtain ⟨name, off⟩ := name
      obtain ⟨next, decoded⟩ := decName_inside msg nameMax (off + 4)
      dsimp only [Except.bind]
      rw [decoded]
      split
      · rw [byteAt_of_lt (by omega)]
        dsimp only
        split <;> exact ⟨_, rfl⟩
      · exact ⟨_, rfl⟩

section Ends

variable {msg out name : Bytes} {ocap o jumps end_ last e e' : Nat}

theorem decFrom_saw {sawPtr : Bool} (saw : sawPtr = true)
    (decoded : decFrom msg ocap o jumps out end_ sawPtr = .ok (some (name, last))) :
    last = end_ := by
  fun_induction decFrom msg ocap o jumps out end_ sawPtr with
  | case1 o jumps out end_ sawPtr inside pointed plain =>
      rw [byteAt_of_lt inside] at decoded
      dsimp only [Except.bind] at decoded
      split at decoded
      · split at decoded
        · cases decoded
        · rename_i next
          rw [byteAt_of_lt (by omega)] at decoded
          have same := pointed (msg.getD o 0) next (msg.getD (o + 1) 0) rfl
          rw [dif_pos saw] at same
          exact same decoded
      split at decoded
      · cases decoded
        rfl
      split at decoded
      · cases decoded
      · rename_i room
        rw [bytesAt_of_le (by omega)] at decoded
        exact plain _ room _ saw decoded
  | case2 => cases decoded

theorem unmarked_of_lt {size : UInt8} (short : size.toNat < 64) : size &&& 0xc0 ≠ 0xc0 := by
  intro marked
  have small : size.toNat &&& 192 ≤ size.toNat := Nat.and_le_left
  rw [show size.toNat &&& 192 = 192 from congrArg UInt8.toNat marked] at small
  omega

theorem decFrom_end (ends : NameEnd msg o e)
    (decoded : decFrom msg ocap o jumps out end_ false = .ok (some (name, last))) :
    last = e := by
  induction ends generalizing jumps out end_ with
  | root here =>
      obtain ⟨inside, -⟩ := List.getElem?_eq_some_iff.mp here
      rw [decFrom, dif_pos inside, byteAt_of_getElem? here] at decoded
      cases decoded
      rfl
  | pointer high here marked room =>
      obtain ⟨inside, -⟩ := List.getElem?_eq_some_iff.mp here
      rw [decFrom, dif_pos inside, byteAt_of_getElem? here] at decoded
      dsimp only [Except.bind] at decoded
      rw [if_pos marked] at decoded
      split at decoded
      · cases decoded
      · rw [byteAt_of_lt room] at decoded
        exact decFrom_saw rfl decoded
  | label size here some_ short room _ ih =>
      obtain ⟨inside, -⟩ := List.getElem?_eq_some_iff.mp here
      have nonzero : size ≠ 0 := by
        rintro rfl
        exact absurd some_ (by decide)
      rw [decFrom, dif_pos inside, byteAt_of_getElem? here] at decoded
      dsimp only [Except.bind] at decoded
      rw [if_neg (unmarked_of_lt short), if_neg nonzero] at decoded
      split at decoded
      · cases decoded
      · rw [bytesAt_of_le room] at decoded
        exact ih decoded

theorem NameEnd.unique (first : NameEnd msg o e) (second : NameEnd msg o e') : e = e' := by
  induction first with
  | root here =>
      cases second with
      | root => rfl
      | pointer _ there marked =>
          rw [here] at there
          cases there
          exact absurd marked (by decide)
      | label _ there some_ =>
          rw [here] at there
          cases there
          exact absurd some_ (by decide)
  | pointer _ here marked =>
      cases second with
      | root there =>
          rw [here] at there
          cases there
          exact absurd marked (by decide)
      | pointer => rfl
      | label _ there some_ short =>
          rw [here] at there
          cases there
          exact absurd marked (unmarked_of_lt short)
  | label _ here some_ short room target ih =>
      cases second with
      | root there =>
          rw [here] at there
          cases there
          exact absurd some_ (by decide)
      | pointer _ there marked =>
          rw [here] at there
          cases there
          exact absurd marked (unmarked_of_lt short)
      | label _ there _ _ _ target' =>
          rw [here] at there
          cases there
          exact ih target'

theorem RecordAt.unique {o next next' : Nat} {r r' : Record}
    (first : RecordAt msg o r next) (second : RecordAt msg o r' next') :
    r = r' ∧ next = next' := by
  obtain ⟨name, room⟩ := first
  obtain ⟨name', room'⟩ := second
  cases name.unique name'
  exact ⟨rfl, rfl⟩

theorem Questions.unique {count o last last' : Nat} (first : Questions msg count o last)
    (second : Questions msg count o last') : last = last' := by
  induction first with
  | none =>
      cases second
      rfl
  | some name room rest ih =>
      obtain - | ⟨name', room', rest'⟩ := second
      cases name.unique name'
      exact ih rest'

theorem recordPlace_end {o place : Nat} (question : Questions msg 1 12 o)
    (ends : NameEnd msg o e) (found : recordPlace msg = .ok (some place)) : place = e := by
  obtain - | ⟨name, -, rest⟩ := question
  obtain - | - := rest
  rename_i first
  obtain ⟨decoded, question⟩ := decName_inside msg nameMax 12
  rw [recordPlace, question] at found
  cases decoded with
  | none => cases found
  | some decoded =>
      obtain ⟨text, off⟩ := decoded
      have same : off = first := decFrom_end name question
      subst same
      obtain ⟨next, behind⟩ := decName_inside msg nameMax (off + 4)
      dsimp only [Except.bind] at found
      rw [behind] at found
      have decodes (taken : Except.ok (next.map (·.2)) =
          (Except.ok (some place) : Except Outside (Option Nat))) : place = e := by
        obtain ⟨⟨text, last⟩, rfl, rfl⟩ := Option.map_eq_some_iff.mp (Except.ok.inj taken)
        exact decFrom_end ends behind
      split at found
      · rename_i room
        rw [byteAt_of_lt (by omega)] at found
        dsimp only at found
        split at found
        · rename_i pointer
          cases found
          have here : msg[off + 4]? = some 0xc0 := by
            rw [← pointer, List.getD_eq_getElem?_getD,
              List.getElem?_eq_getElem (by omega)]
            rfl
          exact (NameEnd.pointer 0xc0 here (by decide) (by omega)).unique ends
        · exact decodes found
      · exact decodes found

end Ends

section Answers

variable {xid : UInt16} {msg : Bytes} {place : Nat}

theorem beU16_take (msg : Bytes) : beU16 (msg.take 2) = beU16 msg := by
  rcases msg with _ | ⟨a, _ | ⟨b, msg⟩⟩ <;> rfl

theorem answer_eq (long : 12 ≤ msg.length) :
    answer xid msg =
      if beU16 msg ≠ xid ∨ msg.getD 2 0 &&& 0x80 = 0 ∨ msg.getD 7 0 = 0 then .ok none
      else
        (recordPlace msg).bind fun
          | none => .ok none
          | some off =>
              if off + 14 > msg.length then .ok none
              else (bytesAt msg (off + 10) 4).bind fun addr => .ok (some (beU32 addr)) := by
  rw [answer, if_neg (by omega), bytesAt_of_le (by omega), byteAt_of_lt (by omega),
    byteAt_of_lt (by omega)]
  dsimp only [Except.bind]
  rewrite [List.drop_zero, beU16_take, ite_or, ite_or]
  rfl

theorem answer_refused (refused : Refused xid msg) : answer xid msg = .ok none := by
  rcases Nat.lt_or_ge msg.length 12 with short | long
  · exact if_pos short
  · rw [answer_eq long]
    split
    · rfl
    · rename_i header
      simp only [not_or, not_not] at header
      obtain ⟨id, flags, count⟩ := header
      rcases refused with other | empty | short
      · exact absurd ⟨long, id, flags⟩ other
      · exact absurd empty count
      · obtain ⟨found, place⟩ := recordPlace_inside msg
        rw [place]
        cases found with
        | none => rfl
        | some place_ => exact if_pos (short place_ place)

theorem answer_taken (kept : ¬ Refused xid msg) :
    Response xid msg ∧ ∃ place, recordPlace msg = .ok (some place) ∧
      answer xid msg = .ok (some (beU32 ((msg.drop (place + 10)).take 4))) := by
  simp only [Refused, not_or, not_not, not_forall, Nat.not_lt] at kept
  obtain ⟨response, count, place, found, room⟩ := kept
  obtain ⟨long, id, flags⟩ := response
  refine ⟨⟨long, id, flags⟩, place, found, ?_⟩
  have header : ¬ (beU16 msg ≠ xid ∨ msg.getD 2 0 &&& 0x80 = 0 ∨ msg.getD 7 0 = 0) := by
    rintro (other | query | none)
    exacts [other id, flags query, count none]
  rw [answer_eq long, if_neg header, found]
  dsimp only [Except.bind]
  rw [if_neg (by omega), bytesAt_of_le (by omega)]

theorem kept_of_place (response : Response xid msg) (count : msg.getD 7 0 ≠ 0)
    (found : recordPlace msg = .ok (some place)) (room : place + 14 ≤ msg.length) :
    ¬ Refused xid msg := by
  rintro (other | none | short)
  · exact other response
  · exact count none
  · exact absurd (short place found) (by omega)

theorem AddressFirst.lists (first : AddressFirst msg) (count : msg.getD 7 0 ≠ 0)
    (found : recordPlace msg = .ok (some place)) :
    Lists msg (beU32 ((msg.drop (place + 10)).take 4)) := by
  obtain ⟨one, o, r, next, question, record, address⟩ := first
  refine ⟨o, [r], one ▸ question, .cons record .nil, ?_, r, List.mem_singleton_self r, address, ?_⟩
  · have low : (msg.getD 7 0).toNat ≠ 0 := fun zero => count (UInt8.toNat_inj.mp zero)
    have byte : (msg.drop 6).getD 1 0 = msg.getD 7 0 := by simp
    rw [answerCount, toNat_beU16, byte, List.length_singleton]
    omega
  · obtain ⟨name, room⟩ := record
    obtain ⟨-, -, four⟩ := address
    rw [List.length_take, List.length_drop, Nat.min_eq_left (by omega)] at four
    rw [recordPlace_end question name found, four]

end Answers

theorem lookup_sound (env : Env) (name : CString)
    (served : ∀ msg, received env name = some msg → Refused env.xid msg ∨ AddressFirst msg) :
    LookupSound env name := by
  unfold LookupSound lookup
  cases arrived : received env name with
  | none => exact ⟨none, rfl, nofun⟩
  | some msg =>
      by_cases refused : Refused env.xid msg
      · exact ⟨none, answer_refused refused, nofun⟩
      have first := (served msg arrived).resolve_left refused
      obtain ⟨response, place, found, taken⟩ := answer_taken refused
      have count : msg.getD 7 0 ≠ 0 := fun none => refused (.inr (.inl none))
      refine ⟨_, taken, fun addr same => ⟨msg, rfl, response, ?_⟩⟩
      cases same
      exact first.lists count found

def aName : DomainName := ⟨[ascii "a"], by decide, by decide, by decide⟩

def replyEnv (msg : Bytes) : Env := { loEnv with recvfrom := fun _ => some msg }

theorem received_reply {msg : Bytes} (some_ : msg ≠ []) (short : msg.length ≤ dnsMax) :
    received (replyEnv msg) aName.text = some msg := by
  rw [received, query_text (replyEnv msg).xid aName, awaitFrom]
  simp [replyEnv, loEnv, some_, List.take_of_length_le short]

theorem recordPlace_asked {msg : Bytes} (spelled : Spelled msg 0 12 aName.labels 15)
    (here : msg[19]? = some 0xc0) (room : 21 < msg.length) :
    recordPlace msg = .ok (some 21) := by
  rw [recordPlace, decName_spelled aName spelled (by decide)]
  dsimp only [Except.bind]
  rw [if_pos room, byteAt_of_getElem? here]
  rfl

/-- The question is `a`, whose address is 10.0.0.1. -/
def addressed : Bytes :=
  [0, 1, 0x81, 0x80, 0, 1, 0, 1, 0, 0, 0, 0] ++ [1, 97, 0, 0, 1, 0, 1] ++
    [0xc0, 0x0c, 0, 1, 0, 1, 0, 0, 0, 9, 0, 4, 10, 0, 0, 1]

theorem addressed_first : AddressFirst addressed :=
  ⟨by decide, 19, _, _,
    .some (.label 1 rfl (by decide) (by decide) (by decide) (.root rfl)) (by decide) .none,
    .mk (.pointer 0xc0 rfl (by decide) (by decide)) (by decide), by decide⟩

theorem addressed_place : recordPlace addressed = .ok (some 21) :=
  recordPlace_asked (.label (ascii "a") (addressed.drop 14) (by decide) (.root rfl)) rfl (by decide)

theorem addressed_kept : ¬ Refused 1 addressed :=
  kept_of_place ⟨by decide, by decide, by decide⟩ (by decide) addressed_place (by decide)

theorem lookup_sound_addressed :
    LookupSound (replyEnv addressed) aName.text ∧
      lookup (replyEnv addressed) aName.text = .ok (some 0x0a000001) := by
  have arrived : received (replyEnv addressed) aName.text = some addressed :=
    received_reply (by decide) (by decide)
  refine ⟨lookup_sound _ _ fun msg here => ?_, ?_⟩
  · cases arrived.symm.trans here
    exact .inr addressed_first
  · obtain ⟨-, place, found, taken⟩ := answer_taken addressed_kept
    cases addressed_place.symm.trans found
    rw [lookup, arrived]
    exact taken

/-- The question is `a`; it is an alias of `b`, whose address is 10.0.0.1. -/
def aliased : Bytes :=
  [0, 1, 0x81, 0x80, 0, 1, 0, 2, 0, 0, 0, 0] ++ [1, 97, 0, 0, 1, 0, 1] ++
    [0xc0, 0x0c, 0, 5, 0, 1, 0, 0, 0, 9, 0, 3, 1, 98, 0] ++
    [0xc0, 0x1f, 0, 1, 0, 1, 0, 0, 0, 9, 0, 4, 10, 0, 0, 1]

theorem aliased_place : recordPlace aliased = .ok (some 21) :=
  recordPlace_asked (.label (ascii "a") (aliased.drop 14) (by decide) (.root rfl)) rfl (by decide)

theorem aliased_records {records : List Record} {o : Nat} (question : Questions aliased 1 12 o)
    (listed : Records aliased o records) (few : records.length ≤ 2) :
    ∀ r ∈ records, r = ⟨5, 1, [1, 98, 0]⟩ ∨ r = ⟨1, 1, [10, 0, 0, 1]⟩ := by
  have name : NameEnd aliased 12 15 :=
    .label 1 rfl (by decide) (by decide) (by decide) (.root rfl)
  have asked : Questions aliased 1 12 19 := .some name (by decide) .none
  have first : RecordAt aliased 19 ⟨5, 1, [1, 98, 0]⟩ 34 :=
    .mk (.pointer 0xc0 rfl (by decide) (by decide)) (by decide)
  have second : RecordAt aliased 34 ⟨1, 1, [10, 0, 0, 1]⟩ 50 :=
    .mk (.pointer 0xc0 rfl (by decide) (by decide)) (by decide)
  cases question.unique asked
  cases listed with
  | nil => simp
  | cons head tail =>
      obtain ⟨rfl, rfl⟩ := head.unique first
      cases tail with
      | nil => simp
      | cons next rest =>
          obtain ⟨rfl, rfl⟩ := next.unique second
          cases rest with
          | nil => simp
          | cons => simp at few

theorem aliased_kept : ¬ Refused 1 aliased :=
  kept_of_place ⟨by decide, by decide, by decide⟩ (by decide) aliased_place (by decide)

/-- The four bytes are the alias and the start of the next record. -/
theorem aliased_fails :
    lookup (replyEnv aliased) aName.text = .ok (some 0x016200c0) ∧
      ¬ LookupSound (replyEnv aliased) aName.text := by
  have arrived : received (replyEnv aliased) aName.text = some aliased :=
    received_reply (by decide) (by decide)
  obtain ⟨-, place, found, taken⟩ := answer_taken aliased_kept
  cases aliased_place.symm.trans found
  have given : lookup (replyEnv aliased) aName.text = .ok (some 0x016200c0) := by
    rw [lookup, arrived]
    exact taken
  refine ⟨given, ?_⟩
  rintro ⟨r, same, sound⟩
  cases given.symm.trans same
  obtain ⟨msg, here, -, o, records, question, listed, few, r, among, address, value⟩ :=
    sound _ rfl
  cases arrived.symm.trans here
  rcases aliased_records question listed few r among with rfl | rfl
  · exact absurd address (by decide)
  · exact absurd value (by decide)

end Metal.Net.Dns
