import Metal.Lib.Slots
import Metal.Net.Ip.Packet

namespace Metal.Net.Ip.Udp

open Metal.Lib

/-! Datagrams and the groups that sockets join. -/

/-- `struct pm_metal_sock` as far as UDP goes; `mcast` has the joined groups, for which
`mcastCap` has room. -/
structure Pcb where
  kind : Kind
  bound : Bool
  l2 : Int
  laddr : Addr
  lport : Port
  mcast : List Addr
  mcastCap : Nat
  rx : Bytes
  rxCap : Nat
  rxAddr : Addr
  rxPort : Port
  waiter : Option Nat

/-- The rows in the order of their slots, and what decides whether an address is ours.
`copied` is not in the code: it logs the rows into which a payload was copied. -/
structure State where
  sk : List (Option Pcb)
  rxL2 : Int
  loUp : Bool
  loAddr : Addr
  l2Ours : Addr → Bool
  copied : List Fd

structure Datagram where
  src : Addr
  dst : Addr
  sport : Port
  dport : Port
  payload : Bytes

def Group (addr : Addr) : Prop := addr &&& 0xf0000000 = 0xe0000000

instance (addr : Addr) : Decidable (Group addr) := inferInstanceAs (Decidable (_ = _))

/-- The datagram in a packet that passes the tests of `ip_input`. -/
def datagramOf (pkt : Bytes) : Option Datagram :=
  if ipOk pkt ∧ pkt.getD 9 0 = 17 ∧ 8 ≤ (l4 pkt).length then
    some
      { src := beU32 (pkt.drop 12)
        dst := beU32 (pkt.drop 16)
        sport := beU16 (l4 pkt)
        dport := beU16 ((l4 pkt).drop 2)
        payload := (l4 pkt).drop 8 }
  else none

def mcastJoined (dst : Addr) (st : State) : Bool :=
  st.sk.any fun row => row.any fun s => s.kind = .udp ∧ dst ∈ s.mcast

variable {st st' : State} {fd : Fd} {group dst : Addr} {s s' : Pcb}

/-- The row is bound to the port and to no other interface than the one it came in on. -/
def Datagram.Fits (d : Datagram) (rxL2 : Int) (s : Pcb) : Prop :=
  s.kind = .udp ∧ s.bound ∧ s.lport = d.dport ∧ ¬ (s.l2 ≥ 0 ∧ rxL2 ≥ 0 ∧ s.l2 ≠ rxL2)

instance (d : Datagram) (rxL2 : Int) (s : Pcb) : Decidable (d.Fits rxL2 s) :=
  inferInstanceAs (Decidable (_ ∧ _))

def Datagram.Bound (d : Datagram) (s : Pcb) : Prop :=
  s.laddr = 0 ∨ s.laddr = 0xffffffff ∨ s.laddr = d.dst

instance (d : Datagram) (s : Pcb) : Decidable (d.Bound s) :=
  inferInstanceAs (Decidable (_ ∨ _))

def takes (d : Datagram) (rxL2 : Int) (s : Pcb) : Bool :=
  if ¬ d.Fits rxL2 s then false
  else if s.laddr ≠ 0 ∧ s.laddr ≠ 0xffffffff ∧ s.laddr ≠ d.dst then false
  else
    let member := decide (d.Bound s)
    let member :=
      if ¬ member ∧ Group d.dst then decide (d.dst ∈ s.mcast) else member
    member

def Pcb.receive (d : Datagram) (s : Pcb) : Pcb :=
  { s with
    rx := d.payload.take s.rxCap, rxAddr := d.src, rxPort := d.sport, waiter := none }

def udpDemux (d : Datagram) (rxL2 : Int) :
    List (Option Pcb) → List (Option Pcb) × Option Fd
  | [] => ([], none)
  | row :: rest =>
      match row.filter (takes d rxL2) with
      | some s => (some (s.receive d) :: rest, some 0)
      | none =>
          let (rest, fd) := udpDemux d rxL2 rest
          (row :: rest, fd.map (· + 1))

/-- Whether `ip_input` looks at a packet to this address. -/
def ours (dst : Addr) (st : State) : Bool :=
  (st.loUp ∧ (dst = st.loAddr ∨ dst = 0x7f000001)) ∨ st.l2Ours dst ∨ dst = 0xffffffff ∨
    (Group dst ∧ mcastJoined dst st)

/-- `ip_input` as far as UDP goes. -/
def ipInput (pkt : Bytes) (st : State) : State :=
  match datagramOf pkt with
  | none => st
  | some d =>
      if ours d.dst st then
        let (sk, fd) := udpDemux d st.rxL2 st.sk
        { st with sk := sk, copied := st.copied ++ fd.toList }
      else st

variable {d : Datagram} {rxL2 : Int} {rows : List (Option Pcb)}

/-- The test of the membership is never reached: a row that is bound to the address or to
all counts as a member, and any other has been passed over. -/
theorem takes_iff (d : Datagram) (rxL2 : Int) (s : Pcb) :
    takes d rxL2 s ↔ d.Fits rxL2 s ∧ d.Bound s := by
  unfold takes
  by_cases fits : d.Fits rxL2 s
  · rw [if_neg (not_not.2 fits)]
    by_cases bound : d.Bound s
    · have passed : ¬ (s.laddr ≠ 0 ∧ s.laddr ≠ 0xffffffff ∧ s.laddr ≠ d.dst) := by
        rintro ⟨some_, few, other⟩
        rcases bound with all | all | one
        · exact some_ all
        · exact few all
        · exact other one
      rw [if_neg passed]
      simp [fits, bound]
    · have passed : s.laddr ≠ 0 ∧ s.laddr ≠ 0xffffffff ∧ s.laddr ≠ d.dst := by
        refine ⟨fun all => bound (.inl all), fun all => bound (.inr (.inl all)),
          fun one => bound (.inr (.inr one))⟩
      rw [if_pos passed]
      simp [bound]
  · rw [if_pos fits]
    simp [fits]

/-- What the loop comes to: no row takes the datagram, or the first that does gets it. -/
inductive Demuxed (d : Datagram) (rxL2 : Int) (rows : List (Option Pcb)) :
    List (Option Pcb) × Option Fd → Prop
  | none (silent : ∀ (i : Fd) s, rows[i]? = some (some s) → ¬ takes d rxL2 s) :
      Demuxed d rxL2 rows (rows, none)
  | first {fd : Fd} {s : Pcb} (there : rows[fd]? = some (some s)) (hit : takes d rxL2 s)
      (before : ∀ i : Fd, i < fd → ∀ t, rows[i]? = some (some t) → ¬ takes d rxL2 t) :
      Demuxed d rxL2 rows (rows.set fd (some (s.receive d)), some fd)

theorem udpDemux_spec (d : Datagram) (rxL2 : Int) (rows : List (Option Pcb)) :
    Demuxed d rxL2 rows (udpDemux d rxL2 rows) := by
  induction rows with
  | nil => exact .none fun i s there => by simp at there
  | cons row rest ih =>
      unfold udpDemux
      cases here : row.filter (takes d rxL2) with
      | some s =>
          obtain ⟨there, hit⟩ := Option.filter_eq_some_iff.1 here
          rw [there]
          exact @Demuxed.first d rxL2 (some s :: rest) 0 s rfl hit nofun
      | none =>
          have quiet : ∀ s, row = some s → ¬ takes d rxL2 s := by
            intro s there hit
            rw [there, Option.filter_some, if_pos hit] at here
            cases here
          dsimp only
          generalize udpDemux d rxL2 rest = out at ih
          cases ih with
          | none silent =>
              refine .none fun i s there => ?_
              cases i with
              | zero => exact quiet s (Option.some.inj there)
              | succ i => exact silent i s there
          | @first fd s there hit before =>
              refine @Demuxed.first d rxL2 (row :: rest) (fd + 1) s there hit fun i below t at_ => ?_
              cases i with
              | zero => exact quiet t (Option.some.inj at_)
              | succ i => exact before i (Nat.lt_of_succ_lt_succ below) t at_

/-- The row may have a datagram to its group: it is bound to the port, admits the interface
and has joined. -/
def Entitled (d : Datagram) (rxL2 : Int) (s : Pcb) : Prop := d.Fits rxL2 s ∧ d.dst ∈ s.mcast

/-- The payload was copied into rows that may have it, and the other rows are as before. -/
def Honoured (d : Datagram) (st st' : State) : Prop :=
  ∃ fds, st'.copied = st.copied ++ fds ∧
    (∀ fd ∈ fds, ∃ s, st.sk[fd]? = some (some s) ∧ Entitled d st.rxL2 s) ∧
    ∀ fd, fd ∉ fds → st'.sk[fd]? = st.sk[fd]?

/-- The first row that is bound to the port and to the address or to all, and admits the
interface, has joined the group. -/
def FirstJoined (d : Datagram) (st : State) : Prop :=
  ∀ (fd : Fd) s, st.sk[fd]? = some (some s) → d.Fits st.rxL2 s → d.Bound s →
    (∀ i : Fd, i < fd → ∀ t, st.sk[i]? = some (some t) → ¬ (d.Fits st.rxL2 t ∧ d.Bound t)) →
    d.dst ∈ s.mcast

/-- A datagram to a group goes to a member alone exactly when it is not for us, or the first
row that could take it is a member. -/
theorem mcast_honoured_iff (pkt : Bytes) (st : State) :
    (∀ d, datagramOf pkt = some d → Group d.dst → Honoured d st (ipInput pkt st)) ↔
      ∀ d, datagramOf pkt = some d → Group d.dst → ours d.dst st → FirstJoined d st := by
  cases found : datagramOf pkt with
  | none => exact iff_of_true nofun nofun
  | some d =>
      suffices one : Honoured d st (ipInput pkt st) ↔ (ours d.dst st → FirstJoined d st) by
        constructor
        · rintro honoured _ ⟨⟩ group
          exact one.1 (honoured d rfl group)
        · rintro joined _ ⟨⟩ group
          exact one.2 (joined d rfl group)
      unfold ipInput
      rw [found]
      dsimp only
      by_cases mine : ours d.dst st
      · rw [if_pos mine]
        have spec := udpDemux_spec d st.rxL2 st.sk
        generalize udpDemux d st.rxL2 st.sk = out at spec
        cases spec with
        | none silent =>
            refine iff_of_true ⟨[], rfl, nofun, fun _ _ => rfl⟩ ?_
            intro _ fd s there fits bound _
            exact absurd ((takes_iff d _ s).2 ⟨fits, bound⟩) (silent fd s there)
        | @first fd s there hit before =>
            obtain ⟨fits, bound⟩ := (takes_iff d _ s).1 hit
            constructor
            · rintro ⟨fds, logged, entitled, _⟩ _ fd' s' there' fits' bound' before'
              have only : fds = [fd] := (List.append_cancel_left logged).symm
              obtain ⟨t, at_, _, member⟩ :=
                entitled fd (by rw [only]; exact List.mem_singleton_self _)
              rcases Nat.lt_trichotomy fd' fd with below | rfl | above
              · exact absurd ((takes_iff d _ s').2 ⟨fits', bound'⟩) (before fd' below s' there')
              · cases at_.symm.trans there'
                exact member
              · exact absurd ⟨fits, bound⟩ (before' fd above s there)
            · intro joined
              refine ⟨[fd], rfl, fun i only => ?_, fun i other => ?_⟩
              · rw [List.mem_singleton.1 only]
                refine ⟨s, there, fits, joined mine fd s there fits bound fun i below t at_ => ?_⟩
                exact fun both => before i below t at_ ((takes_iff d _ t).2 both)
              · exact set_there (fun same => other (List.mem_singleton.2 same)) _
      · rw [if_neg mine]
        exact iff_of_true ⟨[], (List.append_nil _).symm, nofun, fun _ _ => rfl⟩
          fun mine' => absurd mine' mine

def scout (mcast : List Addr) : Pcb where
  kind := .udp
  bound := true
  l2 := -1
  laddr := 0
  lport := 7300
  mcast := mcast
  mcastCap := mcast.length
  rx := []
  rxCap := 64
  rxAddr := 0
  rxPort := 0
  waiter := none

def scouts : State where
  sk := [some (scout []), some (scout [0xef000001])]
  rxL2 := -1
  loUp := true
  loAddr := 0x7f000001
  l2Ours := fun _ => false
  copied := []

def published : Bytes :=
  [69, 0, 0, 31, 0, 0, 0, 0, 64, 17, 12, 204, 127, 0, 0, 1, 239, 0, 0, 1,
    28, 133, 28, 132, 0, 11, 0, 0, 103, 114, 112]

/-- The socket that has not joined gets the datagram, and the member gets nothing. -/
theorem mcast_honoured_fails :
    ¬ ∀ (pkt : Bytes) (st : State) (d : Datagram), datagramOf pkt = some d → Group d.dst →
      Honoured d st (ipInput pkt st) := by
  intro honoured
  have there : (datagramOf published).isSome := by
    decide +kernel
  obtain ⟨d, found⟩ := Option.isSome_iff_exists.1 there
  have group : ∀ d ∈ datagramOf published, d.dst = 0xef000001 := by
    decide +kernel
  have to_ := group d found
  have copied : (ipInput published scouts).copied = [0] := by
    decide +kernel
  obtain ⟨fds, logged, entitled, _⟩ := honoured published scouts d found (by rw [to_]; decide)
  rw [copied] at logged
  have only : fds = [0] := logged.symm
  obtain ⟨s, at_, _, member⟩ := entitled 0 (by rw [only]; exact List.mem_singleton_self _)
  cases at_
  cases member

end Metal.Net.Ip.Udp
