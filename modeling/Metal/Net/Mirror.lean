import Metal.Net.Fwd
import Mathlib.Data.List.Infix

namespace Metal.Net.Fwd

open Metal.Lib Function

/-! What a mirror carries: each socket gets a prefix of what came in at the other
end of its connection, provided that the guest takes every chunk whole. -/

def takesAll : (c : Call) → c.Ret → Bool
  | .ipSend _ bytes, n => n = bytes.length
  | _, _ => true

def anyAnswer (c : Call) (_ : c.Ret) : Bool := true

structure Transparent (w : World) : Prop where
  toGuest : ∀ id, (w.log id).guestOut <+: (w.log id).hostIn
  toHost : ∀ id, (w.log id).hostOut <+: (w.log id).guestIn

/-- Of the connections that are polled, behind the listener, nothing that came in
is held back but for the hosts that are asked whether they can be written. -/
def Delivered (w : World) (set : List PollFd) : Prop :=
  ∀ p ∈ set.tail, ∀ id, w.hosts p.fd = some id →
    (w.log id).guestOut = (w.log id).hostIn ∧
      (p.out = false → (w.log id).hostOut = (w.log id).guestIn)

structure Pair (w : World) (c : Conn) (id : Nat) : Prop where
  host : w.hosts c.hostFd = some id
  guest : w.guests c.guestFd = some id
  hostFd : 0 ≤ c.hostFd
  guestFd : 0 ≤ c.guestFd
  toGuest : (w.log id).guestOut = (w.log id).hostIn
  toHost : (w.log id).hostOut ++ c.pend.drop c.pendOff = (w.log id).guestIn

structure Idle (c : Conn) : Prop where
  hostFd : c.hostFd < 0
  pend : c.pend = []

inductive Tabled (w : World) (listenFd : Int) : List Conn → List Nat → Prop
  | nil : Tabled w listenFd [] []
  | idle {c : Conn} {conns : List Conn} {ids : List Nat} (idle : Idle c)
      (rest : Tabled w listenFd conns ids) : Tabled w listenFd (c :: conns) ids
  | pair {c : Conn} {id : Nat} {conns : List Conn} {ids : List Nat}
      (pair : Pair w c id) (apart : c.hostFd ≠ listenFd) (new : id ∉ ids)
      (rest : Tabled w listenFd conns ids) : Tabled w listenFd (c :: conns) (id :: ids)

structure Inv (e : Ep) (w : World) : Prop where
  tabled : ∃ ids, Tabled w e.listenFd e.conn ids ∧ ∀ id ∈ ids, id ≤ w.accepts
  fresh : ∀ id, w.accepts < id → w.log id = ⟨[], [], [], []⟩

/-- Of the open sockets, only those of these connections are used or closed. -/
structure Spares (ids : List Nat) (w w' : World) : Prop where
  accepts : w.accepts ≤ w'.accepts
  hosts : ∀ fd, ∀ id ∉ ids, w.hosts fd = some id → w'.hosts fd = some id
  guests : ∀ fd, ∀ id ∉ ids, w.guests fd = some id → w'.guests fd = some id
  log : ∀ id ∉ ids, w'.log id = w.log id

def pre : Call → World → Prop
  | .ppoll _ set, w => Delivered w set
  | .ipSend fd bytes, w => ∀ id, w.guests fd = some id →
      (w.log id).guestOut ++ bytes = (w.log id).hostIn
  | .send fd bytes, w => ∀ id, w.hosts fd = some id →
      (w.log id).hostOut ++ bytes = (w.log id).guestIn
  | _, _ => True

def callPre : Proc → World → Prop
  | .poll _ set, w => Delivered w set
  | .accept e, w => Inv e w
  | .flush c _, w => ∃ id, Pair w c id
  | .pump e _, w => Inv e w

def callPost : (p : Proc) → World → p.Res → World → Prop
  | .poll _ _, w, _, w' => w' = w
  | .accept _, _, e, w' => Inv e w'
  | .flush c _, w, (c', _), w' => ∀ id, Pair w c id →
      Pair w' c' id ∧ c'.hostFd = c.hostFd ∧ Spares [id] w w'
  | .pump _ _, _, _, _ => True

abbrev carrying : Outline Sockets where
  Ghost := World
  pre := pre
  post := fun c w answer w' =>
    w' = w.after c answer ∧ w.answers c answer = true ∧ takesAll c answer = true
  callPre := callPre
  callPost := callPost

section Rules

variable {w w' : World} {α : Type}

@[simp] theorem wp_call (c : Call) (next : c.Ret → Prog α) (holds : α → World → Prop) :
    carrying.wp (.op c next) w holds ↔
      pre c w ∧ ∀ answer, w.answers c answer = true ∧ takesAll c answer = true →
        carrying.wp (next answer) (w.after c answer) holds :=
  Outline.wp_op_track (L := carrying) (fun _ _ => Iff.rfl) next holds

@[simp] theorem wp_invoke (p : Proc) (next : p.Res → Prog α) (holds : α → World → Prop) :
    carrying.wp (.call p next) w holds ↔
      callPre p w ∧ ∀ answer w', callPost p w answer w' →
        carrying.wp (next answer) w' holds := Iff.rfl

attribute [simp] call invoke pre callPre

theorem Spares.refl (ids : List Nat) (w : World) : Spares ids w w :=
  ⟨Nat.le_refl _, fun _ _ _ => id, fun _ _ _ => id, fun _ _ => rfl⟩

variable {ids : List Nat}

theorem Spares.trans {w'' : World} (first : Spares ids w w') (second : Spares ids w' w'') :
    Spares ids w w'' where
  accepts := Nat.le_trans first.accepts second.accepts
  hosts fd id other owner := second.hosts fd id other (first.hosts fd id other owner)
  guests fd id other owner := second.guests fd id other (first.guests fd id other owner)
  log id other := (second.log id other).trans (first.log id other)

theorem Spares.mono {more : List Nat} (spares : Spares ids w w') (within : ids ⊆ more) :
    Spares more w w' where
  accepts := spares.accepts
  hosts fd id other := spares.hosts fd id fun member => other (within member)
  guests fd id other := spares.guests fd id fun member => other (within member)
  log id other := spares.log id fun member => other (within member)

theorem Pair.spared {c : Conn} {id : Nat} (pair : Pair w c id) (other : id ∉ ids)
    (spares : Spares ids w w') : Pair w' c id where
  host := spares.hosts c.hostFd id other pair.host
  guest := spares.guests c.guestFd id other pair.guest
  hostFd := pair.hostFd
  guestFd := pair.guestFd
  toGuest := spares.log id other ▸ pair.toGuest
  toHost := spares.log id other ▸ pair.toHost

theorem Tabled.spared {listenFd : Int} {conns : List Conn} {spent : List Nat}
    (tabled : Tabled w listenFd conns ids) (others : ∀ id ∈ ids, id ∉ spent)
    (spares : Spares spent w w') : Tabled w' listenFd conns ids := by
  induction tabled with
  | nil => exact .nil
  | idle idle rest ih => exact .idle idle (ih others)
  | pair pair apart new rest ih =>
      obtain ⟨other, others⟩ := List.forall_mem_cons.mp others
      exact .pair (pair.spared other spares) apart new (ih others)

end Rules

section Turns

variable {w : World} {e : Ep} {c : Conn} {id : Nat}

@[simp] theorem record_hosts (owner : Option Nat) (change : Log → Log) :
    (w.record owner change).hosts = w.hosts := by
  cases owner <;> rfl

@[simp] theorem record_guests (owner : Option Nat) (change : Log → Log) :
    (w.record owner change).guests = w.guests := by
  cases owner <;> rfl

@[simp] theorem record_log (change : Log → Log) :
    (w.record (some id) change).log id = change (w.log id) :=
  update_self ..

@[simp] theorem record_same (owner : Option Nat) : w.record owner (fun log => log) = w := by
  cases owner with
  | none => rfl
  | some id => simp [World.record]

@[simp] theorem after_ipRecv_nil (fd : Int) (len : Nat) :
    w.after (.ipRecv fd len) (.ok []) = w := by
  simp [World.after]

@[simp] theorem after_recv_nil (fd : Int) (len : Nat) :
    w.after (.recv fd len) (.ok []) = w := by
  simp [World.after]

theorem Spares.record (change : Log → Log) : Spares [id] w (w.record (some id) change) where
  accepts := Nat.le_refl _
  hosts _ _ _ owner := owner
  guests _ _ _ owner := owner
  log _ other := update_of_ne (by simpa using other) ..

variable {fd : Int}

theorem Spares.close (owner : w.hosts fd = some id) (answer : Unit) :
    Spares [id] w (w.after (.close fd) answer) where
  accepts := Nat.le_refl _
  hosts fd' other another owner' := by
    refine (update_of_ne ?_ ..).trans owner'
    rintro rfl
    exact another (List.mem_singleton.mpr (Option.some.inj (owner'.symm.trans owner)))
  guests _ _ _ owner := owner
  log _ _ := rfl

theorem Spares.ipClose (owner : w.guests fd = some id) (answer : Unit) :
    Spares [id] w (w.after (.ipClose fd) answer) where
  accepts := Nat.le_refl _
  hosts _ _ _ owner := owner
  guests fd' other another owner' := by
    refine (update_of_ne ?_ ..).trans owner'
    rintro rfl
    exact another (List.mem_singleton.mpr (Option.some.inj (owner'.symm.trans owner)))
  log _ _ := rfl

theorem wp_hangUp {holds : Conn → World → Prop} (pair : Pair w c id)
    (apart : c.hostFd ≠ e.listenFd)
    (after : ∀ c' w', Idle c' → Spares [id] w w' → holds c' w') :
    carrying.wp (hangUp e c) w holds := by
  simp [hangUp, fwdGuestClose, apart, pair.guestFd]
  intro closed _ _ ipClosed _ _
  refine after _ _ ?_ (.trans (.close pair.host closed) (.ipClose ?_ ipClosed))
  · exact ⟨Int.negSucc_lt_zero 0, rfl⟩
  · exact pair.guest

structure Turned (e : Ep) (id : Nat) (w : World) (c' : Conn) (w' : World) : Prop where
  slot : Idle c' ∨ Pair w' c' id ∧ c'.hostFd ≠ e.listenFd
  spares : Spares [id] w w'

theorem Pair.only {id' : Nat} (pair : Pair w c id) (other : Pair w c id') : id = id' :=
  Option.some.inj (pair.host.symm.trans other.host)

theorem Pair.send (pair : Pair w c id) (sent : Nat) :
    Pair (w.after (.send c.hostFd (c.pend.drop c.pendOff)) (.ok sent))
        { c with pendOff := c.pendOff + sent } id ∧
      Spares [id] w (w.after (.send c.hostFd (c.pend.drop c.pendOff)) (.ok sent)) := by
  simp only [World.after, pair.host]
  refine ⟨⟨by simpa using pair.host, by simpa using pair.guest, pair.hostFd,
    pair.guestFd, ?_, ?_⟩, .record _⟩
  · simpa using pair.toGuest
  · simpa [List.append_assoc, ← List.drop_drop] using pair.toHost

theorem wp_flush (moved : Nat) (pair : Pair w c id) :
    carrying.wp (fwdFlush c moved) w (callPost (.flush c moved) w) := by
  have refused (answer : Option Nat) : callPost (.flush c moved) w (c, answer) w :=
    fun _ pair => ⟨pair, rfl, .refl _ w⟩
  unfold fwdFlush
  split
  · simp
    refine ⟨?_, ?_⟩
    · intro id' owner
      rw [pair.host] at owner
      cases owner
      exact pair.toHost
    · intro answer _ _
      cases answer with
      | error errno => cases errno <;> exact refused _
      | ok sent =>
          obtain ⟨pair', spares⟩ := pair.send sent
          cases sent with
          | zero =>
              intro id' mine
              obtain rfl := pair.only mine
              exact ⟨pair', rfl, spares⟩
          | succ sent =>
              simp
              refine ⟨⟨id, pair'⟩, fun c' answer w' flushed id' mine => ?_⟩
              obtain rfl := pair.only mine
              obtain ⟨pair'', same, spares'⟩ := flushed id pair'
              exact ⟨pair'', same, spares.trans spares'⟩
  · rename_i all
    refine fun id pair => ⟨⟨pair.host, pair.guest, pair.hostFd, pair.guestFd,
      pair.toGuest, ?_⟩, rfl, .refl _ w⟩
    have nothing := List.drop_eq_nil_of_le (Nat.le_of_not_lt all)
    simpa [nothing] using pair.toHost

theorem Pair.ipRecv (pair : Pair w c id) (empty : c.pend = []) (len : Nat) (bytes : Bytes) :
    Pair (w.after (.ipRecv c.guestFd len) (.ok bytes))
        { c with pend := bytes, pendOff := 0 } id ∧
      Spares [id] w (w.after (.ipRecv c.guestFd len) (.ok bytes)) := by
  have all := pair.toHost
  rw [empty, List.drop_nil, List.append_nil] at all
  simp only [World.after, pair.guest]
  refine ⟨⟨by simpa using pair.host, by simpa using pair.guest, pair.hostFd,
    pair.guestFd, ?_, ?_⟩, .record _⟩
  · simpa using pair.toGuest
  · simp [all]

theorem Turned.after {w' w'' : World} {c' : Conn} (spares : Spares [id] w w')
    (turned : Turned e id w' c' w'') : Turned e id w c' w'' :=
  ⟨turned.slot, spares.trans turned.spares⟩

variable {holds : Conn × Bool → World → Prop}

theorem wp_hangUp_turned (pair : Pair w c id) (apart : c.hostFd ≠ e.listenFd) (worked : Bool)
    (after : ∀ c' worked w', Turned e id w c' w' → holds (c', worked) w') :
    carrying.wp ((hangUp e c).bind fun c => .done (c, worked)) w holds := by
  rw [Outline.wp_bind]
  refine wp_hangUp pair apart fun c' w' idle spares => ?_
  exact after c' worked w' ⟨.inl idle, spares⟩

theorem wp_drain (guard : Nat) (worked : Bool) (pair : Pair w c id)
    (apart : c.hostFd ≠ e.listenFd)
    (after : ∀ c' worked w', Turned e id w c' w' → holds (c', worked) w') :
    carrying.wp (drain e guard c worked) w holds := by
  induction guard generalizing c w worked with
  | zero => exact after c worked w ⟨.inr ⟨pair, apart⟩, .refl _ w⟩
  | succ guard ih =>
      simp [drain]
      refine ⟨⟨id, pair⟩, fun c' moved w' flushed => ?_⟩
      obtain ⟨pair', same, spares⟩ := flushed id pair
      rw [← same] at apart
      have after' (c'' : Conn) (worked : Bool) (w'' : World)
          (turned : Turned e id w' c'' w'') : holds (c'', worked) w'' :=
        after c'' worked w'' (turned.after spares)
      cases moved with
      | none => exact wp_hangUp_turned pair' apart worked after'
      | some moved =>
          have stay (worked : Bool) : holds (c', worked) w' :=
            after' c' worked w' ⟨.inr ⟨pair', apart⟩, .refl _ w'⟩
          dsimp only
          split
          · rename_i empty
            simp
            intro answer _ _
            cases answer with
            | error code =>
                dsimp only
                split
                · exact wp_hangUp_turned pair' apart _ after'
                · exact stay _
            | ok bytes =>
                cases bytes with
                | nil =>
                    rw [after_ipRecv_nil]
                    exact stay _
                | cons byte bytes =>
                    obtain ⟨pair'', spares'⟩ := pair'.ipRecv empty e.chunk (byte :: bytes)
                    refine ih true pair'' apart fun c'' worked w'' turned => ?_
                    exact after' c'' worked w'' (turned.after spares')
          · exact stay _

theorem wp_drainGuest (worked : Bool) (pair : Pair w c id) (apart : c.hostFd ≠ e.listenFd)
    (after : ∀ c' worked w', Turned e id w c' w' → holds (c', worked) w') :
    carrying.wp (drainGuest e c worked) w holds := by
  rw [drainGuest, if_pos pair.guestFd]
  exact wp_drain drainGuard worked pair apart after

theorem after_ipSend (bytes : Bytes) (n : Int) (owner : w.guests fd = some id) :
    w.after (.ipSend fd bytes) n = w.record (some id) fun log =>
      { log with guestOut := log.guestOut ++ bytes.take n.toNat } := by
  simp only [World.after, owner]

theorem Pair.chunk (pair : Pair w c id) (len : Nat) (bytes : Bytes) :
    pre (.ipSend c.guestFd bytes) (w.after (.recv c.hostFd len) (.ok bytes)) ∧
      ∀ taken, takesAll (.ipSend c.guestFd bytes) taken = true →
        Pair ((w.after (.recv c.hostFd len) (.ok bytes)).after
            (.ipSend c.guestFd bytes) taken) c id ∧
          Spares [id] w ((w.after (.recv c.hostFd len) (.ok bytes)).after
            (.ipSend c.guestFd bytes) taken) := by
  have owner : (w.after (.recv c.hostFd len) (.ok bytes)).guests c.guestFd = some id := by
    simpa [World.after] using pair.guest
  have spares : Spares [id] w (w.after (.recv c.hostFd len) (.ok bytes)) := by
    simpa only [World.after, pair.host] using .record _
  refine ⟨fun id' mine => ?_, fun taken all => ?_⟩
  · rw [owner] at mine
    cases mine
    simp [World.after, pair.host, pair.toGuest]
  · have whole : taken = bytes.length := by simpa [takesAll] using all
    rw [after_ipSend bytes taken owner]
    refine ⟨⟨?_, ?_, pair.hostFd, pair.guestFd, ?_, ?_⟩, spares.trans (.record _)⟩
    · simpa [World.after] using pair.host
    · simpa [World.after] using pair.guest
    · simp [World.after, pair.host, pair.toGuest, whole]
    · simpa [World.after, pair.host] using pair.toHost

section Bool

variable (ready : Bool)
  (pair : Pair w c id)
  (apart : c.hostFd ≠ e.listenFd)
  (after : ∀ c' worked w', Turned e id w c' w' → holds (c', worked) w')
include ready pair apart after

theorem wp_shuttle : carrying.wp (shuttle e ready c) w holds := by
  cases ready with
  | false => exact wp_drainGuest false pair apart after
  | true =>
      simp [shuttle]
      intro answer _ _
      cases answer with
      | error errno =>
          cases errno <;> first
            | exact wp_hangUp_turned pair apart false after
            | exact wp_drainGuest false pair apart after
      | ok bytes =>
          cases bytes with
          | nil =>
              rw [after_recv_nil]
              exact wp_hangUp_turned pair apart false after
          | cons byte bytes =>
              obtain ⟨owed, through⟩ := pair.chunk e.chunk (byte :: bytes)
              simp
              refine ⟨owed, fun taken _ all => ?_⟩
              obtain ⟨pair', spares⟩ := through taken all
              exact wp_drainGuest true pair' apart fun c' worked w' turned =>
                after c' worked w' (turned.after spares)

theorem wp_serve : carrying.wp (serve e ready c) w holds := by
  rw [serve, if_neg (Int.not_lt.mpr pair.hostFd)]
  split
  · simp
    intro st _ _
    have live : Pair w { c with connecting := false } id :=
      ⟨pair.host, pair.guest, pair.hostFd, pair.guestFd, pair.toGuest, pair.toHost⟩
    split
    · exact wp_shuttle ready live apart after
    · split
      · exact wp_hangUp_turned pair apart false after
      · exact after c false w ⟨.inr ⟨pair, apart⟩, .refl _ w⟩
  · exact wp_shuttle ready pair apart after

end Bool

theorem wp_serve_idle (ready : Bool) (idle : Idle c) (after : holds (c, false) w) :
    carrying.wp (serve e ready c) w holds := by
  rw [serve, if_pos idle.hostFd]
  exact after

variable {ids : List Nat} {conns : List Conn}

theorem wp_serveAll {holds : List Conn × Bool → World → Prop} (revents : List Revents)
    (idx : List (Option Nat)) (tabled : Tabled w e.listenFd conns ids)
    (after : ∀ conns' worked w' ids', Tabled w' e.listenFd conns' ids' → ids' ⊆ ids →
      Spares ids w w' → holds (conns', worked) w') :
    carrying.wp (serveAll e revents conns idx) w holds := by
  induction conns generalizing w ids idx holds with
  | nil =>
      cases tabled
      exact after [] false w [] .nil (List.Subset.refl _) (.refl _ w)
  | cons c conns ih =>
      simp only [serveAll, Program.bind_eq, Outline.wp_bind]
      cases tabled with
      | idle idle rest =>
          refine wp_serve_idle _ idle (ih _ rest ?_)
          intro conns' worked w' ids' tabled' within spares
          exact after _ _ w' ids' (.idle idle tabled') within spares
      | @pair _ id _ ids pair apart new rest =>
          refine wp_serve _ pair apart fun c' worked w₁ turned => ?_
          have others : ∀ other ∈ ids, other ∉ [id] := by
            intro other member same
            exact new (List.mem_singleton.mp same ▸ member)
          refine ih _ (rest.spared others turned.spares) ?_
          intro conns' worked' w' ids' tabled' within spares
          have spares' : Spares (id :: ids) w w' :=
            (turned.spares.mono (by simp)).trans (spares.mono (List.subset_cons_self ..))
          rcases turned.slot with idle | ⟨pair', apart'⟩
          · exact after _ _ w' ids' (.idle idle tabled')
              (List.subset_cons_of_subset _ within) spares'
          · refine after _ _ w' (id :: ids') ?_ (List.cons_subset_cons _ within) spares'
            exact .pair (pair'.spared new spares) apart' (fun member => new (within member))
              tabled'

theorem Inv.spared {w' : World} {conn : List Conn} {ids' : List Nat} (inv : Inv e w)
    (old : ∀ id ∈ ids, id ≤ w.accepts) (tabled : Tabled w' e.listenFd conn ids')
    (within : ids' ⊆ ids) (spares : Spares ids w w') : Inv { e with conn } w' where
  tabled := ⟨ids', tabled, fun id member =>
    Nat.le_trans (old id (within member)) spares.accepts⟩
  fresh id later := by
    have beyond := Nat.lt_of_le_of_lt spares.accepts later
    rw [spares.log id fun member => Nat.not_le.mpr beyond (old id member)]
    exact inv.fresh id beyond

theorem Tabled.slot {listenFd : Int} (tabled : Tabled w listenFd conns ids) (member : c ∈ conns) :
    Idle c ∨ ∃ id, Pair w c id := by
  induction tabled with
  | nil => cases member
  | idle idle rest ih =>
      rcases List.mem_cons.mp member with rfl | later
      · exact .inl idle
      · exact ih later
  | pair pair apart new rest ih =>
      rcases List.mem_cons.mp member with rfl | later
      · exact .inr ⟨_, pair⟩
      · exact ih later

theorem Inv.delivered (inv : Inv e w) : Delivered w e.pollSet := by
  obtain ⟨ids, tabled, -⟩ := inv.tabled
  intro p member id owner
  obtain ⟨c, slot, polled⟩ := List.mem_filterMap.mp member
  rcases tabled.slot slot with idle | ⟨id', pair⟩
  · simp [Conn.polled, Int.not_le.mpr idle.hostFd] at polled
  · rw [Conn.polled, if_pos pair.hostFd] at polled
    cases polled
    rw [pair.host] at owner
    cases owner
    refine ⟨pair.toGuest, fun out => ?_⟩
    have all := pair.toHost
    rwa [List.drop_eq_nil_of_le (Nat.le_of_not_lt (of_decide_eq_false out)),
      List.append_nil] at all

theorem Tabled.occupy {listenFd h g : Int} {connecting : Bool}
    (tabled : Tabled w listenFd conns ids) (new : id ∉ ids) (pair : ∀ c, Idle c →
      Pair w { c with hostFd := h, guestFd := g, connecting := connecting } id)
    (apart : h ≠ listenFd) {c' : Conn} {conns' : List Conn} (taken : modifyFirst Conn.isFree
      (fun c => { c with hostFd := h, guestFd := g, connecting := connecting }) conns =
        some (c', conns')) : ∃ ids', Tabled w listenFd conns' ids' ∧ ids' ⊆ id :: ids := by
  induction tabled generalizing conns' with
  | nil => cases taken
  | @idle c conns ids idle rest ih =>
      rw [modifyFirst, if_pos (by simpa [Conn.isFree] using idle.hostFd)] at taken
      cases taken
      exact ⟨_, .pair (pair c idle) apart new rest, List.Subset.refl _⟩
  | @pair c other conns ids old apart' absent rest ih =>
      obtain ⟨differs, new⟩ := List.ne_and_not_mem_of_not_mem_cons new
      rw [modifyFirst, if_neg (by simpa [Conn.isFree] using old.hostFd)] at taken
      obtain ⟨⟨c'', conns''⟩, inner, same⟩ := Option.map_eq_some_iff.mp taken
      cases same
      obtain ⟨ids', tabled, within⟩ := ih new inner
      refine ⟨other :: ids', .pair old apart' (fun member => ?_) tabled, ?_⟩
      · rcases List.mem_cons.mp (within member) with same | member
        · exact differs same.symm
        · exact absent member
      · intro listed member
        rcases List.mem_cons.mp member with rfl | member
        · simp
        · rcases List.mem_cons.mp (within member) with rfl | member
          · exact List.mem_cons_self
          · simp [member]

theorem Inv.given (inv : Inv e w) {w' : World} (spares : Spares [w.accepts + 1] w w')
    (more : w'.accepts = w.accepts + 1) : Inv e w' := by
  obtain ⟨ids, tabled, old⟩ := inv.tabled
  have others : ∀ id ∈ ids, id ∉ [w.accepts + 1] := by
    intro id member
    have := old id member
    simp only [List.mem_singleton]
    omega
  refine ⟨⟨ids, tabled.spared others spares, fun id member =>
    Nat.le_trans (old id member) spares.accepts⟩, fun id later => ?_⟩
  have new : id ∉ [w.accepts + 1] := by
    simp only [List.mem_singleton]
    omega
  rw [spares.log id new]
  exact inv.fresh id (by omega)

theorem Inv.occupy (inv : Inv e w) {w' : World} {h g : Int} {connecting : Bool}
    (spares : Spares [w.accepts + 1] w w') (more : w'.accepts = w.accepts + 1)
    (log : w'.log = w.log) (host : w'.hosts h = some (w.accepts + 1))
    (guest : w'.guests g = some (w.accepts + 1)) (hostFd : 0 ≤ h) (guestFd : 0 ≤ g)
    (apart : h ≠ e.listenFd) : Inv (e.occupy h g connecting) w' := by
  have given := inv.given spares more
  unfold Ep.occupy
  split
  · rename_i c conn taken
    obtain ⟨ids, tabled, old⟩ := inv.tabled
    have new : w.accepts + 1 ∉ ids := fun member => by
      have := old _ member
      omega
    have others : ∀ id ∈ ids, id ∉ [w.accepts + 1] := by
      intro id member same
      exact new (List.mem_singleton.mp same ▸ member)
    have empty := inv.fresh (w.accepts + 1) (Nat.lt_succ_self _)
    have pair (c : Conn) (idle : Idle c) :
        Pair w' { c with hostFd := h, guestFd := g, connecting := connecting }
          (w.accepts + 1) := by
      refine ⟨host, guest, hostFd, guestFd, ?_, ?_⟩
      · rw [log, empty]
      · simp [log, empty, idle.pend]
    obtain ⟨ids', tabled', within⟩ :=
      (tabled.spared others spares).occupy new pair apart taken
    refine ⟨⟨ids', tabled', fun id member => ?_⟩, given.fresh⟩
    rw [more]
    rcases List.mem_cons.mp (within member) with rfl | member
    · exact Nat.le_refl _
    · exact Nat.le_succ_of_le (old id member)
  · exact given

theorem accept_answers {h : Int} (opened : ¬ h < 0) (legal : w.answers (.accept fd) h = true) :
    h ≠ fd ∧ w.hosts h = none := by
  simpa [World.answers, opened] using legal

theorem Spares.accept {h : Int} (opened : ¬ h < 0) (legal : w.answers (.accept fd) h = true) :
    Spares [w.accepts + 1] w (w.after (.accept fd) h) := by
  have free := (accept_answers opened legal).2
  simp only [World.after, if_neg opened]
  refine ⟨Nat.le_succ _, fun fd' id _ owner => ?_, fun _ _ _ owner => owner, fun _ _ => rfl⟩
  refine (update_of_ne ?_ ..).trans owner
  rintro rfl
  simp [free] at owner

theorem Spares.socket {g : Int} (legal : w.answers .socket g = true) :
    Spares ids w (w.after .socket g) := by
  simp only [World.after]
  split
  · exact .refl _ w
  · rename_i opened
    have free : w.guests g = none := by simp_all [World.answers]
    refine ⟨Nat.le_refl _, fun _ _ _ owner => owner, fun fd' id _ owner => ?_, fun _ _ => rfl⟩
    refine (update_of_ne ?_ ..).trans owner
    rintro rfl
    simp [free] at owner

theorem wp_accept (inv : Inv e w) :
    carrying.wp (fwdAccept e) w (callPost (.accept e) w) := by
  unfold fwdAccept
  split
  · simp [Outline.wp_ite]
    intro h legal _
    split
    · rename_i refused
      have same : w.after (.accept e.listenFd) h = w := by simp [World.after, refused]
      rw [same]
      exact inv
    · rename_i opened
      have spares := Spares.accept opened legal
      have host : (w.after (.accept e.listenFd) h).hosts h = some (w.accepts + 1) := by
        simp [World.after, opened]
      have more : (w.after (.accept e.listenFd) h).accepts = w.accepts + 1 := by
        simp [World.after, opened]
      have log : (w.after (.accept e.listenFd) h).log = w.log := by
        simp [World.after, opened]
      generalize w.after (.accept e.listenFd) h = w₁ at spares host more log ⊢
      intro g legal' _
      have spares' := spares.trans (.socket legal')
      have host' : (w₁.after .socket g).hosts h = some (w.accepts + 1) := by
        simp only [World.after]
        split <;> exact host
      have more' : (w₁.after .socket g).accepts = w.accepts + 1 := by
        simp only [World.after]
        split <;> exact more
      have guest (opened' : ¬ g < 0) :
          (w₁.after .socket g).guests g = some (w.accepts + 1) := by
        simp [World.after, opened', more]
      have log' : (w₁.after .socket g).log = w.log := by
        simp only [World.after]
        split <;> exact log
      generalize w₁.after .socket g = w₂ at spares' host' more' guest log' ⊢
      split
      · rename_i failed
        rw [if_neg (Int.not_le.mpr failed)]
        intro closed _ _
        exact ⟨inv.given (spares'.trans (.close host' closed)) more', fun _ _ => id⟩
      · rename_i opened'
        intro crc _ _
        rw [if_pos (Int.not_lt.mp opened')]
        have quiet : w₂.after (.connect g e.port) crc = w₂ := rfl
        rw [quiet]
        split
        · intro ipClosed _ _ closed _ _
          refine ⟨inv.given ((spares'.trans (.ipClose (guest opened') ipClosed)).trans
            (.close ?_ closed)) more', fun _ _ => id⟩
          exact host'
        · exact ⟨inv.occupy spares' more' log' host' (guest opened') (Int.not_lt.mp opened)
            (Int.not_lt.mp opened') (accept_answers opened legal).1, fun _ _ => id⟩
  · exact inv

theorem wp_poll (waitNs : Nat) (set : List PollFd) (delivered : Delivered w set) :
    carrying.wp (pollRetry waitNs set) w (callPost (.poll waitNs set) w) := by
  simp [pollRetry]
  refine ⟨delivered, fun answer _ _ => ?_⟩
  have quiet : w.after (.ppoll waitNs set) answer = w := by cases answer <;> rfl
  rw [quiet]
  cases answer with
  | ok revents => exact rfl
  | error errno =>
      cases errno with
      | intr => exact ⟨delivered, fun _ _ => id⟩
      | again | wouldblock | badf | connreset | notconn | other => exact rfl

theorem wp_turns (waitNs : Nat) (revents : List Revents) (idx : List (Option Nat))
    (inv : Inv e w) :
    carrying.wp ((serveAll e revents e.conn idx).bind fun turned =>
      .call (.pump { e with conn := turned.1 } (nextWait turned.2 waitNs)) .done) w
        fun _ _ => True := by
  obtain ⟨ids, tabled, old⟩ := inv.tabled
  rw [Outline.wp_bind]
  refine wp_serveAll revents idx tabled fun conns' worked w' ids' tabled' within spares => ?_
  exact ⟨inv.spared old tabled' within spares, fun _ _ _ => trivial⟩

theorem wp_pump (waitNs : Nat) (inv : Inv e w) :
    carrying.wp (fwdPump e waitNs) w fun _ _ => True := by
  simp only [fwdPump, Program.bind_eq, call, Program.bind_op, Program.bind_done, wp_call,
    pre, true_and]
  intro running _
  have same : w.after .running running = w := rfl
  rw [same]
  split
  · simp
    intro pumped _ _
    have same : w.after .ipPump pumped = w := rfl
    rw [same]
    refine ⟨inv.delivered, ?_⟩
    rintro revents _ rfl
    cases revents with
    | none => trivial
    | some revents =>
        simp
        split
        · exact wp_turns waitNs revents _ inv
        · exact ⟨inv, fun e' w' inv' => wp_turns waitNs revents _ inv'⟩
  · trivial

theorem verified : carrying.Verified body := by
  intro p w holds
  cases p with
  | poll waitNs set => exact wp_poll waitNs set holds
  | accept e => exact wp_accept holds
  | flush c moved =>
      obtain ⟨id, pair⟩ := holds
      exact wp_flush moved pair
  | pump e waitNs => exact wp_pump waitNs holds

end Turns

theorem transparent_boot : Transparent World.boot :=
  ⟨fun _ => List.prefix_refl _, fun _ => List.prefix_refl _⟩

theorem Transparent.record {w : World} (transparent : Transparent w) (owner : Option Nat)
    (change : Log → Log)
    (kept : ∀ id, owner = some id →
      (change (w.log id)).guestOut <+: (change (w.log id)).hostIn ∧
        (change (w.log id)).hostOut <+: (change (w.log id)).guestIn) :
    Transparent (w.record owner change) := by
  cases owner with
  | none => exact transparent
  | some id =>
      have either (id' : Nat) : id' = id ∨
          (w.record (some id) change).log id' = w.log id' := by
        by_cases same : id' = id
        · exact .inl same
        · exact .inr (update_of_ne same ..)
      refine ⟨fun id' => ?_, fun id' => ?_⟩
      · rcases either id' with rfl | same
        · simpa using (kept id' rfl).1
        · rw [same]
          exact transparent.toGuest id'
      · rcases either id' with rfl | same
        · simpa using (kept id' rfl).2
        · rw [same]
          exact transparent.toHost id'

theorem Transparent.after {w : World} (transparent : Transparent w) (c : Call)
    (answer : c.Ret) (allowed : pre c w) : Transparent (w.after c answer) := by
  have same {w' : World} (log : w'.log = w.log) : Transparent w' :=
    ⟨fun id => log ▸ transparent.toGuest id, fun id => log ▸ transparent.toHost id⟩
  cases c with
  | running | ipPump | ppoll | connect | established => exact transparent
  | close fd | ipClose fd => exact same rfl
  | accept fd | socket =>
      simp only [World.after]
      split
      · exact transparent
      · exact same rfl
  | recv fd len =>
      cases answer with
      | error errno => exact transparent
      | ok bytes =>
          rw [World.after]
          refine transparent.record _ _ fun id _ => ⟨?_, ?_⟩
          · exact (transparent.toGuest id).trans (List.prefix_append ..)
          · exact transparent.toHost id
  | ipRecv fd len =>
      cases answer with
      | error code => exact transparent
      | ok bytes =>
          rw [World.after]
          refine transparent.record _ _ fun id _ => ⟨?_, ?_⟩
          · exact transparent.toGuest id
          · exact (transparent.toHost id).trans (List.prefix_append ..)
  | ipSend fd bytes =>
      rw [World.after]
      refine transparent.record _ _ fun id owner => ⟨?_, ?_⟩
      · dsimp only
        rw [← allowed id owner]
        exact (List.prefix_append_right_inj _).mpr (List.take_prefix ..)
      · exact transparent.toHost id
  | send fd bytes =>
      cases answer with
      | error errno => exact transparent
      | ok sent =>
          rw [World.after]
          refine transparent.record _ _ fun id owner => ⟨?_, ?_⟩
          · exact transparent.toGuest id
          · dsimp only
            rw [← allowed id owner]
            exact (List.prefix_append_right_inj _).mpr (List.take_prefix ..)

theorem exec_answers {may : (c : Call) → c.Ret → Bool} {c : Call} {answer : c.Ret}
    {choice : (c : Call) × c.Ret} {w w' : World}
    (result : (mirror may).exec () c choice w = some (answer, w')) :
    w.answers c answer = true ∧ may c answer = true ∧ w' = w.after c answer := by
  dsimp only [mirror] at result
  split at result
  · split at result
    · rename_i same legal
      obtain ⟨rfl, rfl⟩ := Prod.mk.inj (Option.some.inj result)
      obtain ⟨legal, may⟩ := Bool.and_eq_true_iff.mp legal
      exact ⟨legal, may, rfl⟩
    · cases result
  · cases result

def Carried (w : World) (seen : Unit → World) : Prop := seen () = w ∧ Transparent w

theorem carrying_sound : carrying.Sound (M := mirror takesAll) (fun _ _ _ => True) Carried := by
  rintro ⟨⟩ c choice w seen answer w' - ⟨rfl, transparent⟩ allowed result
  obtain ⟨legal, all, rfl⟩ := exec_answers result
  refine ⟨(seen ()).after c answer, ⟨rfl, legal, all⟩, ?_, ?_⟩
  · exact update_self ..
  · exact transparent.after c answer allowed

theorem Inv.start (port : UInt16) (listenFd : Int) (conns chunk : Nat) :
    Inv (fwdEpNew port listenFd conns chunk) World.boot := by
  refine ⟨⟨[], ?_, by simp⟩, fun _ _ => rfl⟩
  induction conns with
  | zero => exact .nil
  | succ conns ih => exact .idle ⟨by decide, rfl⟩ ih

/-- A mirror whose guest takes every chunk whole is transparent all along, and
whenever it polls, it has delivered what it does not ask to write. -/
theorem transparent_of_takesAll (port : UInt16) (listenFd : Int) (conns chunk : Nat)
    {config : (mirror takesAll).Config}
    (reach : Machine.Reachable (start takesAll (fwdEpNew port listenFd conns chunk)) config) :
    Transparent config.state ∧
      ∀ waitNs set next, config.program () = .op (.ppoll waitNs set) next →
        Delivered config.state set := by
  have holds := carrying.holds_of_reach verified carrying_sound
    ⟨fun _ => World.boot, ⟨rfl, transparent_boot⟩,
      fun _ => wp_pump 0 (.start port listenFd conns chunk)⟩ reach
  obtain ⟨seen, ⟨same, transparent⟩, safe⟩ := holds
  refine ⟨transparent, fun waitNs set next polls => ?_⟩
  have safe := safe ()
  rw [polls, same] at safe
  exact safe.1

/-- A move of the thread: a call and its answer, or the way into a loop. -/
def answer (c : Call) (value : c.Ret) : Unit × ((c : Call) × c.Ret) := ((), ⟨c, value⟩)

def enter : Unit × ((c : Call) × c.Ret) := answer .running true

/-- A mirror with one slot accepts a client, and the guest has nothing yet. -/
def connected : List (Unit × ((c : Call) × c.Ret)) :=
  [answer .running true, answer .ipPump (), enter, answer (.ppoll 0 [⟨3, false⟩]) (.ok [1]),
    enter, answer (.accept 3) 5, answer .socket 7, answer (.connect 7 80) 1, enter,
    enter, answer (.ipRecv 7 8192) (.ok []), enter]

/-- The host sends a byte, and the guest takes `taken` of it. -/
def oneByte (waitNs : Nat) (byte : UInt8) (taken : Int) :
    List (Unit × ((c : Call) × c.Ret)) :=
  [answer .running true, answer .ipPump (), enter,
    answer (.ppoll waitNs [⟨3, false⟩, ⟨5, false⟩]) (.ok [0, 1]),
    answer (.recv 5 8192) (.ok [byte]), answer (.ipSend 7 [byte]) taken,
    enter, answer (.ipRecv 7 8192) (.ok []), enter]

theorem transparent_of_takesAll_connected :
    ∃ config, Machine.Reachable (start takesAll (fwdEpNew 80 3 1 8192)) config ∧
      (config.state.log 1).guestOut = [97] ∧ Transparent config.state := by
  obtain ⟨config, reach, carried⟩ := Machine.exists_reach (fun _ _ _ => True)
    (fun _ _ _ => true) (fun _ _ _ _ => trivial)
    (start takesAll (fwdEpNew 80 3 1 8192)) (connected ++ oneByte 200000 97 1)
    (fun config => (config.state.log 1).guestOut == [97]) (by decide +kernel)
  exact ⟨config, reach, beq_iff_eq.mp carried,
    (transparent_of_takesAll 80 3 1 8192 reach).1⟩

/-- A chunk that the guest refuses is gone, and the next one goes through. -/
theorem transparent_fails :
    ¬∀ config, Machine.Reachable (start anyAnswer (fwdEpNew 80 3 1 8192)) config →
      Transparent config.state := by
  intro claim
  obtain ⟨config, reach, lost⟩ := Machine.exists_reach (fun _ _ _ => True)
    (fun _ _ _ => true) (fun _ _ _ _ => trivial)
    (start anyAnswer (fwdEpNew 80 3 1 8192))
    (connected ++ oneByte 200000 97 0 ++ oneByte 0 98 1)
    (fun config => (config.state.log 1).guestOut == [98] &&
      (config.state.log 1).hostIn == [97, 98]) (by decide +kernel)
  obtain ⟨out, into⟩ := Bool.and_eq_true_iff.mp lost
  have carried := (claim config reach).toGuest 1
  rw [beq_iff_eq.mp out, beq_iff_eq.mp into] at carried
  revert carried
  decide

end Metal.Net.Fwd
