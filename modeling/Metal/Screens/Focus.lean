import Mathlib.Data.List.Perm.Basic
import Metal.Screens.Scrollback

namespace Metal.Screens

open Metal.Lib

/-! Moving the framebuffer viewport to the console that is selected. -/

def framebuffers (l : List Console) : List Viewport :=
  (l.flatMap Console.vp).filter (·.kind = fb)

def viewsAt (l : List Console) (i : Nat) : List Viewport := (l[i]?.map Console.vp).getD []

/-- No framebuffer viewport is lost or doubled; those that are not on the selected
console are where they were, and other viewports stay. -/
structure Atomic (s s' : Seat) : Prop where
  kept : (framebuffers s'.consoles).Perm (framebuffers s.consoles)
  stays : ∀ i ≠ s'.focus,
    ((viewsAt s'.consoles i).filter (·.kind = fb)).Sublist
      ((viewsAt s.consoles i).filter (·.kind = fb))
  others : ∀ i, (viewsAt s'.consoles i).filter (·.kind ≠ fb) =
    (viewsAt s.consoles i).filter (·.kind ≠ fb)

def Makeable (m : Supply) (id : Nat) (s : Seat) : Prop :=
  (consoleGet s id).isSome ∨ s.arena ∧ m.line.isSome ∧
    (id < s.consoles.length ∨ ∃ more ∈ m.rows, id < s.consoles.length + more)

/-- There is room for one more viewport on the console at `id`. -/
structure Takes (m : Supply) (id : Nat) (s : Seat) : Prop where
  offered : id < s.screens
  console : Makeable m id s
  allowed : s.room (((consoleGet s id).getD Console.zero).vp.length)
  place : ((consoleGet s id).getD Console.zero).vp.length <
      ((consoleGet s id).getD Console.zero).vpCap ∨
    ∃ more ∈ m.places, ((consoleGet s id).getD Console.zero).vp.length <
      ((consoleGet s id).getD Console.zero).vpCap + more

/-- The first console with a framebuffer viewport has just that one, and without it
there is room for it on the selected console. -/
def Moves (m : Supply) (id : Nat) (s : Seat) : Prop :=
  ∀ i, (s.consoles.findIdx? fun c => (firstOf fb c).isSome) = some i →
    ((viewsAt s.consoles i).filter (·.kind = fb)).length = 1 ∧
      Takes m id { s with consoles := s.consoles.modify i (vpRemoveKind fb) }

def Clean (s : Seat) : Prop := ∀ c ∈ s.consoles, c.live = false → c = Console.zero

theorem framebuffers_append (l k : List Console) :
    framebuffers (l ++ k) = framebuffers l ++ framebuffers k := by
  rw [framebuffers, List.flatMap_append, List.filter_append]
  rfl

theorem framebuffers_cons (c : Console) (l : List Console) :
    framebuffers (c :: l) = framebuffers [c] ++ framebuffers l :=
  framebuffers_append [c] l

variable {i : Nat} {l : List Console} {c : Console}

theorem framebuffers_modify (here : l[i]? = some c) (change : Console → Console) :
    (framebuffers (l.modify i change) ++ framebuffers [c]).Perm
      (framebuffers l ++ framebuffers [change c]) := by
  induction l generalizing i with
  | nil => cases here
  | cons top l ih =>
      cases i with
      | zero =>
          cases here
          rw [List.modify_zero_cons, framebuffers_cons, framebuffers_cons c l]
          rw [List.append_assoc]
          exact List.perm_append_comm.trans (List.perm_append_comm.append_right _)
      | succ i =>
          rw [List.modify_succ_cons, framebuffers_cons, framebuffers_cons top l,
            List.append_assoc, List.append_assoc]
          exact (ih here).append_left _

theorem viewsAt_rows (s : Seat) (more i : Nat) : viewsAt (s.rows more) i = viewsAt s.consoles i := by
  rw [viewsAt, viewsAt, Seat.rows]
  rcases Nat.lt_or_ge i s.consoles.length with old | new
  · rw [List.getElem?_append_left old]
  · rw [List.getElem?_append_right new, List.getElem?_eq_none new]
    cases row : (List.replicate more Console.zero)[i - s.consoles.length]? with
    | none => rfl
    | some c =>
        rw [List.eq_of_mem_replicate (List.mem_of_getElem? row)]
        rfl

theorem framebuffers_rows (s : Seat) (more : Nat) :
    framebuffers (s.rows more) = framebuffers s.consoles := by
  have none_ : framebuffers (List.replicate more Console.zero) = [] := by
    induction more with
    | zero => rfl
    | succ more ih => rw [List.replicate_succ, framebuffers_cons, ih]; rfl
  rw [Seat.rows, framebuffers_append, none_, List.append_nil]

theorem viewsAt_modify (l : List Console) (i j : Nat) (change : Console → Console) :
    viewsAt (l.modify i change) j =
      if i = j then ((l[i]?.map change).map Console.vp).getD [] else viewsAt l j := by
  rw [viewsAt, viewsAt, List.getElem?_modify]
  by_cases same : i = j
  · rw [if_pos same, same]
    cases l[j]? with
    | none => rfl
    | some c => simp
  · rw [if_neg same]
    cases l[j]? with
    | none => rfl
    | some c => simp [same]

variable {change : Console → Console}

theorem views_kept (same : ∀ c, l[i]? = some c → (change c).vp = c.vp) :
    (∀ j, viewsAt (l.modify i change) j = viewsAt l j) ∧
      (framebuffers (l.modify i change)).Perm (framebuffers l) := by
  cases here : l[i]? with
  | none =>
      rw [List.modify_eq_self (List.getElem?_eq_none_iff.mp here)]
      exact ⟨fun _ => rfl, .rfl⟩
  | some c =>
      have vp := same c here
      constructor
      · intro j
        rw [viewsAt_modify]
        split
        · rename_i at_
          rw [← at_, viewsAt, here, Option.map_some, Option.map_some, vp]
          rfl
        · rfl
      · have changed := framebuffers_modify here change
        have same' : framebuffers [change c] = framebuffers [c] := by
          rw [framebuffers, framebuffers, List.flatMap_singleton, List.flatMap_singleton, vp]
        rw [same'] at changed
        exact (List.perm_append_right_iff _).mp changed

variable {after : Seat}

theorem Makes.views {m : Supply} {id : Nat} {s : Seat} {flag : Bool}
    (makes : Makes m id s after flag) :
    (∀ i, viewsAt after.consoles i = viewsAt s.consoles i) ∧
      (framebuffers after.consoles).Perm (framebuffers s.consoles) := by
  cases makes with
  | there here => exact ⟨fun _ => rfl, .rfl⟩
  | refused more => exact ⟨viewsAt_rows s more, .of_eq (framebuffers_rows s more)⟩
  | made more below row gone width =>
      obtain ⟨views, whole⟩ := views_kept (l := s.rows more) (i := id)
        fun c _ => (ringFit_live s.depth m.ring { c with line := _, live := true }).2.1
      exact ⟨fun i => (views i).trans (viewsAt_rows s more i),
        whole.trans (.of_eq (framebuffers_rows s more))⟩

section Attach

variable {s : Seat} {m : Supply} {id : Nat}

theorem rows_row {more : Nat} (row : (s.rows more)[id]? = some c) :
    s.consoles[id]? = some c ∨ s.consoles.length ≤ id ∧ c = Console.zero := by
  rcases Nat.lt_or_ge id s.consoles.length with old | new
  · rw [Seat.rows, List.getElem?_append_left old] at row
    exact .inl row
  · rw [Seat.rows, List.getElem?_append_right new] at row
    exact .inr ⟨new, List.eq_of_mem_replicate (List.mem_of_getElem? row)⟩

/-- The console that `console_make` gives shows what was there, and nothing where
there was none. -/
theorem Makes.row (clean : Clean s) (makes : Makes m id s after true) :
    ∃ c, after.consoles[id]? = some c ∧ c.vp = ((consoleGet s id).getD Console.zero).vp ∧
      c.vpCap = ((consoleGet s id).getD Console.zero).vpCap := by
  cases makes with
  | @there c here => exact ⟨c, (consoleGet_eq_some.mp here).2.1, by rw [here]; exact ⟨rfl, rfl⟩⟩
  | @made more c line below row gone width =>
      have blank : c = Console.zero := by
        rcases rows_row row with old | ⟨-, new⟩
        · exact clean c (List.mem_of_getElem? old) gone
        · exact new
      have none_ : consoleGet s id = none := by
        cases here : consoleGet s id with
        | none => rfl
        | some other =>
            obtain ⟨-, there, alive⟩ := consoleGet_eq_some.mp here
            rcases rows_row row with old | ⟨new, -⟩
            · rw [Option.some.inj (old.symm.trans there), alive] at gone
              cases gone
            · rw [List.getElem?_eq_none new] at there
              cases there
      obtain ⟨-, vp, vpCap⟩ := ringFit_live s.depth m.ring { c with line := line, live := true }
      rw [none_]
      refine ⟨_, modify_here row _, ?_, ?_⟩
      · rw [vp, blank]
        rfl
      · rw [vpCap, blank]
        rfl

theorem Makes.same {flag : Bool} (makes : Makes m id s after flag) :
    after.room = s.room ∧ after.focus = s.focus := by
  cases makes with
  | there here | refused more | made more below row gone width => exact ⟨rfl, rfl⟩

theorem consoleMake_iff (below : id < s.screens) :
    (consoleMake m id s).2 = true ↔ Makeable m id s := by
  rw [Makeable, consoleMake]
  cases here : consoleGet s id with
  | some c => simp
  | none =>
      rw [if_neg (by simp)]
      by_cases arena : s.arena
      · rw [if_neg (by simp [arena]; omega)]
        by_cases inside : id < s.consoles.length
        · rw [if_pos inside]
          cases m.line with
          | none => simp
          | some held => simp [arena, inside]
        · rw [if_neg inside]
          cases m.rows with
          | none => simp [inside]
          | some more =>
              by_cases reaches : id < s.consoles.length + more
              · simp only [if_pos reaches]
                cases m.line with
                | none => simp
                | some held => simp [arena, reaches]
              · simp [inside, reaches]
      · rw [if_pos (by simp [arena])]
        simp [arena]

theorem Takes.attach (clean : Clean s) (takes : Takes m id s) {kind : Bytes} (named : kind ≠ [])
    (sink : Nat) : ∃ cap, (attachId m id kind (some sink) s).seat =
        { (consoleMake m id s).1 with consoles := (consoleMake m id s).1.consoles.modify id fun c =>
          { c with vp := c.vp ++ [⟨kind, sink⟩], vpCap := cap } } := by
  have made := (consoleMake_iff takes.offered).mpr takes.console
  have makes := consoleMake_makes m id s
  rw [made] at makes
  obtain ⟨c, row, vp, vpCap⟩ := makes.row clean
  have allowed := takes.allowed
  have place := takes.place
  rw [← vp] at allowed place
  rw [← vpCap] at place
  have offered := takes.offered
  unfold attachId
  dsimp only
  rw [if_neg (by simp [named]; omega), made, if_pos rfl, row]
  dsimp only
  rw [makes.same.1, if_neg (by simpa using allowed)]
  by_cases free : c.vp.length < c.vpCap
  · rw [if_pos free]
    dsimp only
    rw [if_neg (by omega)]
    exact ⟨_, rfl⟩
  · obtain ⟨more, places, enough⟩ := place.resolve_left free
    rw [if_neg free, Option.mem_def.mp places, Option.map_some]
    dsimp only
    rw [if_neg (by omega)]
    exact ⟨_, rfl⟩

theorem attach_refused (clean : Clean s) (full : ¬ Takes m id s) (kind : Bytes) (sink : Nat) :
    (attachId m id kind (some sink) s).seat = s ∨
      (attachId m id kind (some sink) s).seat = (consoleMake m id s).1 := by
  unfold attachId
  dsimp only
  split
  · exact .inl rfl
  · rename_i offered
    obtain ⟨below, -⟩ := not_or.mp offered
    have makes := consoleMake_makes m id s
    cases made : (consoleMake m id s).2 with
    | false => exact .inr rfl
    | true =>
        rw [made] at makes
        obtain ⟨c, row, vp, vpCap⟩ := makes.row clean
        rw [if_pos rfl, row]
        dsimp only
        split
        · exact .inr rfl
        · rename_i allowed
          split
          · exact .inr rfl
          · rename_i cap found
            split
            · exact .inr rfl
            · rename_i enough
              refine absurd ⟨by omega, (consoleMake_iff (by omega)).mp made, ?_, ?_⟩ full
              · rw [← vp, ← makes.same.1]
                simpa using allowed
              · rw [← vp, ← vpCap]
                split at found
                · exact .inl ‹_›
                · obtain ⟨more, places, rfl⟩ := Option.map_eq_some_iff.mp found
                  exact .inr ⟨more, places, by omega⟩

end Attach

section Select

variable {s : Seat} {m : Supply}

theorem viewsAt_of (here : l[i]? = some c) : viewsAt l i = c.vp := by
  rw [viewsAt, here]
  rfl

theorem framebuffers_one (c : Console) : framebuffers [c] = c.vp.filter (·.kind = fb) := by
  rw [framebuffers, List.flatMap_singleton]

theorem removed_views (here : s.consoles[i]? = some c) :
    (∀ j, viewsAt (s.consoles.modify i (vpRemoveKind fb)) j =
      if i = j then c.vp.filter (·.kind ≠ fb) else viewsAt s.consoles j) ∧
    (framebuffers (s.consoles.modify i (vpRemoveKind fb)) ++ c.vp.filter (·.kind = fb)).Perm
      (framebuffers s.consoles) := by
  constructor
  · intro j
    rw [viewsAt_modify, here]
    rfl
  · have changed := framebuffers_modify here (vpRemoveKind fb)
    have none_ : framebuffers [vpRemoveKind fb c] = [] := by
      rw [framebuffers_one, vpRemoveKind, List.filter_filter, List.filter_eq_nil_iff]
      simp
    rwa [none_, List.append_nil, framebuffers_one] at changed

theorem Clean.modify (clean : Clean s) (here : s.consoles[i]? = some c)
    (alive : (change c).live = true) : Clean { s with consoles := s.consoles.modify i change } := by
  intro c' member gone
  obtain ⟨j, row⟩ := List.getElem?_of_mem member
  rcases modify_cases row with ⟨before, there, rfl, rfl⟩ | ⟨-, there⟩
  · rw [Option.some.inj (there.symm.trans here), alive] at gone
    cases gone
  · exact clean c' (List.mem_of_getElem? there) gone

theorem appended_views {to_ : Nat} (cap : Nat) (row : l[to_]? = some c) (v : Viewport)
    (shown : v.kind = fb) :
    (∀ j, viewsAt (l.modify to_ fun c => { c with vp := c.vp ++ [v], vpCap := cap }) j =
      if to_ = j then c.vp ++ [v] else viewsAt l j) ∧
    (framebuffers (l.modify to_ fun c => { c with vp := c.vp ++ [v], vpCap := cap })).Perm
      (framebuffers l ++ [v]) := by
  constructor
  · intro j
    rw [viewsAt_modify, row]
    rfl
  · have changed := framebuffers_modify row fun c => { c with vp := c.vp ++ [v], vpCap := cap }
    rw [framebuffers_one, framebuffers_one, List.filter_append,
      List.filter_cons_of_pos (by simpa using shown), List.filter_nil] at changed
    refine (List.perm_append_right_iff _).mp (changed.trans ?_)
    rw [List.append_assoc]
    exact List.perm_append_comm.append_left _

theorem rebind_atomic_iff (clean : Clean s) (below : s.focus < s.screens)
    (found : (s.consoles.findIdx? fun c => (firstOf fb c).isSome) = some i) :
    Atomic s (rebindKind m fb s.focus s).seat ↔
      ((viewsAt s.consoles i).filter (·.kind = fb)).length = 1 ∧
        Takes m s.focus { s with consoles := s.consoles.modify i (vpRemoveKind fb) } := by
  obtain ⟨inside, first, -⟩ := List.findIdx?_eq_some_iff_getElem.mp found
  have here := List.getElem?_eq_getElem inside
  generalize s.consoles[i] = c at first here
  have alive := firstOf_live first
  obtain ⟨v, match_⟩ := Option.isSome_iff_exists.mp first
  have sink : (s.consoles[i]?.bind (firstOf fb)).map Viewport.sink = some v.sink := by
    rw [here, Option.bind_some, match_, Option.map_some]
  rw [firstOf, if_pos alive] at match_
  have shown : v.kind = fb := by simpa using List.find?_some match_
  have listed : v ∈ c.vp.filter (·.kind = fb) :=
    List.mem_filter.mpr ⟨List.mem_of_find?_eq_some match_, decide_eq_true shown⟩
  obtain ⟨views, whole⟩ := removed_views here
  have clean' : Clean { s with consoles := s.consoles.modify i (vpRemoveKind fb) } :=
    clean.modify here alive
  rw [rebindKind, if_neg (by omega), found]
  dsimp only
  rw [sink, viewsAt_of here]
  generalize removed : { s with consoles := s.consoles.modify i (vpRemoveKind fb) } = s' at clean'
  have same : s'.consoles = s.consoles.modify i (vpRemoveKind fb) := by rw [← removed]
  have focus : s'.focus = s.focus := by rw [← removed]
  rw [← same] at views whole
  have rest (j : Nat) : (viewsAt s'.consoles j).filter (·.kind ≠ fb) =
      (viewsAt s.consoles j).filter (·.kind ≠ fb) := by
    rw [views]
    split
    · rename_i at_
      rw [← at_, viewsAt_of here, List.filter_filter]
      simp
    · rfl
  by_cases takes : Takes m s.focus s'
  · obtain ⟨cap, attached⟩ := takes.attach clean' (by decide : fb ≠ []) v.sink
    have makes := consoleMake_makes m s.focus s'
    rw [(consoleMake_iff takes.offered).mpr takes.console] at makes
    generalize (consoleMake m s.focus s').1 = after at makes attached
    obtain ⟨d, row, -⟩ := makes.row clean'
    obtain ⟨after_, all⟩ := makes.views
    have same_ : (⟨fb, v.sink⟩ : Viewport) = v := by rw [← shown]
    obtain ⟨moved, total⟩ := appended_views cap row v shown
    have focus_ : after.focus = s.focus := makes.same.2.trans focus
    rw [attached, same_]
    have balance : (framebuffers (after.consoles.modify s.focus fun c =>
        { c with vp := c.vp ++ [v], vpCap := cap }) ++ c.vp.filter (·.kind = fb)).Perm
          (framebuffers s.consoles ++ [v]) := by
      refine ((total.trans (all.append_right [v])).append_right _).trans ?_
      rw [List.append_assoc]
      refine (List.perm_append_comm.append_left _).trans ?_
      rw [← List.append_assoc]
      exact whole.append_right [v]
    constructor
    · intro atomic
      have one := (atomic.kept.symm.append_right (c.vp.filter (·.kind = fb))).trans balance
      exact ⟨((List.perm_append_left_iff _).mp one).length_eq, takes⟩
    · rintro ⟨one, -⟩
      obtain ⟨w, only⟩ := List.length_eq_one_iff.mp one
      rw [only, List.mem_singleton] at listed
      subst listed
      rw [only] at balance
      refine ⟨(List.perm_append_right_iff [v]).mp balance, fun j other => ?_, fun j => ?_⟩
      · change j ≠ after.focus at other
        rw [focus_] at other
        dsimp only
        rw [moved, if_neg (Ne.symm other), after_, views]
        split
        · rw [List.filter_filter, List.filter_eq_nil_iff.mpr (by simp)]
          exact List.nil_sublist _
        · exact List.Sublist.refl _
      · dsimp only
        rw [moved, ← rest]
        split
        · rename_i at_
          rw [← at_, ← after_, viewsAt_of row, List.filter_append,
            List.filter_cons_of_neg (by simpa using shown), List.filter_nil, List.append_nil]
        · rw [after_]
  · have lost : (framebuffers (attachId m s.focus fb (some v.sink) s').seat.consoles).Perm
        (framebuffers s'.consoles) := by
      rcases attach_refused clean' takes fb v.sink with refused | refused
      · rw [refused]
      · rw [refused]
        exact (consoleMake_makes m s.focus s').views.2
    refine ⟨fun atomic => ?_, fun both => absurd both.2 takes⟩
    have short := (lost.symm.trans atomic.kept).length_eq
    have long := whole.length_eq
    rw [List.length_append] at long
    have some_ := List.length_pos_of_mem listed
    omega

theorem select_atomic_iff (m : Supply) (id : Int) (clean : Clean s) :
    Atomic s (select m id s).seat ↔
      (id < 0 ∨ id.toNat ≥ s.screens) ∨ s.focus = id.toNat ∨ Moves m id.toNat s := by
  have unchanged (focus : Nat) : Atomic s { s with focus := focus } :=
    ⟨.rfl, fun _ _ => List.Sublist.refl _, fun _ => rfl⟩
  rw [select]
  by_cases off : id < 0 ∨ id.toNat ≥ s.screens
  · rw [if_pos off]
    exact ⟨fun _ => .inl off, fun _ => unchanged s.focus⟩
  rw [if_neg off]
  by_cases here : s.focus = id.toNat
  · rw [if_pos here]
    exact ⟨fun _ => .inr (.inl here), fun _ => unchanged s.focus⟩
  rw [if_neg here, or_iff_right off, or_iff_right here]
  obtain ⟨-, below⟩ := not_or.mp off
  generalize id.toNat = to_ at below here
  have below : to_ < s.screens := Nat.lt_of_not_le below
  have clean' : Clean { s with focus := to_ } := clean
  rw [Moves]
  cases found : s.consoles.findIdx? fun c => (firstOf fb c).isSome with
  | none =>
      refine ⟨fun _ => by rintro _ ⟨⟩, fun _ => ?_⟩
      rw [rebindKind, if_neg (by dsimp only; omega)]
      dsimp only
      rw [found]
      exact unchanged to_
  | some i =>
      have moved := rebind_atomic_iff (m := m) clean' below found
      constructor
      · rintro atomic _ ⟨⟩
        obtain ⟨one, takes⟩ := moved.mp ⟨atomic.kept, atomic.stays, atomic.others⟩
        exact ⟨one, takes.offered, takes.console, takes.allowed, takes.place⟩
      · intro moves
        obtain ⟨one, takes⟩ := moves i rfl
        obtain ⟨kept, stays, others⟩ :=
          moved.mpr ⟨one, takes.offered, takes.console, takes.allowed, takes.place⟩
        exact ⟨kept, stays, others⟩

end Select

def Tidy (l l' : List Console) : Prop := ∀ c ∈ l', c.live = true ∨ c = Console.zero ∨ c ∈ l

theorem Tidy.rfl : Tidy l l := fun _ member => .inr (.inr member)

theorem Tidy.trans {k j : List Console} (first : Tidy l k) (second : Tidy k j) : Tidy l j := by
  intro c member
  rcases second c member with alive | blank | old
  · exact .inl alive
  · exact .inr (.inl blank)
  · exact first c old

theorem Tidy.modify (alive : ∀ c, l[i]? = some c → (change c).live = true) :
    Tidy l (l.modify i change) := by
  intro c member
  obtain ⟨j, row⟩ := List.getElem?_of_mem member
  rcases modify_cases row with ⟨before, there, rfl, rfl⟩ | ⟨-, there⟩
  · exact .inl (alive before there)
  · exact .inr (.inr (List.mem_of_getElem? there))

theorem Makes.tidy {m : Supply} {id : Nat} {s : Seat} {flag : Bool}
    (makes : Makes m id s after flag) : Tidy s.consoles after.consoles := by
  have rows (more : Nat) : Tidy s.consoles (s.rows more) := by
    intro c member
    rcases List.mem_append.mp member with old | new
    · exact .inr (.inr old)
    · exact .inr (.inl (List.eq_of_mem_replicate new))
  cases makes with
  | there here => exact .rfl
  | refused more => exact rows more
  | made more below row gone width =>
      exact (rows more).trans (.modify fun c _ => (ringFit_live _ _ _).1)

theorem attachId_tidy (m : Supply) (id : Nat) (kind : Bytes) (sink : Option Nat) (s : Seat) :
    Tidy s.consoles (attachId m id kind sink s).seat.consoles := by
  have makes := consoleMake_makes m id s
  rcases attachId_cases m id kind sink s with same | same | ⟨made, viewport, cap, same⟩
  · rw [same]
    exact .rfl
  · rw [same]
    exact makes.tidy
  · rw [same]
    rw [made] at makes
    exact makes.tidy.trans (.modify makes.alive)

theorem rebindKind_tidy (m : Supply) (kind : Bytes) (to_ : Nat) (s : Seat) :
    Tidy s.consoles (rebindKind m kind to_ s).seat.consoles := by
  rw [rebindKind]
  split
  · exact .rfl
  · split
    · exact .rfl
    · rename_i i found
      refine Tidy.trans (.modify fun c here => ?_) (attachId_tidy m to_ kind _ _)
      obtain ⟨inside, first, -⟩ := List.findIdx?_eq_some_iff_getElem.mp found
      have alive := firstOf_live first
      rw [List.getElem?_eq_getElem inside] at here
      rw [Option.some.inj here] at alive
      exact alive

theorem writeId_tidy (m : Supply) (id : Nat) (bytes : Bytes) (s : Seat) :
    Tidy s.consoles (writeId m id bytes s).seat.consoles := by
  have makes := consoleMake_makes m id s
  rw [writeId]
  split
  · exact .rfl
  · split
    · exact .rfl
    · dsimp only
      split
      · exact makes.tidy
      · rename_i reached
        obtain ⟨-, made⟩ := not_or.mp reached
        simp only [Bool.not_eq_true', Bool.not_eq_false] at made
        rw [made] at makes
        exact makes.tidy.trans (.modify fun c here => (puts_live bytes c).trans (makes.alive c here))

theorem scrollbackApply_tidy (depth : Nat) (blocks : Nat → Option (Nat → Bytes))
    (l : List Console) : Tidy l (scrollbackApply depth blocks 0 l).1 := by
  obtain ⟨length, rows⟩ := List.forall₂_iff_get.mp (scrollbackApply_follows depth blocks 0 l)
  intro c member
  obtain ⟨i, inside, rfl⟩ := List.getElem_of_mem member
  have inside' : i < l.length := length ▸ inside
  rcases rows i inside' inside with same | ⟨alive, block, fitted⟩
  · exact .inr (.inr (List.mem_of_getElem? (List.getElem?_eq_some_iff.mpr ⟨inside', same.symm⟩)))
  · refine .inl ?_
    change ((scrollbackApply depth blocks 0 l).1.get ⟨i, inside⟩).live = true
    rw [fitted, (ringFit_live _ _ _).1, alive]

theorem World.step_tidy (w : World) (act : Act) :
    Tidy w.seat.consoles (w.step act).seat.consoles := by
  cases act with
  | init m fillKind =>
      have attached := attachId_tidy m 0 fillKind (some 0)
        { w.seat with arena := true, focus := 0, ready := false }
      rw [World.step, init]
      dsimp only
      split
      · exact attached
      · exact attached
  | deinit => rintro _ ⟨⟩
  | write m id bytes => exact writeId_tidy m id bytes w.seat
  | turn blocks depth after => exact scrollbackApply_tidy depth blocks w.seat.consoles
  | limits screens room => exact .rfl
  | attach m id kind sink => exact attachId_tidy m id kind sink w.seat
  | select m id =>
      rw [World.step, select]
      split
      · exact .rfl
      · split
        · exact .rfl
        · exact rebindKind_tidy m fb id.toNat { w.seat with focus := id.toNat }

theorem clean_run (screens : Nat) (room : Nat → Bool) (acts : List Act) :
    Clean (acts.foldl World.step (World.boot screens room)).seat := by
  have kept (w : World) (act : Act) (clean : Clean w.seat) : Clean (w.step act).seat := by
    intro c member gone
    rcases w.step_tidy act c member with alive | blank | old
    · rw [alive] at gone
      cases gone
    · exact blank
    · exact clean c old gone
  have boot : Clean (World.boot screens room).seat := fun _ member => nomatch member
  exact foldl_invariant kept boot acts

/-- In every seat that occurs, a selection is atomic exactly when it moves nothing
or moves the one framebuffer viewport of a console to one that takes it. -/
theorem select_iff (screens : Nat) (room : Nat → Bool) (acts : List Act) (m : Supply) (id : Int) :
    let s := (acts.foldl World.step (World.boot screens room)).seat
    Atomic s (select m id s).seat ↔
      (id < 0 ∨ id.toNat ≥ s.screens) ∨ s.focus = id.toNat ∨ Moves m id.toNat s :=
  select_atomic_iff m id (clean_run screens room acts)

def empty : Supply := ⟨none, none, none, none⟩

def shown : World :=
  [Act.init plenty [0x75], .attach plenty 0 fb (some 1)].foldl World.step
    (World.boot 6 fun _ => true)

/-- The second screen has no console yet and gets none: the framebuffer viewport is
on no console any more, and the call returns 0. -/
theorem select_loses : (select empty 1 shown.seat).result = 0 ∧
    framebuffers shown.seat.consoles = [⟨fb, 1⟩] ∧
    framebuffers (select empty 1 shown.seat).seat.consoles = [] ∧
    ¬ Atomic shown.seat (select empty 1 shown.seat).seat := by
  have before : framebuffers shown.seat.consoles = [⟨fb, 1⟩] := by decide
  have after : framebuffers (select empty 1 shown.seat).seat.consoles = [] := by decide
  refine ⟨rfl, before, after, fun atomic => ?_⟩
  have kept := atomic.kept
  rw [before, after] at kept
  cases kept.length_eq

end Metal.Screens
