import Metal.Lib.CString

namespace Metal.Lib

/-! Paths: steps down to a name and up again, and where they lead. -/

namespace Segments

inductive Step (β : Type)
  | up
  | down (name : β)
  deriving DecidableEq

section Walk

variable {β : Type}

/-- A step from the directory with these names above it; the root is its own parent. -/
def move (dirs : List β) : Step β → List β
  | .up => dirs.dropLast
  | .down name => dirs ++ [name]

def walk (dirs : List β) (steps : List (Step β)) : List β := steps.foldl move dirs

/-- A step from a place that is some levels up and then down to some names. -/
def relate (place : Nat × List β) : Step β → Nat × List β
  | .up => if place.2.isEmpty then (place.1 + 1, []) else (place.1, place.2.dropLast)
  | .down name => (place.1, place.2 ++ [name])

/-- Where the steps lead from anywhere: some levels up, and then down to these names. -/
def relative (steps : List (Step β)) : Nat × List β := steps.foldl relate (0, [])

def Below (dirs place : List β) : Prop := ∃ more, more ≠ [] ∧ place = dirs ++ more

/-- The names begin with those of the last `ups` directories, and go on. -/
def ComesBack (dirs : List β) (ups : Nat) (names : List β) : Prop :=
  Below (dirs.drop (dirs.length - ups)) names

instance [DecidableEq β] (dirs place : List β) : Decidable (Below dirs place) :=
  decidable_of_iff (place.take dirs.length = dirs ∧ place.drop dirs.length ≠ []) <| by
    constructor
    · rintro ⟨front, more⟩
      refine ⟨_, more, ?_⟩
      have whole := List.take_append_drop dirs.length place
      rw [front] at whole
      exact whole.symm
    · rintro ⟨more, some_, rfl⟩
      exact ⟨List.take_left, by rwa [List.drop_left]⟩

instance [DecidableEq β] (dirs : List β) (ups : Nat) (names : List β) :
    Decidable (ComesBack dirs ups names) :=
  inferInstanceAs (Decidable (Below _ _))

theorem walk_append (dirs : List β) (first second : List (Step β)) :
    walk dirs (first ++ second) = walk (walk dirs first) second :=
  List.foldl_append

theorem walk_down (dirs names : List β) : walk dirs (names.map .down) = dirs ++ names := by
  induction names generalizing dirs with
  | nil => exact (List.append_nil dirs).symm
  | cons name rest ih =>
      have next : walk dirs ((name :: rest).map .down) = walk (dirs ++ [name]) (rest.map .down) :=
        rfl
      rw [next, ih, List.append_assoc, List.singleton_append]

theorem move_relate (dirs : List β) (place : Nat × List β) (step : Step β) :
    move (dirs.take (dirs.length - place.1) ++ place.2) step =
      dirs.take (dirs.length - (relate place step).1) ++ (relate place step).2 := by
  obtain ⟨ups, names⟩ := place
  cases step with
  | down name => exact List.append_assoc ..
  | up =>
      rcases List.eq_nil_or_concat names with rfl | ⟨init, last, rfl⟩
      · have shorter : min (dirs.length - ups - 1) (dirs.length - ups) = dirs.length - (ups + 1) := by
          omega
        change (dirs.take (dirs.length - ups) ++ []).dropLast =
          dirs.take (dirs.length - (ups + 1)) ++ []
        rw [List.append_nil, List.append_nil, List.dropLast_eq_take,
          List.length_take_of_le (Nat.sub_le _ _), List.take_take, shorter]
      · simp [move, relate]

theorem walk_eq (dirs : List β) (steps : List (Step β)) :
    walk dirs steps = dirs.take (dirs.length - (relative steps).1) ++ (relative steps).2 := by
  have general (place : Nat × List β) :
      walk (dirs.take (dirs.length - place.1) ++ place.2) steps =
        dirs.take (dirs.length - (steps.foldl relate place).1) ++
          (steps.foldl relate place).2 := by
    induction steps generalizing place with
    | nil => rfl
    | cons step rest ih =>
        rw [List.foldl_cons, ← ih, ← move_relate]
        rfl
  have start := general (0, [])
  rwa [Nat.sub_zero, List.take_length, List.append_nil] at start

theorem below_walk_iff (dirs own : List β) (steps : List (Step β)) :
    Below dirs (walk (dirs ++ own) steps) ↔
      (relative steps).1 < own.length ∨
        ComesBack dirs ((relative steps).1 - own.length) (relative steps).2 := by
  rw [walk_eq]
  generalize relative steps = place
  obtain ⟨ups, names⟩ := place
  dsimp only
  rw [List.length_append]
  rcases Nat.lt_or_ge ups own.length with within | climbs
  · refine iff_of_true ⟨own.take (own.length - ups) ++ names, ?_, ?_⟩ (.inl within)
    · have long : (own.take (own.length - ups)).length = own.length - ups :=
        List.length_take_of_le (Nat.sub_le _ _)
      intro none
      rw [List.append_eq_nil_iff.mp none |>.1, List.length_nil] at long
      omega
    · have all : dirs.length + own.length - ups = dirs.length + (own.length - ups) := by omega
      rw [all, List.take_length_add_append, List.append_assoc]
  · have left : dirs.length + own.length - ups = dirs.length - (ups - own.length) := by omega
    rw [left, List.take_append_of_le_length (Nat.sub_le _ _), or_iff_right (Nat.not_lt.mpr climbs)]
    refine exists_congr fun more => and_congr_right fun _ => ?_
    generalize dirs.length - (ups - own.length) = n
    constructor
    · intro same
      have split := (congrArg (· ++ more) (List.take_append_drop n dirs)).symm
      rw [List.append_assoc] at split
      exact List.append_cancel_left (same.trans split)
    · rintro rfl
      rw [← List.append_assoc, List.take_append_drop]

/-! Walks that keep to a limited depth and may not climb above their root. -/

/-- With `limit` names kept, a step down is passed over. -/
def moveWithin (limit : Nat) (dirs : List β) : Step β → Option (List β)
  | .up => if dirs.isEmpty then none else some dirs.dropLast
  | .down name => some (if dirs.length < limit then dirs ++ [name] else dirs)

def walkWithin (limit : Nat) (dirs : List β) (steps : List (Step β)) : Option (List β) :=
  steps.foldlM (moveWithin limit) dirs

def ups (steps : List (Step β)) : Nat := steps.countP fun step => step matches .up

def downs (steps : List (Step β)) : Nat := steps.countP fun step => step matches .down _

/-- From this depth, some of the first steps climb more than there is above them. -/
def Overdrawn (depth : Nat) (steps : List (Step β)) : Prop :=
  ∃ n, depth + downs (steps.take n) < ups (steps.take n)

def Deep (limit : Nat) (dirs : List β) (steps : List (Step β)) : Prop :=
  ∃ n, limit < (walk dirs (steps.take n)).length

theorem not_overdrawn_nil (depth : Nat) : ¬ Overdrawn depth ([] : List (Step β)) := by
  rintro ⟨n, fewer⟩
  rw [List.take_nil] at fewer
  exact Nat.not_lt_zero _ fewer

theorem overdrawn_cons {depth depth' : Nat} {step : Step β}
    (same : depth + downs [step] = depth' + ups [step]) (rest : List (Step β)) :
    Overdrawn depth (step :: rest) ↔ Overdrawn depth' rest := by
  have first (n : Nat) : depth + downs ((step :: rest).take (n + 1)) <
      ups ((step :: rest).take (n + 1)) ↔ depth' + downs (rest.take n) < ups (rest.take n) := by
    simp only [downs, ups, List.take_succ_cons, List.countP_cons, List.countP_nil] at same ⊢
    omega
  constructor
  · rintro ⟨n, fewer⟩
    cases n with
    | zero => exact (Nat.not_lt_zero _ fewer).elim
    | succ n => exact ⟨n, (first n).mp fewer⟩
  · rintro ⟨n, fewer⟩
    exact ⟨n + 1, (first n).mpr fewer⟩

theorem overdrawn_down (depth : Nat) (name : β) (rest : List (Step β)) :
    Overdrawn depth (.down name :: rest) ↔ Overdrawn (depth + 1) rest :=
  overdrawn_cons rfl rest

theorem overdrawn_up_succ (depth : Nat) (rest : List (Step β)) :
    Overdrawn (depth + 1) (.up :: rest) ↔ Overdrawn depth rest :=
  overdrawn_cons rfl rest

theorem overdrawn_zero_up (rest : List (Step β)) : Overdrawn 0 (.up :: rest) :=
  ⟨1, by simp [downs, ups]⟩

variable {limit : Nat} {dirs : List β}

theorem walkWithin_of_overdrawn {depth : Nat} {steps : List (Step β)}
    (drawn : Overdrawn depth steps) (lower : dirs.length ≤ depth) :
    walkWithin limit dirs steps = none := by
  induction steps generalizing depth dirs with
  | nil => exact (not_overdrawn_nil depth drawn).elim
  | cons step rest ih =>
      rw [walkWithin, List.foldlM_cons]
      cases step with
      | down name =>
          refine ih ((overdrawn_down depth name rest).mp drawn) ?_
          split
          · rw [List.length_append]
            exact Nat.add_le_add_right lower 1
          · exact Nat.le_succ_of_le lower
      | up =>
          cases empty : dirs.isEmpty with
          | true =>
              rw [moveWithin, if_pos empty]
              rfl
          | false =>
              rw [moveWithin, if_neg (by rw [empty]; exact Bool.false_ne_true)]
              have some_ : 0 < dirs.length := by
                rw [List.length_pos_iff]
                rintro rfl
                exact Bool.noConfusion empty
              obtain ⟨less, rfl⟩ := Nat.exists_eq_succ_of_ne_zero (n := depth) (by omega)
              refine ih ((overdrawn_up_succ less rest).mp drawn) ?_
              rw [List.length_dropLast]
              omega

variable {last : List β}

theorem walkWithin_shorter {kept : List β} {steps : List (Step β)}
    (fewer : kept.length < dirs.length) (stays : ¬ Overdrawn dirs.length steps)
    (ends : walkWithin limit kept steps = some last) : last.length < (walk dirs steps).length := by
  induction steps generalizing kept dirs with
  | nil =>
      obtain rfl : kept = last := Option.some.inj ends
      exact fewer
  | cons step rest ih =>
      rw [walkWithin, List.foldlM_cons] at ends
      cases step with
      | down name =>
          refine @ih (dirs ++ [name]) _ ?_ ?_ ends
          · rw [List.length_append]
            split
            · rw [List.length_append]
              exact Nat.add_lt_add_right fewer 1
            · exact Nat.lt_succ_of_lt fewer
          · rw [List.length_append]
            exact fun drawn => stays ((overdrawn_down _ name rest).mpr drawn)
      | up =>
          cases empty : kept.isEmpty with
          | true =>
              rw [moveWithin, if_pos empty] at ends
              exact (Option.some_ne_none _ ends.symm).elim
          | false =>
              rw [moveWithin, if_neg (by rw [empty]; exact Bool.false_ne_true)] at ends
              have some_ : 0 < kept.length := by
                rw [List.length_pos_iff]
                rintro rfl
                exact Bool.noConfusion empty
              refine @ih dirs.dropLast _ ?_ ?_ ends
              · rw [List.length_dropLast, List.length_dropLast]
                omega
              · intro drawn
                refine stays ?_
                rw [List.length_dropLast] at drawn
                have more : dirs.length = dirs.length - 1 + 1 := by omega
                rw [more]
                exact (overdrawn_up_succ _ rest).mpr drawn

theorem deep_cons (shallow : dirs.length ≤ limit) (step : Step β) (rest : List (Step β)) :
    Deep limit dirs (step :: rest) ↔ Deep limit (move dirs step) rest := by
  constructor
  · rintro ⟨n, deeper⟩
    cases n with
    | zero => exact (Nat.not_lt.mpr shallow deeper).elim
    | succ n => exact ⟨n, deeper⟩
  · rintro ⟨n, deeper⟩
    exact ⟨n + 1, deeper⟩

theorem walkWithin_of_shallow {steps : List (Step β)} (shallow : ¬ Deep limit dirs steps)
    (stays : ¬ Overdrawn dirs.length steps) :
    walkWithin limit dirs steps = some (walk dirs steps) := by
  induction steps generalizing dirs with
  | nil => rfl
  | cons step rest ih =>
      have here : dirs.length ≤ limit := Nat.not_lt.mp fun deeper => shallow ⟨0, deeper⟩
      rw [deep_cons here] at shallow
      rw [walkWithin, List.foldlM_cons]
      cases step with
      | down name =>
          have room : dirs.length < limit := by
            have next := Nat.not_lt.mp fun deeper => shallow ⟨0, deeper⟩
            rw [List.take_zero, walk, List.foldl_nil, move, List.length_append] at next
            exact next
          rw [moveWithin, if_pos room]
          refine ih shallow ?_
          rw [List.length_append]
          exact fun drawn => stays ((overdrawn_down _ name rest).mpr drawn)
      | up =>
          cases dirs with
          | nil => exact (stays (overdrawn_zero_up rest)).elim
          | cons name more =>
              refine ih shallow fun drawn => stays ?_
              rw [List.length_cons, overdrawn_up_succ]
              rwa [List.length_dropLast, List.length_cons, Nat.add_sub_cancel] at drawn

theorem walkWithin_of_deep {steps : List (Step β)} (deep : Deep limit dirs steps)
    (shallow : dirs.length ≤ limit) (stays : ¬ Overdrawn dirs.length steps)
    (ends : walkWithin limit dirs steps = some last) : last.length < (walk dirs steps).length := by
  induction steps generalizing dirs with
  | nil =>
      obtain ⟨n, deeper⟩ := deep
      rw [List.take_nil] at deeper
      exact (Nat.not_lt.mpr shallow deeper).elim
  | cons step rest ih =>
      rw [deep_cons shallow] at deep
      cases step with
      | down name =>
          have below : ¬ Overdrawn (move dirs (.down name)).length rest := by
            rw [move, List.length_append]
            exact fun drawn => stays ((overdrawn_down _ name rest).mpr drawn)
          rw [walkWithin, List.foldlM_cons] at ends
          rcases Nat.lt_or_ge dirs.length limit with room | full
          · rw [moveWithin, if_pos room] at ends
            refine ih deep ?_ below ends
            rw [move, List.length_append]
            exact room
          · rw [moveWithin, if_neg (Nat.not_lt.mpr full)] at ends
            have fewer : dirs.length < (move dirs (.down name)).length := by
              rw [move, List.length_append]
              exact Nat.lt_succ_self _
            have shorter : last.length < (walk (move dirs (.down name)) rest).length :=
              walkWithin_shorter fewer below ends
            exact shorter
      | up =>
          cases dirs with
          | nil => exact (stays (overdrawn_zero_up rest)).elim
          | cons name more =>
              refine ih deep ?_ (fun drawn => stays ?_) ends
              · rw [move, List.length_dropLast]
                exact Nat.le_trans (Nat.sub_le _ _) shallow
              · rw [List.length_cons, overdrawn_up_succ]
                rwa [move, List.length_dropLast, List.length_cons, Nat.add_sub_cancel] at drawn

theorem mem_of_walkWithin {steps : List (Step β)} (ends : walkWithin limit dirs steps = some last)
    {name : β} (member : name ∈ last) : name ∈ dirs ∨ .down name ∈ steps := by
  induction steps generalizing dirs with
  | nil =>
      obtain rfl : dirs = last := Option.some.inj ends
      exact .inl member
  | cons step rest ih =>
      rw [walkWithin, List.foldlM_cons] at ends
      cases step with
      | down other =>
          rcases ih ends with kept | later
          · split at kept
            · rcases List.mem_append.mp kept with old | new
              · exact .inl old
              · rw [List.mem_singleton.mp new]
                exact .inr List.mem_cons_self
            · exact .inl kept
          · exact .inr (List.mem_cons_of_mem _ later)
      | up =>
          rw [moveWithin] at ends
          split at ends
          · exact (Option.some_ne_none _ ends.symm).elim
          · rcases ih ends with kept | later
            · exact .inl (List.dropLast_subset dirs kept)
            · exact .inr (List.mem_cons_of_mem _ later)

theorem mem_of_walk {steps : List (Step β)} {name : β} (member : name ∈ walk dirs steps) :
    name ∈ dirs ∨ .down name ∈ steps := by
  induction steps generalizing dirs with
  | nil => exact .inl member
  | cons step rest ih =>
      rcases ih member with kept | later
      · cases step with
        | up => exact .inl (List.dropLast_subset dirs kept)
        | down other =>
            rcases List.mem_append.mp kept with old | new
            · exact .inl old
            · rw [List.mem_singleton.mp new]
              exact .inr List.mem_cons_self
      · exact .inr (List.mem_cons_of_mem _ later)

theorem length_walkWithin_le {steps : List (Step β)} (fits : dirs.length ≤ limit)
    (ends : walkWithin limit dirs steps = some last) : last.length ≤ limit := by
  induction steps generalizing dirs with
  | nil =>
      obtain rfl : dirs = last := Option.some.inj ends
      exact fits
  | cons step rest ih =>
      rw [walkWithin, List.foldlM_cons] at ends
      cases step with
      | down name =>
          refine ih ?_ ends
          split
          next room =>
            rw [List.length_append]
            exact room
          next => exact fits
      | up =>
          rw [moveWithin] at ends
          split at ends
          · exact (Option.some_ne_none _ ends.symm).elim
          · refine ih ?_ ends
            rw [List.length_dropLast]
            exact Nat.le_trans (Nat.sub_le _ _) fits

theorem not_overdrawn_down (depth : Nat) (names : List β) :
    ¬ Overdrawn depth (names.map .down) := by
  induction names generalizing depth with
  | nil => exact not_overdrawn_nil depth
  | cons name rest ih =>
      rw [List.map_cons, overdrawn_down]
      exact ih (depth + 1)

theorem walkWithin_down {names : List β} (fits : names.length ≤ limit) :
    walkWithin limit [] (names.map .down) = some names := by
  have shallow : ¬ Deep limit [] (names.map Step.down) := by
    rintro ⟨n, deeper⟩
    rw [← List.map_take, walk_down, List.nil_append, List.length_take] at deeper
    omega
  rw [walkWithin_of_shallow shallow (not_overdrawn_down _ names), walk_down]
  rfl

end Walk

/-- What a segment of a path is; an empty one and `.` are none. -/
def step (segment : Bytes) : Option (Step Bytes) :=
  if segment = [] ∨ segment = ascii "." then none
  else if segment = ascii ".." then some .up
  else some (.down segment)

def steps (path : Bytes) : List (Step Bytes) := (path.splitOn slash).filterMap step

def resolve (dirs : List Bytes) (path : Bytes) : List Bytes :=
  walk (if path.head? = some slash then [] else dirs) (steps path)

theorem steps_append (front back : Bytes) :
    steps (front ++ slash :: back) = steps front ++ steps back := by
  rw [steps, List.splitOn_append_cons_self, List.filterMap_append]
  rfl

theorem steps_slash (path : Bytes) : steps (slash :: path) = steps path :=
  steps_append [] path

theorem steps_segment {segment : Bytes} (noSlash : slash ∉ segment) :
    steps segment = (step segment).toList := by
  have whole : segment.splitOn slash = [segment] := by
    refine List.splitOnP_eq_singleton fun c member => ?_
    rw [beq_eq_false_iff_ne]
    rintro rfl
    exact noSlash member
  rw [steps, whole, List.filterMap_cons, List.filterMap_nil]
  cases step segment <;> rfl

structure Plain (name : Bytes) : Prop where
  noSlash : slash ∉ name
  isDown : step name = some (.down name)

theorem Plain.ne_nil {name : Bytes} (plain : Plain name) : name ≠ [] := by
  rintro rfl
  exact Option.some_ne_none _ plain.isDown.symm

theorem not_mem_of_mem_splitOn {path segment : Bytes} (member : segment ∈ path.splitOn slash) :
    slash ∉ segment := by
  induction path generalizing segment with
  | nil =>
      rw [List.splitOn_nil, List.mem_singleton] at member
      rw [member]
      exact List.not_mem_nil
  | cons c rest ih =>
      rw [List.splitOn_cons_eq_if_modifyHead] at member
      split at member
      · rcases List.mem_cons.mp member with rfl | later
        · exact List.not_mem_nil
        · exact ih later
      next other =>
        obtain ⟨front, more, cut⟩ := List.exists_cons_of_ne_nil (List.splitOn_ne_nil slash rest)
        rw [cut, List.modifyHead_cons] at member
        rcases List.mem_cons.mp member with rfl | later
        · intro inside
          rcases List.mem_cons.mp inside with same | behind
          · exact other (beq_iff_eq.mpr same.symm)
          · exact ih (by rw [cut]; exact List.mem_cons_self) behind
        · exact ih (by rw [cut]; exact List.mem_cons_of_mem _ later)

theorem plain_of_mem_steps {path name : Bytes} (member : .down name ∈ steps path) :
    Plain name := by
  obtain ⟨segment, inside, isDown⟩ := List.mem_filterMap.mp member
  have same : segment = name := by
    have found := isDown
    rw [step] at found
    split at found
    · exact (Option.some_ne_none _ found.symm).elim
    · split at found
      · cases found
      · exact Step.down.inj (Option.some.inj found)
  subst same
  exact ⟨not_mem_of_mem_splitOn inside, isDown⟩

theorem steps_join {names : List Bytes} (plain : ∀ name ∈ names, Plain name) :
    steps ([slash].intercalate names) = names.map .down := by
  induction names with
  | nil => rfl
  | cons name rest ih =>
      obtain ⟨noSlash, isDown⟩ := plain name List.mem_cons_self
      have own : steps name = [.down name] := by
        rw [steps_segment noSlash, isDown]
        rfl
      have later := ih fun other member => plain other (List.mem_cons_of_mem _ member)
      cases rest with
      | nil => rw [List.intercalate_singleton, own, List.map_cons, List.map_nil]
      | cons next more =>
          rw [List.intercalate_cons_cons, List.append_assoc, List.singleton_append, steps_append,
            own, later]
          rfl

theorem join_inj {names others : List Bytes} (plain : ∀ name ∈ names, Plain name)
    (plains : ∀ name ∈ others, Plain name)
    (same : [slash].intercalate names = [slash].intercalate others) : names = others := by
  have down : Function.Injective (Step.down : Bytes → Step Bytes) := fun _ _ => Step.down.inj
  refine List.map_injective_iff.mpr down ?_
  rw [← steps_join plain, ← steps_join plains, same]

theorem resolve_append (dirs : List Bytes) {front : Bytes} (some_ : front ≠ []) (back : Bytes) :
    resolve dirs (front ++ slash :: back) = walk (resolve dirs front) (steps back) := by
  obtain ⟨c, rest, rfl⟩ := List.exists_cons_of_ne_nil some_
  rw [resolve, steps_append, walk_append]
  rfl

end Segments

end Metal.Lib
