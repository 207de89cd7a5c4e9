import Metal.Build.Keep

namespace Metal.Build.Keep

open Metal.Lib

/-! What the cache of retained objects is for: of all that was handed in and
not superseded, it serves the most recent part. -/

structure Handed where
  call : Nat
  unit : Bytes
  src : Bytes
  bytes : Bytes

def handedIn (call : Nat) (unit : Bytes) (products : List Product) : List Handed :=
  products.filterMap fun product =>
    match product.obj with
    | none | some [] => none
    | some bytes => some ⟨call, unit, snprintf maxSrcPath product.name, bytes⟩

def record (call : Nat) (log : List Handed) : Call → List Handed
  | .keepObjects _ _ (some unit) (product :: products) =>
      log.filter (·.unit ≠ unit.bytes) ++ handedIn call unit.bytes (product :: products)
  | _ => log

def ledger (call : Nat) (log : List Handed) : List Call → List Handed
  | [] => log
  | first :: rest => ledger (call + 1) (record call log first) rest

def run (c : Cache) (calls : List Call) : Option Cache := calls.foldlM Cache.step c

def slotOf (entry : Nat × Handed) : KeepObj :=
  ⟨entry.2.unit, entry.2.src, some entry.1, .ofNat entry.2.bytes.length⟩

def blockOf (entry : Nat × Handed) : Nat × Bytes := (entry.1, entry.2.bytes)

/-- The cache holds a table and in it, in this order, these objects, each in a
block of its own. The `pinned` blocks are in use besides. -/
structure Kept (c : Cache) (table : Nat) (arena : Arena) (pinned : List (Nat × Bytes))
    (held : List (Nat × Handed)) : Prop where
  tabled : c.keep = some table
  spanned : c.arena = some arena
  backed : c.backing.isSome = true
  deep : 0 < c.keepCap
  slots : c.slots.length = c.keepCap
  count : c.nKeep = held.length
  few : held.length ≤ c.keepCap
  entries : held.map slotOf <+: c.slots
  owns : arena.heap.Owns ((table, []) :: (pinned ++ held.map blockOf))
  narrow : arena.span < 2 ^ 32
  fits : ∀ entry ∈ held, entry.2.bytes.length ≤ arena.span

variable {c c' : Cache} {table size : Nat} {arena : Arena} {heap : Heap Bytes}
  {pinned : List (Nat × Bytes)}
  {front held back : List (Nat × Handed)} {entry : Nat × Handed}

theorem Kept.allocated (kept : Kept c table arena pinned held) (answers : List (Option Nat)) :
    Kept { c with answers := answers } table arena pinned held :=
  ⟨kept.tabled, kept.spanned, kept.backed, kept.deep, kept.slots, kept.count, kept.few, kept.entries,
    kept.owns, kept.narrow, kept.fits⟩

theorem Kept.live (kept : Kept c table arena pinned held) :
    c.slots.take c.nKeep = held.map slotOf := by
  obtain ⟨rest, split⟩ := kept.entries
  rw [← split]
  exact List.take_left' (by rw [List.length_map, kept.count])

theorem shift_zero (slots : List KeepObj) (i : Nat) : Cache.shift slots i 0 = slots := by
  rw [Cache.shift, List.take_zero, List.append_nil]
  exact List.take_append_drop i slots

theorem shift_append (before after rest : List KeepObj) (slot : KeepObj) :
    Cache.shift (before ++ slot :: (after ++ rest)) before.length after.length =
      before ++ after ++ (slot :: (after ++ rest)).drop after.length := by
  have next : (before ++ slot :: (after ++ rest)).drop (before.length + 1) = after ++ rest := by
    rw [List.drop_length_add_append]
    rfl
  rw [Cache.shift, next, List.take_left, List.take_left, List.drop_length_add_append]

theorem prefix_set (before rest : List KeepObj) (slot : KeepObj) :
    before <+: (before ++ rest).set before.length slot := by
  rw [List.set_append_right _ _ (Nat.le_refl _)]
  exact List.prefix_append _ _

section

variable (kept : Kept c table arena pinned (front ++ entry :: back))
include kept

theorem Kept.here : c.slots[front.length]? = some (slotOf entry) := by
  obtain ⟨rest, split⟩ := kept.entries
  rw [← split, List.map_append, List.append_assoc, List.map_cons,
    List.getElem?_append_right (by rw [List.length_map]), List.length_map, Nat.sub_self]
  rfl

theorem Kept.free :
    ∃ heap, arena.heap.free entry.1 = some heap ∧
      heap.Owns ((table, []) :: (pinned ++ (front ++ back).map blockOf)) := by
  apply Heap.Owns.free (x := entry.2.bytes)
  refine kept.owns.perm ?_
  rw [List.map_append, List.map_cons, List.map_append, ← List.append_assoc, ← List.append_assoc,
    ← List.cons_append, ← List.cons_append]
  exact List.perm_middle

theorem Kept.drop :
    ∃ heap, c.keepDrop front.length =
        some
          { c with
            arena := some { arena with heap := heap }
            slots := c.slots.set front.length .zero } ∧
      heap.Owns ((table, []) :: (pinned ++ (front ++ back).map blockOf)) := by
  obtain ⟨heap, freed, owns⟩ := kept.free
  refine ⟨heap, ?_, owns⟩
  rw [Cache.keepDrop, kept.here]
  simp only [slotOf, kept.spanned, Cache.free, freed, Option.map_some]

/-- The slots behind the one that goes move up; where it is the last, nothing
is moved. -/
theorem Kept.closed :
    ∃ rest, (if front.length + 1 < c.nKeep then
        Cache.shift (c.slots.set front.length .zero) front.length (c.nKeep - front.length - 1)
      else c.slots.set front.length .zero) = (front ++ back).map slotOf ++ rest ∧
      ((front ++ back).map slotOf ++ rest).length = c.keepCap := by
  obtain ⟨rest, split⟩ := kept.entries
  have behind : c.nKeep - front.length - 1 = back.length := by
    have count := kept.count
    rw [List.length_append, List.length_cons] at count
    omega
  have cleared : c.slots.set front.length .zero =
      front.map slotOf ++ KeepObj.zero :: (back.map slotOf ++ rest) := by
    rw [← split, List.map_append, List.append_assoc, List.map_cons, List.cons_append,
      List.set_append_right _ _ (by rw [List.length_map]), List.length_map, Nat.sub_self]
    rfl
  have moved : Cache.shift (c.slots.set front.length .zero) front.length back.length =
      (front ++ back).map slotOf ++
        (KeepObj.zero :: (back.map slotOf ++ rest)).drop back.length := by
    have shifted := shift_append (front.map slotOf) (back.map slotOf) rest .zero
    rw [List.length_map, List.length_map, ← List.map_append] at shifted
    rw [cleared]
    exact shifted
  refine ⟨(KeepObj.zero :: (back.map slotOf ++ rest)).drop back.length, ?_, ?_⟩
  · rw [behind, ← moved]
    split
    · rfl
    · rw [show back.length = 0 by omega, shift_zero]
  · have whole := congrArg List.length split
    rw [kept.slots] at whole
    simp only [List.length_append, List.length_map, List.length_cons, List.length_drop]
      at whole ⊢
    omega

theorem Kept.evict :
    ∃ c' heap, c.keepEvict front.length = some c' ∧
      Kept c' table { arena with heap := heap } pinned (front ++ back) ∧ c'.keepCap = c.keepCap := by
  obtain ⟨heap, dropped, owns⟩ := kept.drop
  obtain ⟨rest, closed, length⟩ := kept.closed
  have count := kept.count
  have few := kept.few
  simp only [List.length_append, List.length_cons] at count few
  have last : c.nKeep - 1 = ((front ++ back).map slotOf).length := by
    rw [List.length_map, List.length_append]
    omega
  have evicted : c.keepEvict front.length = some
      { c with
        arena := some { arena with heap := heap }
        slots := ((front ++ back).map slotOf ++ rest).set (c.nKeep - 1) .zero
        nKeep := c.nKeep - 1 } := by
    rw [Cache.keepEvict, if_neg (by omega), dropped]
    dsimp only
    rw [closed, if_pos (by rw [length]; omega)]
  refine ⟨_, heap, evicted, ?_, rfl⟩
  exact
    { tabled := kept.tabled
      spanned := rfl
      backed := kept.backed
      deep := kept.deep
      slots := by rw [List.length_set, length]
      count := by rw [last, List.length_map]
      few := by
        change (front ++ back).length ≤ c.keepCap
        rw [List.length_append]
        omega
      entries := by rw [last]; exact prefix_set _ _ _
      owns := owns
      narrow := kept.narrow
      fits := fun entry member => kept.fits entry (by
        rw [List.mem_append] at member ⊢
        exact member.imp_right (List.mem_cons_of_mem _)) }

end

theorem Kept.evictOldest (kept : Kept c table arena pinned (entry :: back)) :
    ∃ c' heap, c.keepEvict 0 = some c' ∧
      Kept c' table { arena with heap := heap } pinned back ∧ c'.keepCap = c.keepCap :=
  @Kept.evict c table arena pinned [] back entry kept

theorem Kept.evictWhile (full : Nat → Bool) (stops : full 0 = false)
    (kept : Kept c table arena pinned held) :
    ∃ c' heap gone, c.evictWhile full = some c' ∧
      Kept c' table { arena with heap := heap } pinned (held.drop gone) ∧
      full c'.nKeep = false ∧ c'.keepCap = c.keepCap := by
  induction held generalizing c arena with
  | nil =>
      have none_ : full c.nKeep = false := by
        rw [kept.count]
        exact stops
      refine ⟨c, arena.heap, 0, ?_, kept, none_, rfl⟩
      rw [Cache.evictWhile, none_]
      rfl
  | cons entry rest ih =>
      cases more : full c.nKeep with
      | false =>
          refine ⟨c, arena.heap, 0, ?_, kept, more, rfl⟩
          rw [Cache.evictWhile, more]
          rfl
      | true =>
          obtain ⟨c₁, heap₁, evicted, kept₁, cap₁⟩ := kept.evictOldest
          obtain ⟨c', heap, gone, rest_, kept', stopped, cap⟩ := ih kept₁
          refine ⟨c', heap, gone + 1, ?_, kept', stopped, cap.trans cap₁⟩
          rw [Cache.evictWhile_again more evicted]
          exact rest_

theorem Kept.supersede (fqn : Bytes) (others : ∀ entry ∈ front, entry.2.unit ≠ fqn)
    (kept : Kept c table arena pinned (front ++ back)) :
    ∃ c' heap, c.supersede fqn front.length = some c' ∧
      Kept c' table { arena with heap := heap } pinned (front ++ back.filter (·.2.unit ≠ fqn)) ∧
      c'.keepCap = c.keepCap := by
  induction back generalizing c arena front with
  | nil =>
      refine ⟨c, arena.heap, ?_, kept, rfl⟩
      have count := kept.count
      rw [List.append_nil] at count
      rw [Cache.supersede, if_neg (by omega)]
  | cons entry rest ih =>
      have inside : front.length < c.nKeep := by
        rw [kept.count, List.length_append, List.length_cons]
        omega
      by_cases same : entry.2.unit = fqn
      · obtain ⟨c₁, heap₁, evicted, kept₁, cap₁⟩ := kept.evict
        obtain ⟨c', heap, rest_, kept', cap⟩ := ih others kept₁
        refine ⟨c', heap, ?_, ?_, cap.trans cap₁⟩
        · rw [Cache.supersede_again inside kept.here same evicted]
          exact rest_
        · rw [List.filter_cons_of_neg (by simpa using same)]
          exact kept'
      · have split : front ++ entry :: rest = (front ++ [entry]) ++ rest := by
          rw [List.append_assoc]
          rfl
        have others' : ∀ e ∈ front ++ [entry], e.2.unit ≠ fqn := by
          intro e member
          rcases List.mem_append.mp member with before | last
          · exact others e before
          · rw [List.mem_singleton.mp last]
            exact same
        have there := kept.here
        rw [split] at kept
        obtain ⟨c', heap, rest_, kept', cap⟩ := ih others' kept
        refine ⟨c', heap, ?_, ?_, cap⟩
        · rw [Cache.supersede_next inside there same]
          rw [List.length_append] at rest_
          exact rest_
        · rw [List.filter_cons_of_pos (by simpa using same)]
          rw [List.append_assoc] at kept'
          exact kept'

theorem ask_cases (c : Cache) :
    ∃ answer answers, c.ask = (answer, { c with answers := answers }) := by
  rw [Cache.ask]
  split
  · exact ⟨none, c.answers, rfl⟩
  next answer rest _ => exact ⟨answer, rest, rfl⟩

/-- The arena either refuses or hands out a block of its span that was not in
use. -/
theorem alloc_cases (spanned : c.arena = some arena) (size : Nat) :
    (∃ answers, c.alloc size = (none, { c with answers := answers })) ∨
    ∃ block heap answers, arena.heap.claim block [] = some heap ∧ size ≤ arena.span ∧
      c.alloc size = (some block,
        { c with arena := some { arena with heap := heap }, answers := answers }) := by
  obtain ⟨answer, answers, asked⟩ := ask_cases c
  rw [Cache.alloc, asked]
  cases answer with
  | none => exact .inl ⟨answers, rfl⟩
  | some block =>
      simp only [spanned]
      cases claimed : arena.heap.claim block [] with
      | none => exact .inl ⟨answers, rfl⟩
      | some heap =>
          by_cases fits : size ≤ arena.span
          · refine .inr ⟨block, heap, answers, claimed, fits, ?_⟩
            simp only [if_pos fits]
          · refine .inl ⟨answers, ?_⟩
            simp only [if_neg fits]

theorem Kept.claimed {block : Nat} (kept : Kept c table arena pinned held)
    (answers : List (Option Nat)) (claimed : arena.heap.claim block [] = some heap) :
    Kept { c with arena := some { arena with heap := heap }, answers := answers } table
      { arena with heap := heap } pinned held :=
  { tabled := kept.tabled
    spanned := rfl
    backed := kept.backed
    deep := kept.deep
    slots := kept.slots
    count := kept.count
    few := kept.few
    entries := kept.entries
    owns := (kept.owns.claim claimed).tail
    narrow := kept.narrow
    fits := kept.fits }

theorem Kept.allocRoom (size : Nat) (kept : Kept c table arena pinned held) :
    (∃ c' heap, c.allocRoom size = some (none, c') ∧
      Kept c' table { arena with heap := heap } pinned []) ∨
    ∃ block c' heap gone, c.allocRoom size = some (some block, c') ∧
      Kept c' table { arena with heap := heap } pinned (held.drop gone) ∧
      heap.Owns ((block, []) :: (table, []) :: (pinned ++ (held.drop gone).map blockOf)) ∧
      size ≤ arena.span ∧ c'.keepCap = c.keepCap := by
  induction held generalizing c arena with
  | nil =>
      rcases alloc_cases kept.spanned size with
        ⟨answers, refused⟩ | ⟨block, heap, answers, claimed, fits, taken⟩
      · exact .inl ⟨_, arena.heap, Cache.allocRoom_of_none refused kept.count,
          kept.allocated answers⟩
      · exact .inr ⟨block, _, heap, 0, Cache.allocRoom_of_some taken,
          kept.claimed answers claimed, kept.owns.claim claimed, fits, rfl⟩
  | cons entry rest ih =>
      rcases alloc_cases kept.spanned size with
        ⟨answers, refused⟩ | ⟨block, heap, answers, claimed, fits, taken⟩
      · obtain ⟨c₁, heap₁, evicted, kept₁, cap₁⟩ := (kept.allocated answers).evictOldest
        rw [Cache.allocRoom_again refused evicted]
        rcases ih kept₁ with
          ⟨c', heap, emptied, kept'⟩ | ⟨block, c', heap, gone, taken, kept', owns, fits, cap⟩
        · exact .inl ⟨c', heap, emptied, kept'⟩
        · exact .inr ⟨block, c', heap, gone + 1, taken, kept', owns, fits, cap.trans cap₁⟩
      · exact .inr ⟨block, _, heap, 0, Cache.allocRoom_of_some taken,
          kept.claimed answers claimed, kept.owns.claim claimed, fits, rfl⟩

variable {fqn : Bytes}

theorem Kept.enter {block : Nat} {object : Bytes} (call : Nat) (src : Bytes)
    (kept : Kept c table arena pinned held)
    (owns : arena.heap.Owns ((block, []) :: (table, []) :: (pinned ++ held.map blockOf)))
    (room : held.length < c.keepCap) (fits : object.length ≤ arena.span)
    (short : fqn.length < strMax) :
    ∃ c' heap, c.enter block fqn src object = some c' ∧
      Kept c' table { arena with heap := heap } pinned
        (held ++ [(block, ⟨call, fqn, snprintf maxSrcPath src, object⟩)]) ∧
      c'.keepCap = c.keepCap := by
  obtain ⟨heap, written, owns'⟩ := owns.write object
  obtain ⟨rest, split⟩ := kept.entries
  have inside : c.nKeep < c.slots.length := by
    rw [kept.count, kept.slots]
    exact room
  have entered : c.enter block fqn src object = some
      { c with
        arena := some { arena with heap := heap }
        slots := c.slots.set c.nKeep
          ⟨fqn, snprintf maxSrcPath src, some block, .ofNat object.length⟩
        nKeep := c.nKeep + 1 } := by
    rw [Cache.enter, kept.spanned]
    simp only [written, if_pos inside, snprintf_of_length_lt short]
  have last : c.nKeep = (held.map slotOf).length := by
    rw [List.length_map, kept.count]
  refine ⟨_, heap, entered, ?_, rfl⟩
  exact
    { tabled := kept.tabled
      spanned := rfl
      backed := kept.backed
      deep := kept.deep
      slots := by rw [List.length_set, kept.slots]
      count := by rw [List.length_append, kept.count]; rfl
      few := by rw [List.length_append]; exact room
      entries := by
        rw [List.map_append, last, ← split]
        cases rest with
        | nil =>
            rw [last, ← split, List.append_nil] at inside
            omega
        | cons slot rest =>
            rw [List.set_append_right _ _ (Nat.le_refl _), Nat.sub_self, List.set_cons_zero,
              List.map_singleton]
            exact ⟨rest, by rw [List.append_assoc]; rfl⟩
      owns := by
        rw [List.map_append, List.map_singleton, ← List.append_assoc, ← List.cons_append]
        exact owns'.perm (List.perm_append_singleton _ _).symm
      narrow := kept.narrow
      fits := fun entry member => by
        rcases List.mem_append.mp member with before | new
        · exact kept.fits entry before
        · rw [List.mem_singleton.mp new]
          exact fits }

theorem handedIn_skip {call : Nat} {product : Product} (rest : List Product)
    (empty : product.obj = none ∨ product.obj = some []) :
    handedIn call fqn (product :: rest) = handedIn call fqn rest := by
  rw [handedIn, List.filterMap_cons]
  rcases empty with none_ | nothing
  · rw [none_]
    rfl
  · rw [nothing]
    rfl

theorem handedIn_object {call : Nat} {product : Product} (rest : List Product) {byte : UInt8}
    {bytes : Bytes} (there : product.obj = some (byte :: bytes)) :
    handedIn call fqn (product :: rest) =
      ⟨call, fqn, snprintf maxSrcPath product.name, byte :: bytes⟩ ::
        handedIn call fqn rest := by
  rw [handedIn, List.filterMap_cons, there]
  rfl

/-- What is left after some of the oldest have gone, and one more, is recent
when the rest is. -/
theorem suffix_of_drop {α : Type} {l kept more : List α} (x : α) (gone : Nat)
    (recent : kept <:+ l.drop gone ++ [x] ++ more) : kept <:+ l ++ x :: more := by
  refine recent.trans ?_
  rw [List.append_assoc, List.singleton_append]
  refine ⟨l.take gone, ?_⟩
  rw [← List.append_assoc, List.take_append_drop]

/-- After a unit's objects the cache holds the most recent part of what it held
and of the objects. -/
theorem Kept.keepEach (call : Nat) (short : fqn.length < strMax) (products : List Product)
    (kept : Kept c table arena pinned held) :
    ∃ c' heap held', c.keepEach fqn products = some c' ∧
      Kept c' table { arena with heap := heap } pinned held' ∧
      held'.map Prod.snd <:+ held.map Prod.snd ++ handedIn call fqn products := by
  induction products generalizing c arena held with
  | nil =>
      refine ⟨c, arena.heap, held, rfl, kept, ?_⟩
      rw [handedIn, List.filterMap_nil, List.append_nil]
  | cons product rest ih =>
      cases there : product.obj with
      | none =>
          rw [handedIn_skip rest (.inl there)]
          obtain ⟨c', heap, held', kept_, result⟩ := ih kept
          refine ⟨c', heap, held', ?_, result⟩
          rw [Cache.keepEach, there]
          exact kept_
      | some object =>
          cases object with
          | nil =>
              rw [handedIn_skip rest (.inr there)]
              obtain ⟨c', heap, held', kept_, result⟩ := ih kept
              refine ⟨c', heap, held', ?_, result⟩
              rw [Cache.keepEach, there]
              exact kept_
          | cons byte bytes =>
              rw [handedIn_object rest there, Cache.keepEach, there]
              dsimp only
              obtain ⟨c₁, heap₁, gone₁, made, kept₁, roomy, cap₁⟩ :=
                kept.evictWhile (c.keepCap ≤ ·)
                  (decide_eq_false (Nat.not_le.mpr kept.deep))
              rw [made]
              dsimp only
              rcases kept₁.allocRoom (byte :: bytes).length with
                ⟨c', heap, refused, kept'⟩ | ⟨block, c₂, heap₂, gone₂, taken, kept₂, owns, fits, cap₂⟩
              · -- Nothing is left, and nothing is the most recent part of anything.
                rw [refused]
                exact ⟨c', heap, [], rfl, kept', List.nil_suffix⟩
              · rw [taken]
                dsimp only
                have room : ((held.drop gone₁).drop gone₂).length < c₂.keepCap := by
                  have roomy := of_decide_eq_false roomy
                  rw [kept₁.count] at roomy
                  rw [List.length_drop]
                  omega
                obtain ⟨c₃, heap₃, entered, kept₃, cap₃⟩ :=
                  kept₂.enter call product.name owns room fits short
                obtain ⟨c', heap, held', kept_, kept', recent⟩ := ih kept₃
                rw [entered]
                refine ⟨c', heap, held', kept_, kept', ?_⟩
                rw [List.map_append, List.map_drop, List.map_drop, List.drop_drop] at recent
                exact suffix_of_drop _ _ recent

structure Idle (c : Cache) : Prop where
  bare : c.keep = none
  nothing : c.nKeep = 0
  backed : c.backing.isSome = c.arena.isSome
  narrow : ∀ arena, c.arena = some arena → arena.span < 2 ^ 32

inductive Serves (c : Cache) : List Handed → Prop
  | idle (idle : Idle c) : Serves c []
  | kept {table : Nat} {arena : Arena} {held : List (Nat × Handed)}
      (kept : Kept c table arena [] held) : Serves c (held.map Prod.snd)

variable {shown log : List Handed}

theorem keepWant_pos {dflt : UInt32} (pos : dflt ≠ 0) (soft : UInt32) :
    0 < (keepWant soft dflt).toNat := by
  have some_ : keepWant soft dflt ≠ 0 := by
    rw [keepWant]
    split
    · assumption
    · exact pos
  exact Nat.pos_of_ne_zero (fun zero => some_ (UInt32.toNat_inj.mp zero))

theorem Idle.lend (idle : Idle c) (cacheSoft : UInt32) :
    (∃ c', c.lend cacheSoft = (false, c') ∧ Idle c') ∨
    ∃ c' arena, c.lend cacheSoft = (true, c') ∧ Idle c' ∧ c'.arena = some arena := by
  rw [Cache.lend]
  cases backing : c.backing with
  | some block =>
      have there := idle.backed
      rw [backing] at there
      obtain ⟨arena, spanned⟩ := Option.isSome_iff_exists.mp there.symm
      exact .inr ⟨c, arena, rfl, idle, spanned⟩
  | none =>
      obtain ⟨answer, answers, asked⟩ := ask_cases c
      rw [asked]
      cases answer with
      | none =>
          exact .inl ⟨_, rfl, idle.bare, idle.nothing, idle.backed, idle.narrow⟩
      | some block =>
          obtain ⟨answer, answers', asked'⟩ := ask_cases { c with answers := answers }
          dsimp only
          rw [asked']
          cases answer with
          | none => exact .inl ⟨_, rfl, idle.bare, idle.nothing, idle.backed, idle.narrow⟩
          | some _ =>
              refine .inr ⟨_, _, rfl, ⟨idle.bare, idle.nothing, rfl, ?_⟩, rfl⟩
              intro arena spanned
              cases spanned
              exact UInt32.toNat_lt _

theorem Serves.ready (serves : Serves c shown) (keepSoft cacheSoft : UInt32) :
    (∃ c', c.keepReady keepSoft cacheSoft = (false, c') ∧ Idle c') ∨
    ∃ c' table arena held, c.keepReady keepSoft cacheSoft = (true, c') ∧
      Kept c' table arena [] held ∧ held.map Prod.snd = shown := by
  cases serves with
  | @kept table arena held kept =>
      refine .inr ⟨c, table, arena, held, ?_, kept, rfl⟩
      rw [Cache.keepReady, if_pos]
      rw [kept.spanned, kept.tabled]
      exact ⟨rfl, rfl⟩
  | idle idle =>
      have missing : ¬ (c.arena.isSome = true ∧ c.keep.isSome = true) := by
        rw [idle.bare]
        exact fun both => Bool.noConfusion both.2
      rw [Cache.keepReady, if_neg missing]
      rcases idle.lend cacheSoft with ⟨c', refused, idle'⟩ | ⟨c', arena, lent, idle', spanned⟩
      · rw [refused]
        exact .inl ⟨c', rfl, idle'⟩
      · rw [lent]
        dsimp only
        rw [idle'.bare]
        dsimp only
        rcases alloc_cases spanned ((keepWant keepSoft keepDefault).toNat * keepObjSize) with
          ⟨answers, refused⟩ | ⟨table, heap, answers, claimed, -, taken⟩
        · rw [refused]
          exact .inl ⟨_, rfl, idle'.bare, idle'.nothing, idle'.backed, idle'.narrow⟩
        · rw [taken]
          refine .inr ⟨_, table, { arena with heap := heap }, [], rfl, ?_, rfl⟩
          exact
            { tabled := rfl
              spanned := rfl
              backed := by
                have backed := idle'.backed
                rw [spanned] at backed
                exact backed
              deep := keepWant_pos (by decide) keepSoft
              slots := List.length_replicate
              count := rfl
              few := Nat.zero_le _
              entries := List.nil_prefix
              owns := Heap.Owns.nil.claim claimed
              narrow := idle'.narrow arena spanned
              fits := fun _ member => absurd member List.not_mem_nil }

theorem Kept.resize (kept : Kept c table arena [] held) (soft : UInt32) :
    ∃ rc c' table' arena' gone, c.keepSlotsApply soft = some (rc, c') ∧
      Kept c' table' arena' [] (held.drop gone) := by
  rw [Cache.keepSlotsApply, kept.tabled]
  dsimp only
  split
  · exact ⟨0, c, table, arena, 0, rfl, kept⟩
  · rcases alloc_cases kept.spanned ((keepWant soft keepDefault).toNat * keepObjSize) with
      ⟨answers, refused⟩ | ⟨next, heap₁, answers, claimed, -, taken⟩
    · rw [refused]
      exact ⟨-1, _, table, arena, 0, rfl, kept.allocated answers⟩
    · rw [taken]
      dsimp only
      have kept₁ := kept.claimed answers claimed
      have pinned : Kept { c with arena := some { arena with heap := heap₁ }, answers := answers }
          table { arena with heap := heap₁ } [(next, [])] held :=
        { kept₁ with owns := (kept.owns.claim claimed).perm (List.Perm.swap _ _ _) }
      obtain ⟨c₂, heap₂, gone, made, kept₂, less, -⟩ :=
        pinned.evictWhile ((keepWant soft keepDefault).toNat < ·)
          (decide_eq_false (Nat.not_lt_zero _))
      obtain ⟨heap₃, freed, owns⟩ := kept₂.owns.free
      have few := Nat.not_lt.mp (of_decide_eq_false less)
      rw [made]
      dsimp only
      have free_ : c₂.free table = some { c₂ with arena := some ⟨arena.span, heap₃⟩ } := by
        rw [Cache.free, kept₂.spanned]
        simp only [freed]
      rw [free_]
      refine ⟨0, _, next, ⟨arena.span, heap₃⟩, gone, rfl, ?_⟩
      exact
        { tabled := rfl
          spanned := rfl
          backed := kept₂.backed
          deep := keepWant_pos (by decide) soft
          slots := by
            rw [List.length_append, kept₂.live, List.length_map, List.length_replicate,
              ← kept₂.count]
            exact Nat.add_sub_cancel' few
          count := kept₂.count
          few := by
            rw [← kept₂.count]
            exact few
          entries := by
            rw [← kept₂.live]
            exact List.prefix_append _ _
          owns := owns
          narrow := kept₂.narrow
          fits := kept₂.fits }

theorem Kept.cacheApply (kept : Kept c table arena [] held) :
    ∃ c', c.cacheApply = some c' ∧ Idle c' := by
  obtain ⟨backing, backed⟩ := Option.isSome_iff_exists.mp kept.backed
  obtain ⟨c', heap, gone, emptied, kept', few, -⟩ := kept.evictWhile (0 < ·) rfl
  rw [Cache.cacheApply, backed]
  dsimp only
  rw [emptied]
  refine ⟨_, rfl, rfl, ?_, rfl, fun _ there => nomatch there⟩
  exact Nat.eq_zero_of_not_pos (of_decide_eq_false few)

theorem Idle.cacheApply (idle : Idle c) : ∃ c', c.cacheApply = some c' ∧ Idle c' := by
  rw [Cache.cacheApply]
  cases backing : c.backing with
  | none => exact ⟨c, rfl, idle⟩
  | some block =>
      dsimp only
      rw [Cache.evictWhile, idle.nothing]
      exact ⟨_, rfl, rfl, idle.nothing, rfl, fun _ there => by cases there⟩

theorem Serves.keepObjects (serves : Serves c shown) (keepSoft cacheSoft : UInt32)
    (call : Nat) (fqn : Option UnitName) (products : List Product) (recent : shown <:+ log) :
    ∃ c' shown', c.step (.keepObjects keepSoft cacheSoft fqn products) = some c' ∧
      Serves c' shown' ∧
      shown' <:+ record call log (.keepObjects keepSoft cacheSoft fqn products) := by
  cases fqn with
  | none => exact ⟨c, shown, rfl, serves, recent⟩
  | some fqn =>
      cases products with
      | nil => exact ⟨c, shown, rfl, serves, recent⟩
      | cons product rest =>
          rw [Cache.step, Option.map_some, Cache.keepObjects]
          rcases serves.ready keepSoft cacheSoft with
            ⟨c', refused, idle⟩ | ⟨c₁, table, arena, held, ready, kept, rfl⟩
          · rw [refused]
            exact ⟨c', [], rfl, .idle idle, List.nil_suffix⟩
          · rw [ready]
            dsimp only
            obtain ⟨c₂, heap₂, superseded, kept₂, -⟩ :=
              @Kept.supersede c₁ table arena [] [] held fqn.bytes
                (fun _ member => absurd member List.not_mem_nil) kept
            obtain ⟨c', heap, held', kept_, kept', recent'⟩ :=
              kept₂.keepEach call fqn.fits (product :: rest)
            rw [List.length_nil] at superseded
            rw [superseded]
            refine ⟨c', _, kept_, .kept kept', recent'.trans ?_⟩
            have filtered : (held.filter (·.2.unit ≠ fqn.bytes)).map Prod.snd =
                (held.map Prod.snd).filter (·.unit ≠ fqn.bytes) := by
              rw [List.filter_map]
              rfl
            rw [List.nil_append, filtered]
            obtain ⟨older, split⟩ := recent.filter (·.unit ≠ fqn.bytes)
            refine ⟨older, ?_⟩
            rw [← List.append_assoc, split]
            rfl

/-- Every call goes through, and what is served after it is the most recent
part of what is in the ledger then. -/
theorem Serves.step (serves : Serves c shown) (recent : shown <:+ log) (number : Nat)
    (call : Call) :
    ∃ c' shown', c.step call = some c' ∧ Serves c' shown' ∧
      shown' <:+ record number log call := by
  cases call with
  | keepObjects keepSoft cacheSoft fqn products =>
      exact serves.keepObjects keepSoft cacheSoft number fqn products recent
  | keepSlotsApply soft =>
      cases serves with
      | idle idle =>
          refine ⟨c, [], ?_, .idle idle, recent⟩
          rw [Cache.step, Cache.keepSlotsApply, idle.bare]
          rfl
      | kept kept =>
          obtain ⟨rc, c', table', arena', gone, applied, kept'⟩ := kept.resize soft
          refine ⟨c', _, ?_, .kept kept', ?_⟩
          · rw [Cache.step, applied]
            rfl
          · rw [List.map_drop]
            exact (List.drop_suffix gone _).trans recent
  | cacheApply =>
      obtain ⟨c', applied, idle⟩ : ∃ c', c.cacheApply = some c' ∧ Idle c' := by
        cases serves with
        | idle idle => exact idle.cacheApply
        | kept kept => exact kept.cacheApply
      exact ⟨c', [], applied, .idle idle, List.nil_suffix⟩

theorem Serves.run (calls : List Call) (number : Nat) (serves : Serves c shown)
    (recent : shown <:+ log) :
    ∃ c' shown', run c calls = some c' ∧ Serves c' shown' ∧
      shown' <:+ ledger number log calls := by
  induction calls generalizing c shown log number with
  | nil => exact ⟨c, shown, rfl, serves, recent⟩
  | cons call rest ih =>
      obtain ⟨c₁, shown₁, stepped, serves₁, recent₁⟩ := serves.step recent number call
      obtain ⟨c', shown', ran, serves', recent'⟩ := ih (number + 1) serves₁ recent₁
      refine ⟨c', shown', ?_, serves', recent'⟩
      rw [Keep.run, List.foldlM_cons, stepped]
      exact ran

variable {idx : Nat}

theorem findObject_eq (slots : List KeepObj) {seen : Nat} (ahead : seen ≤ idx) :
    Cache.findObject fqn idx seen slots =
      (slots.filter (·.fqn = fqn))[idx - seen]? := by
  induction slots generalizing seen with
  | nil => rfl
  | cons slot rest ih =>
      rw [Cache.findObject]
      by_cases other : slot.fqn ≠ fqn
      · rw [if_pos other, List.filter_cons_of_neg (by simpa using other)]
        exact ih ahead
      · rw [if_neg other, List.filter_cons_of_pos (by simpa using other)]
        by_cases before : seen ≠ idx
        · rw [if_pos before, ih (by omega), show idx - seen = idx - (seen + 1) + 1 by omega]
          rfl
        · rw [if_neg before, show idx - seen = 0 by omega]
          rfl

section Kept

variable (kept : Kept c table arena pinned held)
include kept

theorem Kept.find (there : (held.filter (·.2.unit = fqn))[idx]? = some entry) :
    Cache.findObject fqn idx 0 (c.slots.take c.nKeep) = some (slotOf entry) := by
  rw [findObject_eq _ (Nat.zero_le idx), kept.live, List.filter_map]
  change ((held.filter (·.2.unit = fqn)).map slotOf)[idx]? = _
  rw [List.getElem?_map, there]
  rfl

theorem Kept.block (member : entry ∈ held) : arena.heap entry.1 = some entry.2.bytes :=
  kept.owns.live (blockOf entry)
    (List.mem_cons_of_mem _ (List.mem_append_right _ (List.mem_map_of_mem member)))

theorem Kept.length (member : entry ∈ held) :
    (slotOf entry).len.toNat = entry.2.bytes.length := by
  have fits := kept.fits entry member
  have narrow := kept.narrow
  exact UInt32.toNat_ofNat_of_lt' (by rw [UInt32.size]; omega)

theorem Kept.read
    (there : (held.filter (·.2.unit = fqn))[idx]? = some entry) (off w : UInt32) :
    c.objectRead (some fqn) idx off (some w) =
      some (.ok, (entry.2.bytes.drop off.toNat).take w.toNat) := by
  have member : entry ∈ held := (List.mem_filter.mp (List.mem_of_getElem? there)).1
  have length := kept.length member
  rw [Cache.objectRead, kept.find there]
  dsimp only
  by_cases inside : off < (slotOf entry).len
  · have left : ((slotOf entry).len - off).toNat = entry.2.bytes.length - off.toNat := by
      rw [UInt32.toNat_sub_of_le _ _ (UInt32.le_of_lt inside), length]
    rw [if_pos inside, kept.spanned, show (slotOf entry).bytes = some entry.1 from rfl]
    dsimp only
    rw [kept.block member]
    dsimp only
    rw [UInt32.lt_iff_toNat_lt, length] at inside
    by_cases less : w < (slotOf entry).len - off
    · rw [if_pos less]
      rw [UInt32.lt_iff_toNat_lt, left] at less
      rw [slice, if_pos (by omega)]
      rfl
    · rw [if_neg less, left, slice, if_pos (by omega)]
      rw [UInt32.lt_iff_toNat_lt, left] at less
      rw [List.take_of_length_le (by rw [List.length_drop]),
        List.take_of_length_le (by rw [List.length_drop]; omega)]
      rfl
  · rw [if_neg inside]
    rw [UInt32.lt_iff_toNat_lt, length] at inside
    rw [List.drop_eq_nil_of_le (Nat.not_lt.mp inside), List.take_nil]

theorem Kept.download
    (there : (held.filter (·.2.unit = fqn))[idx]? = some entry) (w : UInt32) {count : Nat}
    (narrow : (count - 1) * w.toNat < 2 ^ 32) :
    c.download fqn idx w count = some (entry.2.bytes.take (count * w.toNat)) := by
  induction count with
  | zero => rw [Nat.zero_mul, List.take_zero, Cache.download]
  | succ count ih =>
      rw [Nat.add_sub_cancel] at narrow
      have before : (count - 1) * w.toNat < 2 ^ 32 :=
        Nat.lt_of_le_of_lt (Nat.mul_le_mul_right _ (Nat.sub_le count 1)) narrow
      have off : (UInt32.ofNat (count * w.toNat)).toNat = count * w.toNat :=
        UInt32.toNat_ofNat_of_lt' narrow
      rw [Cache.download, ih before, kept.read there, off]
      dsimp only
      rw [Nat.succ_mul, List.take_add]

end Kept

def OneCall (log : List Handed) : Prop :=
  ∀ x ∈ log, ∀ y ∈ log, x.unit = y.unit → x.call = y.call

theorem handedIn_of_mem {call : Nat} {unit : Bytes} {products : List Product} {x : Handed}
    (member : x ∈ handedIn call unit products) : x.unit = unit ∧ x.call = call := by
  obtain ⟨product, -, made⟩ := List.mem_filterMap.mp member
  split at made
  · cases made
  · cases made
  · cases made
    exact ⟨rfl, rfl⟩

theorem OneCall.record (one : OneCall log) (number : Nat) (call : Call) :
    OneCall (record number log call) := by
  cases call with
  | keepSlotsApply soft => exact one
  | cacheApply => exact one
  | keepObjects keepSoft cacheSoft fqn products =>
      cases fqn with
      | none => exact one
      | some fqn =>
          cases products with
          | nil => exact one
          | cons product rest =>
              intro x xIn y yIn same
              rcases List.mem_append.mp xIn with xOld | xNew
              · obtain ⟨xIn, other⟩ := List.mem_filter.mp xOld
                rcases List.mem_append.mp yIn with yOld | yNew
                · exact one x xIn y (List.mem_filter.mp yOld).1 same
                · have := (handedIn_of_mem yNew).1
                  exact absurd (same.trans this) (of_decide_eq_true other)
              · rcases List.mem_append.mp yIn with yOld | yNew
                · have := (handedIn_of_mem xNew).1
                  exact absurd (same.symm.trans this)
                    (of_decide_eq_true (List.mem_filter.mp yOld).2)
                · rw [(handedIn_of_mem xNew).2, (handedIn_of_mem yNew).2]

theorem OneCall.ledger (one : OneCall log) (number : Nat) (calls : List Call) :
    OneCall (ledger number log calls) := by
  induction calls generalizing log number with
  | nil => exact one
  | cons call rest ih => exact ih (one.record number call) (number + 1)

/-- The slot bears the object's names and its length, and its bytes are a
block in use that holds the object. -/
structure Entry (c : Cache) (slot : KeepObj) (x : Handed) : Prop where
  fqn : slot.fqn = x.unit
  src : slot.src = x.src
  len : slot.len.toNat = x.bytes.length
  live : ∃ block arena, slot.bytes = some block ∧ c.arena = some arena ∧
    arena.heap block = some x.bytes

/-- The table of the cache is the list `shown` of objects, the most recent part
of the ledger, and each of them can be read back window by window. -/
structure Sound (c : Cache) (log shown : List Handed) : Prop where
  bounded : c.nKeep ≤ c.keepCap
  single : OneCall shown
  recent : shown <:+ log
  entries : List.Forall₂ (Entry c) (c.slots.take c.nKeep) shown
  apart : ((c.slots.take c.nKeep).map KeepObj.bytes).Nodup
  reads : ∀ (fqn : Bytes) (idx : Nat) (x : Handed),
    (shown.filter (·.unit = fqn))[idx]? = some x →
    ∀ (w : UInt32) (count : Nat), x.bytes.length ≤ count * w.toNat →
      (count - 1) * w.toNat < 2 ^ 32 → c.download fqn idx w count = some x.bytes

theorem Kept.sound (kept : Kept c table arena [] held) (one : OneCall (held.map Prod.snd))
    (recent : held.map Prod.snd <:+ log) : Sound c log (held.map Prod.snd) where
  bounded := by
    rw [kept.count]
    exact kept.few
  single := one
  recent := recent
  entries := by
    rw [kept.live, List.forall₂_map_left_iff, List.forall₂_map_right_iff, List.forall₂_same]
    intro entry member
    exact ⟨rfl, rfl, kept.length member, entry.1, arena, rfl, kept.spanned, kept.block member⟩
  apart := by
    have apart := kept.owns.tail.apart
    rw [kept.live, List.map_map]
    rw [List.nil_append, List.map_map] at apart
    have made : KeepObj.bytes ∘ slotOf = some ∘ Prod.fst ∘ blockOf := rfl
    rw [made, ← List.map_map]
    exact apart.map (Option.some_injective Nat)
  reads := by
    intro fqn idx x there w count enough narrow
    rw [List.filter_map, List.getElem?_map] at there
    obtain ⟨entry, found, rfl⟩ := Option.map_eq_some_iff.mp there
    rw [kept.download found w narrow, List.take_of_length_le enough]

theorem Idle.sound (idle : Idle c) : Sound c log [] where
  bounded := by
    rw [idle.nothing]
    exact Nat.zero_le _
  single := fun _ member => absurd member List.not_mem_nil
  recent := List.nil_suffix
  entries := by
    rw [idle.nothing, List.take_zero]
    exact .nil
  apart := by
    rw [idle.nothing, List.take_zero]
    exact List.nodup_nil
  reads := fun _ _ _ there => nomatch there

/-- Whatever is kept, resized and dropped, and whatever the allocators refuse. -/
theorem run_sound (answers : List (Option Nat)) (calls : List Call) :
    ∃ c shown, run (.start answers) calls = some c ∧ Sound c (ledger 0 [] calls) shown := by
  have idle : Idle (.start answers) := ⟨rfl, rfl, rfl, fun _ there => nomatch there⟩
  obtain ⟨c, shown, ran, serves, recent⟩ :=
    Serves.run calls 0 (.idle idle) List.nil_suffix
  have one : OneCall (ledger 0 [] calls) :=
    OneCall.ledger (fun _ member => absurd member List.not_mem_nil) 0 calls
  refine ⟨c, shown, ran, ?_⟩
  cases serves with
  | idle idle => exact idle.sound
  | kept kept =>
      exact kept.sound (fun x xIn y yIn => one x (recent.subset xIn) y (recent.subset yIn)) recent

end Metal.Build.Keep
