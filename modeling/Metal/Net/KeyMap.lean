import Metal.Net.Lamport

namespace Metal.Net.Dstate

open Metal.Lib Function

/-! A replica's store as a finite map from keys to values. -/

def valueOf (store : Store) (key : CString) : Option Bytes :=
  (lookup store key).map Entry.content

/-- The store is a finite map: `get` reads it, given a buffer for the longest value, and
`count` counts its keys. -/
structure IsMap (store : Store) : Prop where
  distinct : (store.entries.map Entry.key).Nodup
  reads : ∀ (key : CString) (room : UInt32), valueMax ≤ room.toNat →
    get (some key) (some room) store =
      (valueOf store key).elim (-1, []) fun value => (0, value)
  counts : ∃ keys : List CString, keys.Nodup ∧ keys.length = count store ∧
    ∀ key, key ∈ keys ↔ (valueOf store key).isSome = true

/-- A call changes the map at its own key only: `set` puts its value there, or fails and
changes nothing, and `del` removes the key if it is there. -/
def Maps (store : Store) (call : Call) : Prop :=
  let (code, store') := call.exec store
  match call with
  | .init _ => valueOf store' = fun _ => none
  | .set (some key) value valueLen =>
      (code = 0 ∧ valueOf store' = update (valueOf store) key
        (some ((value.getD []).take valueLen.toNat))) ∨
      (code ≠ 0 ∧ valueOf store' = valueOf store)
  | .recv (some key) _ _ _ _ => ∀ other, other ≠ key → valueOf store' other = valueOf store other
  | .del (some key) =>
      valueOf store' = update (valueOf store) key none ∧
        (code = 0 ↔ valueOf store key ≠ none)
  | _ => valueOf store' = valueOf store

def Call.Readable : Call → Prop
  | .set _ value valueLen => valueLen.toNat ≤ (value.getD []).length
  | _ => True

/-- A key that gets an entry of its own is whole in it, and is not empty. -/
def KeyFits (store : Store) : Call → Prop
  | .set (some key) value valueLen =>
      SetReads key value valueLen → findEntry store key = none →
        store.entries.length < entriesMax → key.length ≤ keyMax - 1
  | .recv (some key) value valueLen version fromPeer =>
      takes key value valueLen version fromPeer store = true → findEntry store key = none →
        key.bytes ≠ [] ∧ key.length ≤ keyMax - 1
  | _ => True

structure Keyed (store : Store) : Prop where
  distinct : (store.entries.map Entry.key).Nodup
  named : ∀ entry ∈ store.entries, entry.key.bytes ≠ []
  sized : ∀ entry ∈ store.entries, entry.Sized

variable {key : CString}

theorem valueOf_isSome {store : Store} :
    (valueOf store key).isSome = true ↔ key ∈ store.entries.map Entry.key := by
  rw [valueOf, Option.isSome_map, Option.isSome_iff_ne_none, Ne, lookup_eq_none, List.mem_map]
  simp only [not_forall, not_not, exists_prop]

theorem Keyed.isMap {store : Store} (keyed : Keyed store) : IsMap store where
  distinct := keyed.distinct
  reads := by
    intro key room large
    have same : (findEntry store key >>= fun idx => store.entries[idx]?) = lookup store key := rfl
    rw [get, same, valueOf]
    cases found : lookup store key with
    | none => rfl
    | some entry =>
        rw [lookup_eq_find?] at found
        have fits : entry.valueLen.toNat ≤ valueMax :=
          keyed.sized entry (List.mem_of_find?_eq_some found)
        have roomy : ¬(entry.valueLen > 0 ∧ room < entry.valueLen) := fun small => by
          have small : room.toNat < entry.valueLen.toNat := small.2
          omega
        dsimp only
        rw [if_neg (Nat.not_lt_of_le fits), if_neg roomy]
        rfl
  counts := ⟨store.entries.map Entry.key, keyed.distinct, List.length_map .., fun _ =>
    valueOf_isSome.symm⟩

theorem valueOf_modify {store : Store} {idx : Nat} {entry : Entry} {f : Entry → Entry}
    (found : findEntry store key = some idx) (there : store.entries[idx]? = some entry)
    (keeps : ∀ entry, (f entry).key = entry.key) :
    valueOf (store.modify idx f) =
      update (valueOf store) key (some (f entry).content) := by
  funext other
  rw [valueOf, lookup_modify found keeps, update_apply]
  split
  · rw [lookup_of_found found there]
    rfl
  · rfl

theorem valueOf_push {store : Store} {entry : Entry}
    (absent : findEntry store entry.key = none) :
    valueOf (store.push entry) =
      update (valueOf store) entry.key (some entry.content) := by
  funext other
  rw [valueOf, lookup_push, update_apply]
  by_cases same : other = entry.key
  · subst same
    rw [lookup_of_absent absent, if_pos rfl, if_pos rfl]
    rfl
  · rw [if_neg fun is => same is.symm, if_neg same, Option.or_none]
    rfl

theorem valueOf_swapRemove {store : Store} {idx : Nat}
    (distinct : (store.entries.map Entry.key).Nodup) (found : findEntry store key = some idx) :
    valueOf { store with entries := swapRemove store.entries idx } =
      update (valueOf store) key none := by
  obtain ⟨entry, there, rfl⟩ := findEntry_eq_some found
  obtain ⟨inside, is⟩ := List.getElem?_eq_some_iff.mp there
  have moved := swapRemove_perm inside
  rw [is] at moved
  have whole : (entry.key :: (swapRemove store.entries idx).map Entry.key).Nodup :=
    (moved.map Entry.key).nodup_iff.mpr distinct
  have one {l : List Entry} (nodup : (l.map Entry.key).Nodup) (other : CString) {e : Entry}
      (member : e ∈ l) (named : e.key = other) : l.find? (·.key = other) = some e := by
    have some_ : (l.find? (·.key = other)).isSome = true :=
      List.find?_isSome.mpr ⟨e, member, decide_eq_true named⟩
    obtain ⟨first, hit⟩ := Option.isSome_iff_exists.mp some_
    have is : first.key = other := by simpa using List.find?_some hit
    have same : first.key = e.key := is.trans named.symm
    rw [hit, List.inj_on_of_nodup_map nodup (List.mem_of_find?_eq_some hit) member same]
  funext other
  rw [update_apply, valueOf, lookup_eq_find?]
  split
  · rename_i same
    subst same
    rw [List.find?_eq_none.mpr fun e member => ?_]
    · rfl
    · have named := (List.nodup_cons.mp whole).1
      simpa using fun same => named (List.mem_map.mpr ⟨e, member, same⟩)
  · rename_i differ
    rw [valueOf, lookup_eq_find?]
    cases hit : store.entries.find? (·.key = other) with
    | none =>
        rw [List.find?_eq_none] at hit
        rw [List.find?_eq_none.mpr fun e member => hit e (moved.subset
          (List.mem_cons_of_mem _ member))]
    | some e =>
        have named : e.key = other := by simpa using List.find?_some hit
        have member := moved.symm.subset (List.mem_of_find?_eq_some hit)
        rcases List.mem_cons.mp member with rfl | later
        · exact absurd named.symm differ
        · rw [one (List.nodup_cons.mp whole).2 other later named]

namespace Keyed

variable {store : Store}

theorem init (peerId : UInt32) : Keyed (init peerId) := ⟨List.nodup_nil, nofun, nofun⟩

section

variable (keyed : Keyed store)
include keyed

theorem of_entries {store' : Store}
    (same : store'.entries = store.entries) : Keyed store' := by
  obtain ⟨distinct, named, sized⟩ := keyed
  rw [← same] at distinct named sized
  exact ⟨distinct, named, sized⟩

theorem bump (incoming : UInt64) : Keyed (bumpClock incoming store) :=
  keyed.of_entries rfl

theorem modify (idx : Nat) {f : Entry → Entry} (keeps : ∀ entry, (f entry).key = entry.key)
    (sizes : ∀ entry : Entry, entry.Sized → (f entry).Sized) : Keyed (store.modify idx f) := by
  refine ⟨?_, fun entry member => ?_, fun entry member => ?_⟩
  · rw [modify_keys store idx keeps]
    exact keyed.distinct
  · rcases mem_modify member with old | ⟨old, was, rfl⟩
    · exact keyed.named entry old
    · rw [keeps]
      exact keyed.named old (List.mem_of_getElem? was)
  · rcases mem_modify member with old | ⟨old, was, rfl⟩
    · exact keyed.sized entry old
    · exact sizes old (keyed.sized old (List.mem_of_getElem? was))

theorem push {entry : Entry} (absent : findEntry store entry.key = none)
    (named : entry.key.bytes ≠ []) (sized : entry.Sized) : Keyed (store.push entry) := by
  refine ⟨?_, fun other member => ?_, fun other member => ?_⟩
  · rw [Store.push, List.map_append, List.nodup_append]
    refine ⟨keyed.distinct, List.nodup_singleton _, fun key old other new => ?_⟩
    obtain ⟨before, member, rfl⟩ := List.mem_map.mp old
    rw [List.mem_singleton.mp new]
    exact findEntry_eq_none.mp absent before member
  · rcases List.mem_append.mp member with old | new
    · exact keyed.named other old
    · rwa [List.mem_singleton.mp new]
  · rcases List.mem_append.mp member with old | new
    · exact keyed.sized other old
    · rwa [List.mem_singleton.mp new]

theorem remove {idx : Nat} (inside : idx < store.entries.length) :
    Keyed { store with entries := swapRemove store.entries idx } := by
  have moved := swapRemove_perm inside
  have old (entry : Entry) (member : entry ∈ swapRemove store.entries idx) :
      entry ∈ store.entries := moved.subset (List.mem_cons_of_mem _ member)
  have whole := (moved.map Entry.key).nodup_iff.mpr keyed.distinct
  exact ⟨(List.nodup_cons.mp whole).2, fun entry member => keyed.named entry (old entry member),
    fun entry member => keyed.sized entry (old entry member)⟩

theorem exec {call : Call} (fits : KeyFits store call) : Keyed (call.exec store).2 := by
  cases call with
  | init peerId => exact init peerId
  | set key value valueLen =>
      cases key with
      | none => exact keyed
      | some key =>
          change Keyed (set (some key) value valueLen store).2
          by_cases reads : SetReads key value valueLen
          · have does := set_does reads store
            generalize set (some key) value valueLen store = result at does
            have sized : valueLen.toNat ≤ valueMax := reads.2.2
            cases does with
            | full => exact keyed.bump 0
            | wrote => exact (keyed.bump 0).modify _ (fun _ => rfl) fun _ _ => sized
            | added absent room =>
                have whole := CString.strncpy_of_length_le (fits reads absent room)
                refine (keyed.bump 0).push ?_ ?_ sized
                · exact (congrArg (findEntry store) whole).trans absent
                · exact fun empty => reads.1 ((congrArg CString.bytes whole).symm.trans empty)
          · rw [set_refused key reads]
            exact keyed
  | recv key value valueLen version fromPeer =>
      cases key with
      | none => exact keyed
      | some key =>
          change Keyed (recv (some key) value valueLen version fromPeer store).2
          rcases recv_does key value valueLen version fromPeer store with
            ⟨taken, -, does⟩ | ⟨-, same⟩
          · generalize (recv (some key) value valueLen version fromPeer store).2 = store' at does
            cases does with
            | tied => exact keyed.bump version
            | wrote found there keeps sizes => exact (keyed.modify _ keeps sizes).bump version
            | merged found there keeps sizes => exact (keyed.bump version).modify _ keeps sizes
            | added absent room named sized =>
                obtain ⟨some_, short⟩ := fits taken absent
                rw [CString.strncpy_of_length_le short] at named
                exact (keyed.push (named ▸ absent) (named ▸ some_) sized).bump version
          · rw [same]
            exact keyed
  | del key =>
      change Keyed (del key store).2
      rcases del_cases key store with ⟨same, -⟩ | ⟨name, idx, -, -, found, same⟩
      · rw [same]
        exact keyed
      · obtain ⟨entry, there, -⟩ := findEntry_eq_some found
        rw [same]
        exact keyed.remove (List.getElem?_eq_some_iff.mp there).1
  | mergeRegister keyPrefix fn =>
      exact keyed.of_entries (mergeRegister_frame keyPrefix fn store).1

end

end Keyed

theorem content_fill {value : Bytes} {valueLen : UInt32}
    (readable : valueLen.toNat ≤ value.length) (version : UInt64) (peerId : UInt32)
    (entry : Entry) : (entry.fill value valueLen version peerId).content =
      value.take valueLen.toNat :=
  take_memcpy readable

theorem Keyed.maps {store : Store} (keyed : Keyed store) {call : Call}
    (fits : KeyFits store call) (readable : call.Readable) : Maps store call := by
  cases call with
  | init peerId => rfl
  | set key value valueLen =>
      cases key with
      | none => rfl
      | some key =>
          unfold Maps Call.exec
          dsimp only
          by_cases reads : SetReads key value valueLen
          · have does := set_does reads store
            generalize set (some key) value valueLen store = result at does
            cases does with
            | full => exact .inr ⟨nofun, rfl⟩
            | wrote found =>
                obtain ⟨entry, there, -⟩ := findEntry_eq_some found
                have same : findEntry (bumpClock 0 store) key = findEntry store key := rfl
                have keeps (old : Entry) : (old.fill (value.getD []) valueLen
                    (bumpClock 0 store).clock store.peerId).key = old.key := rfl
                refine .inl ⟨rfl, (valueOf_modify (same.trans found) there keeps).trans ?_⟩
                rw [content_fill readable]
                rfl
            | added absent room =>
                have whole := CString.strncpy_of_length_le (fits reads absent room)
                refine .inl ⟨rfl, ?_⟩
                rw [valueOf_push ((congrArg (findEntry store) whole).trans absent),
                  content_fill readable]
                exact congrArg (update (valueOf store) · _) whole
          · rw [set_refused key reads]
            exact .inr ⟨nofun, rfl⟩
  | recv key value valueLen version fromPeer =>
      cases key with
      | none => rfl
      | some key =>
          intro other differ
          change valueOf (recv (some key) value valueLen version fromPeer store).2 other = _
          rcases recv_does key value valueLen version fromPeer store with
            ⟨taken, -, does⟩ | ⟨-, same⟩
          · generalize (recv (some key) value valueLen version fromPeer store).2 = store' at does
            cases does with
            | tied => rfl
            | @wrote idx entry f found there keeps
            | @merged idx entry f found there keeps =>
                change valueOf (store.modify idx f) other = _
                rw [valueOf_modify found there keeps, update_of_ne differ]
            | @added entry absent room named =>
                obtain ⟨-, short⟩ := fits taken absent
                rw [CString.strncpy_of_length_le short] at named
                change valueOf (store.push entry) other = _
                rw [valueOf_push (named ▸ absent), named, update_of_ne differ]
          · rw [same]
  | del key =>
      cases key with
      | none => rfl
      | some key =>
          unfold Maps Call.exec
          dsimp only
          rcases del_cases (some key) store with ⟨same, missed⟩ | ⟨name, idx, is, -, found, same⟩
          · have absent : valueOf store key = none := by
              rw [← Option.not_isSome_iff_eq_none, valueOf_isSome, List.mem_map]
              rintro ⟨entry, member, rfl⟩
              rcases missed entry.key rfl with empty | none_
              · exact keyed.named entry member empty
              · exact findEntry_eq_none.mp none_ entry member rfl
            rw [same]
            refine ⟨?_, iff_of_false nofun (not_not.mpr absent)⟩
            rw [← absent, update_eq_self]
          · cases is
            have live : valueOf store key ≠ none := by
              obtain ⟨entry, there, -⟩ := findEntry_eq_some found
              rw [valueOf, lookup_of_found found there]
              nofun
            rw [same]
            exact ⟨valueOf_swapRemove keyed.distinct found, iff_of_true rfl live⟩
  | mergeRegister keyPrefix fn =>
      funext key
      have entries := (mergeRegister_frame keyPrefix fn store).1
      exact congrArg (Option.map Entry.content) (lookup_congr entries key)

def Store.next (store : Store) (call : Call) : Store := (call.exec store).2

def Call.Touches (key : CString) : Call → Prop
  | .init _ => True
  | .set name _ _ => name = some key
  | .recv name _ _ _ _ => name = some key
  | .del name => name = some key
  | .mergeRegister _ _ => False

theorem Maps.untouched {store : Store} {call : Call} (maps : Maps store call)
    (elsewhere : ¬ call.Touches key) : valueOf (store.next call) key = valueOf store key := by
  cases call with
  | init peerId => exact absurd trivial elsewhere
  | set name value valueLen =>
      cases name with
      | none => exact congrFun maps key
      | some name =>
          have differ : key ≠ name := fun same => elsewhere (congrArg some same.symm)
          rcases maps with ⟨-, same⟩ | ⟨-, same⟩
          · exact (congrFun same key).trans (update_of_ne differ ..)
          · exact congrFun same key
  | recv name value valueLen version fromPeer =>
      cases name with
      | none => exact congrFun maps key
      | some name => exact maps key fun same => elsewhere (congrArg some same.symm)
  | del name =>
      cases name with
      | none => exact congrFun maps key
      | some name =>
          have differ : key ≠ name := fun same => elsewhere (congrArg some same.symm)
          exact (congrFun maps.1 key).trans (update_of_ne differ ..)
  | mergeRegister keyPrefix fn => exact congrFun maps key

theorem untouched_run {store : Store} {calls : List Call}
    (maps : Along Store.next Maps store calls) (elsewhere : ∀ call ∈ calls, ¬ call.Touches key) :
    valueOf (calls.foldl Store.next store) key = valueOf store key := by
  induction calls generalizing store with
  | nil => rfl
  | cons call rest ih =>
      rw [List.foldl_cons, ih maps.2 fun other member =>
        elsewhere other (List.mem_cons_of_mem _ member)]
      exact maps.1.untouched (elsewhere call List.mem_cons_self)

theorem Keyed.run {store : Store} {calls : List Call} (keyed : Keyed store)
    (readable : ∀ call ∈ calls, call.Readable)
    (fits : Along Store.next KeyFits store calls) :
    Keyed (calls.foldl Store.next store) ∧
      Along Store.next (fun store call => IsMap store ∧ Maps store call) store calls ∧
        Along Store.next Maps store calls := by
  induction calls generalizing store with
  | nil => exact ⟨keyed, trivial, trivial⟩
  | cons call rest ih =>
      have maps := keyed.maps fits.1 (readable call List.mem_cons_self)
      obtain ⟨final, both, later⟩ := ih (keyed.exec fits.1)
        (fun other member => readable other (List.mem_cons_of_mem _ member)) fits.2
      exact ⟨final, ⟨⟨keyed.isMap, maps⟩, both⟩, ⟨maps, later⟩⟩

/-- In a run in which each key that gets an entry fits it, the store is a finite map all along
and every call does to it what it says; and what `set` puts under a key is what `get` gives
until that key is touched again. -/
theorem map_refined {peerId : UInt32} {calls : List Call}
    (readable : ∀ call ∈ calls, call.Readable)
    (fits : Along Store.next KeyFits (init peerId) calls) :
    IsMap (calls.foldl Store.next (init peerId)) ∧
      Along Store.next (fun store call => IsMap store ∧ Maps store call) (init peerId) calls ∧
      ∀ before after key value valueLen,
        calls = before ++ Call.set (some key) value valueLen :: after →
          (set (some key) value valueLen (before.foldl Store.next (init peerId))).1 = 0 →
            (∀ call ∈ after, ¬ call.Touches key) → ∀ room : UInt32, valueMax ≤ room.toNat →
              get (some key) (some room) (calls.foldl Store.next (init peerId)) =
                (0, (value.getD []).take valueLen.toNat) := by
  obtain ⟨keyed, both, maps⟩ := (Keyed.init peerId).run readable fits
  refine ⟨keyed.isMap, both, ?_⟩
  rintro before after key value valueLen rfl ok elsewhere room large
  rw [Along.append] at maps
  have written : valueOf ((before.foldl Store.next (init peerId)).next
      (.set (some key) value valueLen)) key = some ((value.getD []).take valueLen.toNat) := by
    rcases maps.2.1 with ⟨-, same⟩ | ⟨failed, -⟩
    · exact (congrFun same key).trans (update_self ..)
    · exact absurd ok failed
  rw [keyed.isMap.reads key room large, List.foldl_append, List.foldl_cons,
    untouched_run maps.2.2 elsewhere, written]
  rfl

theorem map_refined_door :
    get (some doorKey) (some 4096)
      ([.set (some doorKey) (some [1, 2]) 2, .del (some ⟨ascii "lamp", by decide⟩)].foldl
        Store.next (init 1)) = (0, [1, 2]) := by
  have readable : ∀ call ∈ [Call.set (some doorKey) (some [1, 2]) 2,
      .del (some ⟨ascii "lamp", by decide⟩)], call.Readable := by
    intro call member
    rcases List.mem_cons.mp member with rfl | later
    · exact Nat.le_refl 2
    · rw [List.mem_singleton.mp later]
      trivial
  refine (map_refined readable ⟨fun _ _ _ => by decide, trivial, trivial⟩).2.2 [] _ doorKey
    (some [1, 2]) 2 rfl (by decide +kernel) (fun call member => ?_) 4096 (by decide)
  rw [List.mem_singleton.mp member]
  exact fun same => absurd (Option.some.inj same) (by decide)

def longKey : CString := ⟨List.replicate 128 97, by decide +kernel⟩

/-- It is set twice: two entries have one key, and `get` finds neither. -/
theorem map_refined_fails :
    ¬ IsMap ([.set (some longKey) (some [1]) 1, .set (some longKey) (some [2]) 1].foldl
        Store.next (init 1)) ∧
      get (some longKey) (some 4096)
        ([.set (some longKey) (some [1]) 1, .set (some longKey) (some [2]) 1].foldl
          Store.next (init 1)) = (-1, []) := by
  refine ⟨fun isMap => ?_, by decide +kernel⟩
  exact absurd isMap.distinct (by decide +kernel)

end Metal.Net.Dstate
