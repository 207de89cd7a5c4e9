import Metal.Port.TempSpec
import Mathlib.Data.List.Find

namespace Metal.Port.TempFile

open Metal.Lib Function

/-! ### Growing a block -/

theorem doubleCap_some {need : Nat} (small : need < 2 ^ 63) (fuel ncap : Nat)
    (enough : need ≤ ncap * 2 ^ fuel) :
    ∃ found, doubleCap (fuel + 1) need ncap = some found ∧ need ≤ found := by
  induction fuel generalizing ncap with
  | zero =>
      rw [Nat.pow_zero, Nat.mul_one] at enough
      exact ⟨ncap, if_neg (Nat.not_lt_of_le enough), enough⟩
  | succ fuel ih =>
      rw [doubleCap]
      split
      · rename_i less
        rw [Nat.mod_eq_of_lt (by omega)]
        refine ih (ncap * 2) ?_
        rw [Nat.mul_assoc, ← Nat.pow_succ']
        exact enough
      · rename_i reached
        exact ⟨ncap, rfl, Nat.le_of_not_lt reached⟩

theorem File.getElem?_contents (file : File) (offset : Nat) :
    file.contents[offset]? = if offset < file.len then some (file.byte offset) else none := by
  rw [File.contents, List.getElem?_map]
  split
  · rename_i inside
    rw [List.getElem?_range inside]
    rfl
  · rename_i outside
    rw [List.getElem?_eq_none (by simpa using outside)]
    rfl

theorem File.length_contents (file : File) : file.contents.length = file.len := by
  rw [File.contents, List.length_map, List.length_range]

theorem File.contents_patch {old new : File} {pos : Nat} {bytes : Bytes}
    (len : new.len = max old.len (pos + bytes.length))
    (written : ∀ offset, pos ≤ offset → offset < pos + bytes.length →
      new.byte offset = bytes.getD (offset - pos) 0)
    (kept : ∀ offset, offset < old.len → ¬(pos ≤ offset ∧ offset < pos + bytes.length) →
      new.byte offset = old.byte offset)
    (skipped : ∀ offset, old.len ≤ offset → offset < pos → new.byte offset = 0) :
    new.contents = Spec.patch pos bytes old.contents := by
  refine List.ext_getElem? fun offset => ?_
  have room : pos ≤ (old.contents ++ List.replicate (pos - old.contents.length) 0).length := by
    rw [List.length_append, List.length_replicate]
    omega
  rw [Spec.patch, getElem?_writeAt room, File.getElem?_contents, len, File.length_contents]
  have padded : (old.contents ++ List.replicate (pos - old.len) 0)[offset]? =
      if offset < old.len then some (old.byte offset)
      else if offset < pos then some 0 else none := by
    rw [List.getElem?_append, File.length_contents, File.getElem?_contents,
      List.getElem?_replicate]
    split
    · rfl
    · rename_i past
      exact if_congr (by omega) rfl rfl
  rw [padded]
  by_cases inside : pos ≤ offset ∧ offset < pos + bytes.length
  · have there : offset - pos < bytes.length := by omega
    rw [if_pos (Nat.lt_of_lt_of_le inside.2 (Nat.le_max_right ..)), if_pos inside,
      written offset inside.1 inside.2, List.getElem?_eq_getElem there,
      List.getD_eq_getElem?_getD, List.getElem?_eq_getElem there]
    rfl
  · rw [if_neg inside]
    by_cases before : offset < old.len
    · rw [if_pos (Nat.lt_of_lt_of_le before (Nat.le_max_left ..)), if_pos before,
        kept offset before inside]
    · rw [if_neg before]
      by_cases gap : offset < pos
      · rw [if_pos (by omega), if_pos gap, skipped offset (Nat.le_of_not_lt before) gap]
      · rw [if_neg (by omega), if_neg gap]

theorem File.load_contents (file : File) (pos n : Nat) (inside : pos + n ≤ file.len)
    (room : file.len ≤ file.cap) (null : file.data = none → file.cap = 0) :
    file.load pos n = some ((file.contents.drop pos).take n) := by
  rw [File.load]
  split
  · rename_i none_
    rw [none_, List.take_zero]
  · rename_i some_
    cases data : file.data with
    | none => exact absurd (null data) (by omega)
    | some block =>
        dsimp only
        rw [if_pos (Nat.le_trans inside room)]
        refine congrArg some (List.ext_getElem? fun offset => ?_)
        rw [List.getElem?_map]
        rcases Nat.lt_or_ge offset n with less | more
        · rw [List.getElem?_range less, List.getElem?_take_of_lt less, List.getElem?_drop,
            File.getElem?_contents, if_pos (by omega)]
          simp [File.byte, data]
        · rw [List.getElem?_eq_none (by simpa using more),
            List.getElem?_eq_none (by rw [List.length_take]; omega)]
          rfl

theorem File.grownByte_of_lt {file : File} (null : file.data = none → file.cap = 0)
    (alloc : Alloc) {offset : Nat} (inside : offset < file.cap) :
    file.grownByte alloc offset = file.byte offset := by
  cases data : file.data with
  | none =>
      rw [null data] at inside
      exact absurd inside (Nat.not_lt_zero _)
  | some block => simp [File.grownByte, File.kept, File.byte, data, inside]

structure File.Follows (new old : File) : Prop where
  name : new.name = old.name
  inUse : new.inUse = old.inUse
  len : new.len = old.len
  cap : old.cap ≤ new.cap
  null : new.data = none → new.cap = 0

theorem File.grow {file : File} {need : Nat} (alloc : Alloc) (small : need < 2 ^ 63)
    (null : file.data = none → file.cap = 0) :
    fwFileGrow need alloc file = some none ∧ alloc = none ∨
      (need ≤ file.cap ∨ alloc.isSome = true) ∧
      ∃ grown, fwFileGrow need alloc file = some (some grown) ∧ grown.Follows file ∧
        need ≤ grown.cap ∧
        ∀ offset < grown.cap, grown.byte offset = file.grownByte alloc offset := by
  rw [fwFileGrow]
  split
  · rename_i enough
    refine .inr ⟨.inl enough, file, rfl, ⟨rfl, rfl, rfl, Nat.le_refl _, null⟩, enough, ?_⟩
    exact fun offset inside => (file.grownByte_of_lt null alloc inside).symm
  · rename_i more
    have start : need ≤ (if file.cap = 0 then 512 else file.cap) * 2 ^ 64 := by
      split <;> omega
    obtain ⟨cap, doubled, enough⟩ := doubleCap_some small 64 _ start
    rw [doubled]
    cases alloc with
    | none => exact .inl ⟨rfl, rfl⟩
    | some fresh =>
        refine .inr ⟨.inr rfl, _, rfl, ⟨rfl, rfl, rfl, ?_, nofun⟩, enough, fun _ _ => rfl⟩
        exact Nat.le_trans (Nat.le_of_not_le more) enough

theorem File.store_bytes {file : File} {pos : Nat} {bytes : Bytes}
    (room : pos + bytes.length ≤ file.cap) (null : file.data = none → file.cap = 0) :
    ∃ new, file.store pos bytes = some new ∧ new.Follows file ∧ new.cap = file.cap ∧
      ∀ offset, new.byte offset =
        if pos ≤ offset ∧ offset < pos + bytes.length then bytes.getD (offset - pos) 0
        else file.byte offset := by
  rw [File.store]
  split
  · rename_i empty
    refine ⟨file, rfl, ⟨rfl, rfl, rfl, Nat.le_refl _, null⟩, rfl, fun offset => ?_⟩
    rw [empty, List.length_nil, if_neg (by omega)]
  · rename_i some_
    cases data : file.data with
    | none =>
        have := List.length_pos_iff.mpr some_
        exact absurd (null data) (by omega)
    | some block =>
        simp only
        refine ⟨_, rfl, ⟨rfl, rfl, rfl, Nat.le_refl _, nofun⟩, rfl, fun offset => ?_⟩
        simp [File.byte, data]

variable {s : State} {spec : Spec}

variable {fd : Nat}

theorem Refines.inUse_iff (refines : Refines s spec) (small : fd < fwMaxOpen) :
    (s.files fd).inUse = (spec.dir fd).isSome := by
  have same := refines.dir fd small
  cases used : (s.files fd).inUse <;> cases there : spec.dir fd <;>
    simp [used, there] at same ⊢

theorem Refines.name_eq (refines : Refines s spec) {entry : Entry}
    (there : spec.dir fd = some entry) : fd < fwMaxOpen ∧ (s.files fd).inUse = true ∧
      (s.files fd).name = entry.name := by
  have small : fd < fwMaxOpen := by
    by_contra large
    rw [refines.beyond fd (Nat.le_of_not_lt large)] at there
    cases there
  have used : (s.files fd).inUse = true := by
    rw [refines.inUse_iff small, there]
    rfl
  have same := refines.dir fd small
  rw [there, if_pos used] at same
  exact ⟨small, used, (Option.some.inj same).symm⟩

theorem Refines.find (refines : Refines s spec) (name : CString) :
    fwFileFind s name = spec.find name := by
  refine List.find?_congr fun fd member => ?_
  have small := List.mem_range.mp member
  cases there : spec.dir fd with
  | none => simp [refines.inUse_iff small, there]
  | some entry =>
      obtain ⟨_, used, same⟩ := refines.name_eq there
      simp [used, same]

theorem Refines.slot (refines : Refines s spec) :
    fwFileSlot s = spec.free.map fun fd =>
      (fd, s.setFile fd ⟨CString.empty, none, 0, 0, true⟩) := by
  have same : (List.range fwMaxOpen).find? (fun i => !(s.files i).inUse) = spec.free := by
    refine List.find?_congr fun fd member => ?_
    rw [refines.inUse_iff (List.mem_range.mp member), Option.not_isSome]
  rw [fwFileSlot, same]
  cases spec.free <;> rfl

theorem Spec.find_some {name : CString} (found : spec.find name = some fd) :
    ∃ entry, spec.dir fd = some entry ∧ entry.name = name := by
  have holds := List.find?_some found
  cases there : spec.dir fd with
  | none => simp [there] at holds
  | some entry =>
      rw [there] at holds
      exact ⟨entry, rfl, of_decide_eq_true holds⟩

theorem Spec.free_some (found : spec.free = some fd) : fd < fwMaxOpen ∧ spec.dir fd = none := by
  have holds : (spec.dir fd).isNone = true := by simpa using List.find?_some found
  exact ⟨List.mem_range.mp (List.mem_of_find?_eq_some found),
    Option.isNone_iff_eq_none.mp holds⟩

theorem Linked.move {dir dir' : Nat → Option Entry} {stream : Option Stream}
    {cursor : Option Cursor} (linked : Linked dir stream cursor)
    (kept : ∀ at_ entry, stream = some at_ → dir at_.fd = some entry →
      dir' at_.fd = some entry) : Linked dir' stream cursor := by
  cases linked with
  | closed => exact .closed
  | live fd pos entry there small => exact .live fd pos entry (kept _ entry rfl there) small

theorem Refines.setStream (refines : Refines s spec) (h : Nat) {stream : Option Stream}
    {cursor : Option Cursor} (linked : Linked spec.dir stream cursor) :
    Refines (s.setStream h stream) (spec.setCursor h cursor) :=
  { refines with
    streams := fun other => by
      by_cases here : other = h
      · simpa [State.setStream, Spec.setCursor, here] using linked
      · simpa [State.setStream, Spec.setCursor, update_of_ne here] using
          refines.streams other }

theorem Refines.setFile (refines : Refines s spec) {entry : Entry}
    (there : spec.dir fd = some entry) (file : File) (name : file.name = (s.files fd).name)
    (inUse : file.inUse = true) (lenLe : file.len ≤ file.cap) (small : file.len < 2 ^ 63)
    (null : file.data = none → file.cap = 0) :
    Refines (s.setFile fd file) (spec.setBytes entry.id file.contents) := by
  have other {n : Nat} (apart : n ≠ fd) : (s.setFile fd file).files n = s.files n :=
    update_of_ne apart ..
  have self : (s.setFile fd file).files fd = file := update_self ..
  have each (holds : File → Prop) (now : holds file)
      (before : ∀ n entry, spec.dir n = some entry → holds (s.files n)) (n : Nat)
      (entry : Entry) (there : spec.dir n = some entry) :
      holds ((s.setFile fd file).files n) := by
    by_cases here : n = fd
    · rw [here, self]
      exact now
    · rw [other here]
      exact before n entry there
  exact { refines with
    dir := fun n below => by
      by_cases here : n = fd
      · have before := refines.dir fd (here ▸ below)
        rw [if_pos (refines.name_eq there).2.1] at before
        rw [here, self, if_pos inUse, name]
        exact before
      · rw [other here]
        exact refines.dir n below
    contents := fun n entry' there' => by
      have inside := (List.getElem?_eq_some_iff.mp (refines.contents fd entry there)).1
      rw [Spec.setBytes, List.getElem?_set]
      by_cases here : n = fd
      · have same : entry = entry' := Option.some.inj (there.symm.trans (here ▸ there'))
        rw [if_pos (congrArg Entry.id same), if_pos inside, here, self]
      · have apart : entry.id ≠ entry'.id := fun same =>
          here (refines.apart fd n entry entry' there there' same).symm
        rw [if_neg apart, other here]
        exact refines.contents n entry' there'
    lenLe := each (fun file => file.len ≤ file.cap) lenLe refines.lenLe
    small := each (fun file => file.len < 2 ^ 63) small refines.small
    null := each (fun file => file.data = none → file.cap = 0) null refines.null
    streams := refines.streams }

theorem Refines.create (refines : Refines s spec) (free : spec.free = some fd) (name : CString) :
    Refines (s.setFile fd ⟨name, none, 0, 0, true⟩) (spec.create fd name) := by
  obtain ⟨below, nothing⟩ := Spec.free_some free
  have other {n : Nat} (apart : n ≠ fd) :
      (s.setFile fd ⟨name, none, 0, 0, true⟩).files n = s.files n :=
    update_of_ne apart ..
  have self : (s.setFile fd ⟨name, none, 0, 0, true⟩).files fd = ⟨name, none, 0, 0, true⟩ :=
    update_self ..
  have dirOther {n : Nat} (apart : n ≠ fd) : (spec.create fd name).dir n = spec.dir n :=
    update_of_ne apart ..
  have dirSelf : (spec.create fd name).dir fd = some ⟨name, spec.contents.length⟩ :=
    update_self ..
  have old (n : Nat) (entry : Entry) (there : spec.dir n = some entry) :
      entry.id < spec.contents.length :=
    (List.getElem?_eq_some_iff.mp (refines.contents n entry there)).1
  have each (holds : File → Prop) (now : holds ⟨name, none, 0, 0, true⟩)
      (before : ∀ n entry, spec.dir n = some entry → holds (s.files n)) (n : Nat)
      (entry : Entry) (there : (spec.create fd name).dir n = some entry) :
      holds ((s.setFile fd ⟨name, none, 0, 0, true⟩).files n) := by
    by_cases here : n = fd
    · rw [here, self]
      exact now
    · rw [other here]
      exact before n entry (dirOther here ▸ there)
  exact
    { dir := fun n below => by
        by_cases here : n = fd
        · rw [here, self, dirSelf]
          rfl
        · rw [other here, dirOther here]
          exact refines.dir n below
      beyond := fun n above => by
        have apart : n ≠ fd := Nat.ne_of_gt (Nat.lt_of_lt_of_le below above)
        rw [dirOther apart]
        exact refines.beyond n above
      contents := fun n entry there => by
        by_cases here : n = fd
        · rw [here, dirSelf] at there
          cases there
          rw [here, self]
          exact List.getElem?_concat_length
        · rw [dirOther here] at there
          rw [other here]
          exact (List.getElem?_append_left (old n entry there)).trans
            (refines.contents n entry there)
      apart := fun n m entry entry' there there' same => by
        by_cases here : n = fd <;> by_cases here' : m = fd
        · rw [here, here']
        · rw [here, dirSelf] at there
          rw [dirOther here'] at there'
          cases there
          exact absurd (old m entry' there') (by rw [← same]; exact Nat.lt_irrefl _)
        · rw [here', dirSelf] at there'
          rw [dirOther here] at there
          cases there'
          exact absurd (old n entry there) (by rw [same]; exact Nat.lt_irrefl _)
        · rw [dirOther here] at there
          rw [dirOther here'] at there'
          exact refines.apart n m entry entry' there there' same
      lenLe := each (fun file => file.len ≤ file.cap) (Nat.le_refl 0) refines.lenLe
      small := each (fun file => file.len < 2 ^ 63) (Nat.two_pow_pos 63) refines.small
      null := each (fun file => file.data = none → file.cap = 0) (fun _ => rfl) refines.null
      streams := fun h => (refines.streams h).move fun at_ entry _ there => by
        have apart : at_.fd ≠ fd := by
          intro here
          rw [here, nothing] at there
          cases there
        exact (dirOther apart).trans there
      opened := refines.opened }

end Metal.Port.TempFile
