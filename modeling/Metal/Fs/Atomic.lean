import Metal.Fs.Store

namespace Metal.Fs

open Metal.Lib

/-! What a failed write leaves of the paths that could be read. -/

theorem find?_atFirst_other {path other : CString} {change : File → File}
    (narrows : Narrows change) (different : other ≠ path) (files : List File) :
    (atFirst path change files).find? (fun f => f.At other) =
      files.find? fun f => f.At other := by
  induction files with
  | nil => rfl
  | cons f files ih =>
      rw [atFirst]
      split
      case isTrue here =>
        have before : ¬ f.At other := fun at_ => different (at_.2.symm.trans here.2)
        have after : ¬ (change f).At other := by
          intro at_
          exact different ((at_.2.symm.trans (narrows f).1).trans here.2)
        rw [List.find?_cons_of_neg (by simpa using after),
          List.find?_cons_of_neg (by simpa using before)]
      case isFalse =>
        rw [List.find?_cons, List.find?_cons, ih]

theorem find?_atFirst {path : CString} {change : File → File} (narrows : Narrows change)
    {files : List File} (distinct : files.Pairwise File.Apart) {f : File}
    (found : files.find? (fun f => f.At path) = some f) :
    (atFirst path change files).find? (fun f => f.At path) =
      if (change f).used then some (change f) else none := by
  induction distinct with
  | nil => nomatch found
  | @cons g files apart distinct ih =>
      rw [atFirst]
      split
      case isTrue here =>
        rw [List.find?_cons_of_pos (by simpa using here)] at found
        obtain rfl := Option.some.inj found
        split
        case isTrue kept =>
          exact List.find?_cons_of_pos (decide_eq_true ⟨kept, (narrows g).1.trans here.2⟩)
        case isFalse gone =>
          have after : ¬ (change g).At path := fun at_ => gone at_.1
          rw [List.find?_cons_of_neg (by simpa using after), List.find?_eq_none]
          intro other member at_
          have at_ := of_decide_eq_true at_
          exact apart other member here.1 at_.1 (here.2.trans at_.2.symm)
      case isFalse elsewhere =>
        rw [List.find?_cons_of_neg (by simpa using elsewhere)] at found ⊢
        exact ih found

namespace Store

variable {s : Store} {path other : CString} {f : File}

theorem find_change_other {by_ : File → File} (narrows : Narrows by_) (different : other ≠ path) :
    (s.change path by_ narrows).find other = s.find other := by
  rw [find, find, change, find?_atFirst_other narrows different]

theorem find_change {by_ : File → File} (narrows : Narrows by_) (found : s.find path = some f) :
    (s.change path by_ narrows).find path = if (by_ f).used then some (by_ f) else none := by
  rw [find] at found ⊢
  split at found
  case isTrue => cases found
  case isFalse named =>
    rw [if_neg named]
    exact find?_atFirst narrows s.distinct found

theorem find_unuse (found : s.find path = some f) :
    (s.change path File.unuse narrows_unuse).find path = none := by
  rw [find_change narrows_unuse found]
  rfl

theorem used_of_find (found : s.find path = some f) : f.used = true := by
  rw [find] at found
  split at found
  case isTrue => cases found
  case isFalse =>
    exact (of_decide_eq_true (p := f.At path) (List.find?_some found :)).1

theorem find_copy (bytes : Bytes) (found : s.find path = some f) :
    (s.change path (.copy bytes) (narrows_copy bytes)).find path = some (f.copy bytes) := by
  rw [find_change (narrows_copy bytes) found]
  exact if_pos (used_of_find found)

variable {block : Bytes} {len : UInt32} (sized : block.length = len.toNat)
  (fresh : ∀ f ∈ s.files, f.used = true → f.name ≠ path)

theorem find_link (named : path.bytes ≠ []) :
    (s.link path block len sized fresh).find path =
      some ⟨path, block, len, s.nextId, true, sized⟩ := by
  rw [find, if_neg named]
  exact List.find?_cons_of_pos (decide_eq_true ⟨rfl, rfl⟩)

theorem find_link_other (different : other ≠ path) :
    (s.link path block len sized fresh).find other = s.find other := by
  have elsewhere : ¬ File.At other ⟨path, block, len, s.nextId, true, sized⟩ :=
    fun at_ => different at_.2.symm
  rw [find, find, link, List.find?_cons_of_neg (by simpa using elsewhere)]

end Store

def Preserves (fat : CString → UInt32 → Option Bytes) (s s' : Store) : Prop :=
  ∀ path cap bytes, s.read fat path cap = some bytes → s'.read fat path cap = some bytes

namespace Store

variable {s : Store} {path other : CString} {f : File} (fat : CString → UInt32 → Option Bytes)

variable {t : Store}

theorem read_congr (same : t.find other = s.find other) (cap : UInt32) :
    t.read fat other cap = s.read fat other cap := by
  rw [read, read, same]

theorem read_absent (absent : t.find path = none) (cap : UInt32) :
    t.read fat path cap = fat path cap := by
  rw [read, absent]

theorem read_found (found : t.find path = some f) (cap : UInt32) :
    t.read fat path cap = some (f.data.take (min f.len cap).toNat) := by
  rw [read, found]

theorem preserves_refl (s : Store) : Preserves fat s s := fun _ _ _ reads => reads

theorem preserves_iff (elsewhere : ∀ other, other ≠ path → t.find other = s.find other) :
    Preserves fat s t ↔
      ∀ cap bytes, s.read fat path cap = some bytes → t.read fat path cap = some bytes := by
  refine ⟨fun preserves => preserves path, fun here other cap bytes reads => ?_⟩
  rcases eq_or_ne other path with rfl | different
  · exact here cap bytes reads
  · rw [read_congr fat (elsewhere other different), reads]

def granted (a : Served) (path : CString) (len : UInt32) (s : Store) :
    Option { block : Bytes // block.length = len.toNat } :=
  if s.arena = true ∧ path.bytes ≠ [] ∧ len ≠ 0 then a.granted len else none

/-- When a path's file is taken out before its replacement is made: the replacement
is made and has a number that is none of an error, or its block held what the path
had; or it is not made, and there was no file or a volume has what it held. -/
def Replaces (a : Served) (path : CString) (len : UInt32) (s : Store) : Prop :=
  match s.granted a path len with
  | none =>
      ∀ f, s.find path = some f → ∀ cap,
        fat path cap = some (f.data.take (min f.len cap).toNat)
  | some block =>
      s.nextId.toNat < 2 ^ 31 ∨
        ∀ cap bytes, s.read fat path cap = some bytes →
          block.1.take (min len cap).toNat = bytes

/-- A file of the same length is written over: it has a number that is none of an
error, or the bytes are the ones it has. -/
def Rewrites (f : File) (bytes : Bytes) : Prop := f.id.toNat < 2 ^ 31 ∨ bytes <+: f.data

theorem signed_neg {id : UInt32} : signed id < 0 ↔ 2 ^ 31 ≤ id.toNat := by
  rw [signed, BitVec.toInt_neg_iff, UInt32.toNat_toBitVec]
  omega

theorem reserve_cases (a : Served) (len : UInt32) (absent : t.find path = none) :
    (t.granted a path len = none ∧ t.reserve a (some path) len true = (-1, t)) ∨
      ∃ block fresh, t.granted a path len = some block ∧ path.bytes ≠ [] ∧
        t.reserve a (some path) len true =
          (signed t.nextId, t.link path block.1 len block.2 fresh) := by
  by_cases proper : t.arena = true ∧ path.bytes ≠ [] ∧ len ≠ 0
  · have named := proper.2.1
    rw [granted, if_pos proper, reserve, dif_pos ⟨proper.1, named, rfl, proper.2.2⟩,
      dif_pos absent]
    cases served : a.granted len with
    | none => exact .inl ⟨rfl, rfl⟩
    | some block => exact .inr ⟨block, fresh_of_absent named absent, rfl, named, rfl⟩
  · have improper : ¬ (t.arena = true ∧ path.bytes ≠ [] ∧ true = true ∧ len ≠ 0) :=
      fun all => proper ⟨all.1, all.2.1, all.2.2.2⟩
    rw [granted, if_neg proper, reserve, dif_neg improper]
    exact .inl ⟨rfl, rfl⟩

theorem add_replaces {a : Served} (data : Bytes) {len : UInt32} (absent : t.find path = none)
    (elsewhere : ∀ other, other ≠ path → t.find other = s.find other) (arena : t.arena = s.arena)
    (ids : t.nextId = s.nextId) :
    ((t.add a (some path) (some data) len).1 < 0 →
        Preserves fat s (t.add a (some path) (some data) len).2) ↔
      s.Replaces fat a path len := by
  have minus_one : (-1 : Int) < 0 := by decide
  have granted_eq : s.granted a path len = t.granted a path len := by
    rw [granted, granted, arena]
  rw [Replaces, granted_eq]
  obtain ⟨refused, reserved⟩ | ⟨block, fresh, served, named, reserved⟩ :=
    reserve_cases a len absent
  · have added : t.add a (some path) (some data) len = (-1, t) := by
      rw [add, reserved]
      rfl
    rw [added, refused, preserves_iff fat elsewhere]
    refine ⟨fun kept f found cap => ?_, fun kept _ cap bytes reads => ?_⟩
    · rw [← read_absent fat absent]
      exact kept minus_one cap _ (read_found fat found cap)
    · rw [read_absent fat absent]
      cases found : s.find path with
      | none => rwa [read_absent fat found] at reads
      | some f =>
          rw [kept f found cap, ← reads, read_found fat found]
  · rw [served]
    rcases Nat.lt_or_ge t.nextId.toNat (2 ^ 31) with small | large
    · have numbered : ¬ signed t.nextId < 0 := fun negative => by
        have := signed_neg.mp negative
        omega
      have added : (t.add a (some path) (some data) len).1 = signed t.nextId := by
        rw [add, reserved]
        simp only [if_neg numbered]
      rw [added]
      exact ⟨fun _ => .inl (ids ▸ small), fun _ negative => absurd negative numbered⟩
    · have added : t.add a (some path) (some data) len =
          (-1, t.link path block.1 len block.2 fresh) := by
        rw [add, reserved]
        simp only [if_pos (signed_neg.mpr large)]
      have found := find_link (s := t) block.2 fresh named
      rw [added, preserves_iff fat fun other different =>
        (find_link_other block.2 fresh different).trans (elsewhere other different)]
      refine ⟨fun kept => .inr fun cap bytes reads => ?_, fun kept _ cap bytes reads => ?_⟩
      · have kept := kept minus_one cap bytes reads
        rw [read_found fat found] at kept
        exact Option.some.inj kept
      · have wide : ¬ s.nextId.toNat < 2 ^ 31 := by
          rw [← ids]
          exact Nat.not_lt.mpr large
        rw [read_found fat found]
        exact congrArg some (kept.resolve_left wide cap bytes reads)

theorem copy_data_eq {bytes : Bytes} (fits : bytes.length ≤ f.data.length) :
    (f.copy bytes).data = f.data ↔ bytes <+: f.data := by
  change bytes.take f.data.length ++ f.data.drop bytes.length = f.data ↔ _
  rw [List.take_of_length_le fits, List.prefix_iff_eq_append]

theorem rewrites_iff {bytes : Bytes} (found : s.find path = some f)
    (fits : bytes.length ≤ f.data.length) :
    (signed f.id < 0 → Preserves fat s (s.change path (.copy bytes) (narrows_copy bytes))) ↔
      Rewrites f bytes := by
  have same : Preserves fat s (s.change path (.copy bytes) (narrows_copy bytes)) ↔
      bytes <+: f.data := by
    have after := find_copy bytes found
    have length : (f.copy bytes).data.length = f.data.length := by
      rw [(f.copy bytes).sized, f.sized]
      rfl
    rw [preserves_iff fat fun other different =>
      find_change_other (narrows_copy bytes) different, ← copy_data_eq fits]
    constructor
    · intro kept
      have whole := kept f.len _ (read_found fat found f.len)
      rw [read_found fat after, show (f.copy bytes).len = f.len from rfl,
        show min f.len f.len = f.len from ite_self _, ← f.sized,
        List.take_of_length_le length.le, List.take_length] at whole
      exact Option.some.inj whole
    · intro unchanged cap bytes reads
      rw [read_found fat after, unchanged, ← reads, read_found fat found]
      rfl
  rw [same, Rewrites, signed_neg, ← Nat.not_lt]
  exact Decidable.not_imp_comm.trans (by rw [or_iff_not_imp_left, Decidable.not_imp_comm])

theorem drop_spec (path : CString) (s : Store) :
    (s.drop (some path)).2.find path = none ∧
      (∀ other, other ≠ path → (s.drop (some path)).2.find other = s.find other) ∧
        (s.drop (some path)).2.arena = s.arena ∧ (s.drop (some path)).2.nextId = s.nextId := by
  rw [drop]
  cases found : s.find path with
  | none => exact ⟨found, fun _ _ => rfl, rfl, rfl⟩
  | some f =>
      exact ⟨find_unuse found, fun _ different => find_change_other narrows_unuse different,
        rfl, rfl⟩

/-- The condition for a `write` that fails to leave everything as it was. -/
def WritesSafely (a : Served) (path : Option CString) (data : Option Bytes) (len : UInt32)
    (s : Store) : Prop :=
  ∀ name bytes, path = some name → data = some bytes → len ≠ 0 →
    match s.find name with
    | none => s.Replaces fat a name len
    | some f => if f.len = len then Rewrites f (bytes.take len.toNat) else s.Replaces fat a name len

/-- The condition for a `write_back` that fails to leave everything as it was. -/
def WritesBackSafely (gates : Gates) (a : Served) (target path : Option CString)
    (source : Option Bytes) (sourceLen : UInt64) (s : Store) : Prop :=
  ∀ name, path = some name → target.isSome → source.isSome → sourceLen ≠ 0 →
    gates.noteHas = 1 → gates.typecheck = 0 → s.Replaces fat a name sourceLen.toUInt32

theorem write_iff (a : Served) (path : Option CString) (data : Option Bytes) (len : UInt32)
    (s : Store) :
    ((s.write a path data len).1 < 0 → Preserves fat s (s.write a path data len).2) ↔
      s.WritesSafely fat a path data len := by
  cases data with
  | none => exact ⟨fun _ => nofun, fun _ _ => preserves_refl fat s⟩
  | some bytes =>
      rcases eq_or_ne len 0 with rfl | long
      · exact ⟨fun _ _ _ _ _ ne => absurd rfl ne, fun _ _ => preserves_refl fat s⟩
      cases path with
      | none =>
          have unchanged : s.write a none (some bytes) len = (-1, s) := by
            rw [write, if_neg long, add, reserve]
            rfl
          rw [unchanged]
          exact ⟨fun _ => nofun, fun _ _ => preserves_refl fat s⟩
      | some name =>
          have condition : s.WritesSafely fat a (some name) (some bytes) len ↔
              match s.find name with
              | none => s.Replaces fat a name len
              | some f =>
                  if f.len = len then Rewrites f (bytes.take len.toNat)
                  else s.Replaces fat a name len :=
            ⟨fun safe => safe name bytes rfl rfl long, by
              rintro safe _ _ ⟨⟩ ⟨⟩ _
              exact safe⟩
          rw [condition, write, if_neg long]
          cases found : s.find name with
          | none => exact add_replaces fat bytes found (fun _ _ => rfl) rfl rfl
          | some f =>
              by_cases same : f.len = len
              · simp only [if_pos same]
                refine rewrites_iff fat found ?_
                rw [List.length_take, f.sized, same]
                exact Nat.min_le_left _ _
              · simp only [if_neg same]
                exact add_replaces fat bytes (find_unuse found)
                  (fun _ different => find_change_other narrows_unuse different) rfl rfl

theorem writeBack_iff (gates : Gates) (a : Served) (target path : Option CString)
    (source : Option Bytes) (sourceLen : UInt64) (s : Store) :
    ((writeBack gates a target path source sourceLen s).1.isSome →
        Preserves fat s (writeBack gates a target path source sourceLen s).2) ↔
      s.WritesBackSafely fat gates a target path source sourceLen := by
  cases target with
  | none => exact ⟨fun _ => nofun, fun _ _ => preserves_refl fat s⟩
  | some target =>
      cases path with
      | none => exact ⟨fun _ => nofun, fun _ _ => preserves_refl fat s⟩
      | some path =>
          cases source with
          | none => exact ⟨fun _ => nofun, fun _ _ => preserves_refl fat s⟩
          | some source =>
              rw [writeBack]
              by_cases short : sourceLen = 0
              · rw [if_pos short]
                exact ⟨fun _ _ _ _ _ long => absurd short long, fun _ _ => preserves_refl fat s⟩
              by_cases noted : gates.noteHas = 1
              case neg =>
                rw [if_neg short, if_pos noted]
                exact ⟨fun _ _ _ _ _ _ has => absurd has noted, fun _ _ => preserves_refl fat s⟩
              by_cases compiles : gates.typecheck = 0
              case neg =>
                rw [if_neg short, if_neg (not_not.mpr noted), if_pos compiles]
                exact ⟨fun _ _ _ _ _ _ _ ok => absurd ok compiles,
                  fun _ _ => preserves_refl fat s⟩
              obtain ⟨absent, elsewhere, arena, ids⟩ := drop_spec path s
              rw [if_neg short, if_neg (not_not.mpr noted), if_neg (not_not.mpr compiles)]
              have condition :
                  s.WritesBackSafely fat gates a (some target) (some path) (some source) sourceLen ↔
                    s.Replaces fat a path sourceLen.toUInt32 :=
                ⟨fun safe => safe path rfl rfl rfl short noted compiles, by
                  rintro safe _ ⟨⟩ _ _ _ _ _
                  exact safe⟩
              have failed : ∀ rc : Int, (if rc < 0 then some Refusal.addFailed else none).isSome ↔
                  rc < 0 := by
                intro rc
                split <;> simp_all
              rw [condition, ← add_replaces fat source absent elsewhere arena ids]
              exact imp_congr_left (failed _)

/-- Both ways to write: an error leaves whatever could be read exactly under the
conditions. -/
theorem write_atomic_iff (fat : CString → UInt32 → Option Bytes) (a : Served) (s : Store) :
    (∀ path data len,
      ((s.write a path data len).1 < 0 → Preserves fat s (s.write a path data len).2) ↔
        s.WritesSafely fat a path data len) ∧
    ∀ gates target path source sourceLen,
      ((writeBack gates a target path source sourceLen s).1.isSome →
          Preserves fat s (writeBack gates a target path source sourceLen s).2) ↔
        s.WritesBackSafely fat gates a target path source sourceLen :=
  ⟨fun path data len => write_iff fat a path data len s,
    fun gates target path source sourceLen =>
      writeBack_iff fat gates a target path source sourceLen s⟩

def probe : CString := ⟨ascii "/a", by decide⟩

def served : Served := ⟨true, true, some fun _ => 0⟩

def oneByte : Store := (init.add served (some probe) (some [1]) 1).2

/-- The arena has no room for the block of the new version: the old one is gone. -/
theorem write_atomic_fails :
    ¬ ∀ (fat : CString → UInt32 → Option Bytes) (a : Served) (s : Store) (path : Option CString)
        (data : Option Bytes) (len : UInt32),
      (s.write a path data len).1 < 0 → Preserves fat s (s.write a path data len).2 := by
  intro atomic
  have kept := atomic (fun _ _ => none) { served with block := none } oneByte (some probe)
    (some [1, 2]) 2 (by decide) probe 8 [1] (by decide)
  exact absurd kept (by decide)

end Store

end Metal.Fs
