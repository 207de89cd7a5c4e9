import Mathlib.Data.List.Pairwise
import Metal.Lib.CString

namespace Metal.Fs

open Metal.Lib

/-! The file store: the paths that were added to the arena, and below them the
paths that the imported volumes have. -/

structure File where
  name : CString
  data : Bytes
  len : UInt32
  id : UInt32
  used : Bool
  sized : data.length = len.toNat

namespace File

def At (path : CString) (f : File) : Prop := f.used = true ∧ f.name = path

instance (path : CString) : DecidablePred (At path) := fun f =>
  inferInstanceAs (Decidable (f.used = true ∧ f.name = path))

def Apart (f g : File) : Prop := f.used = true → g.used = true → f.name ≠ g.name

def unuse (f : File) : File := { f with used := false }

/-- `memcpy` to the start of the file's block. -/
def copy (bytes : Bytes) (f : File) : File :=
  { f with
    data := bytes.take f.data.length ++ f.data.drop bytes.length
    sized := by
      rw [List.length_append, List.length_take, List.length_drop, ← f.sized]
      omega }

end File

/-- `change` at the first file that `find_file` stops at. -/
def atFirst (path : CString) (change : File → File) : List File → List File
  | [] => []
  | f :: files =>
      if f.At path then change f :: files else f :: atFirst path change files

def Narrows (change : File → File) : Prop :=
  ∀ f : File, (change f).name = f.name ∧ ((change f).used = true → f.used = true)

theorem narrows_unuse : Narrows File.unuse := fun _ => ⟨rfl, fun used => nomatch used⟩

theorem narrows_copy (bytes : Bytes) : Narrows (File.copy bytes) := fun _ => ⟨rfl, id⟩

theorem Narrows.apart {change : File → File} (narrows : Narrows change) {f g : File}
    (apart : f.Apart g) : (change f).Apart g ∧ g.Apart (change f) := by
  obtain ⟨name, used⟩ := narrows f
  refine ⟨fun f_used g_used => ?_, fun g_used f_used => ?_⟩
  · rw [name]
    exact apart (used f_used) g_used
  · rw [name]
    exact (apart (used f_used) g_used).symm

theorem atFirst_forall {change : File → File} (narrows : Narrows change) (path : CString)
    {f : File} {files : List File} (apart : ∀ g ∈ files, f.Apart g) :
    ∀ g ∈ atFirst path change files, f.Apart g := by
  induction files with
  | nil => exact apart
  | cons head files ih =>
      have rest := fun g member => apart g (List.mem_cons_of_mem head member)
      have symmetric : head.Apart f := fun head_used f_used =>
        (apart head List.mem_cons_self f_used head_used).symm
      rw [atFirst]
      split
      · rintro g (_ | ⟨_, member⟩)
        · exact (narrows.apart symmetric).2
        · exact rest g member
      · rintro g (_ | ⟨_, member⟩)
        · exact apart _ List.mem_cons_self
        · exact ih rest g member

theorem atFirst_distinct {change : File → File} (narrows : Narrows change) (path : CString)
    {files : List File} (distinct : files.Pairwise File.Apart) :
    (atFirst path change files).Pairwise File.Apart := by
  induction distinct with
  | nil => exact .nil
  | @cons f files apart distinct ih =>
      rw [atFirst]
      split
      · exact .cons (fun g member => (narrows.apart (apart g member)).1) distinct
      · exact .cons (atFirst_forall narrows path apart) ih

/-- `arena` tells whether the card has one. -/
structure Store where
  arena : Bool
  files : List File
  nextId : UInt32
  distinct : files.Pairwise File.Apart

namespace Store

def init : Store := ⟨true, [], 0, .nil⟩

/-- `find_file` -/
def find (path : CString) (s : Store) : Option File :=
  if path.bytes = [] then none else s.files.find? fun f => f.At path

def change (path : CString) (by_ : File → File) (narrows : Narrows by_) (s : Store) : Store :=
  { s with
    files := atFirst path by_ s.files
    distinct := atFirst_distinct narrows path s.distinct }

end Store

/-- What the arena answers to the three allocations of `reserve`: a block comes
with the bytes that lie there. -/
structure Served where
  file : Bool
  name : Bool
  block : Option (Nat → UInt8)

def Served.granted (a : Served) (len : UInt32) :
    Option { block : Bytes // block.length = len.toNat } :=
  if a.file && a.name then
    a.block.map fun stale => ⟨(List.range len.toNat).map stale, by
      rw [List.length_map, List.length_range]⟩
  else none

namespace Store

theorem fresh_of_absent {path : CString} {s : Store} (named : path.bytes ≠ [])
    (absent : s.find path = none) : ∀ f ∈ s.files, f.used = true → f.name ≠ path := by
  intro f member used same
  rw [find, if_neg named, List.find?_eq_none] at absent
  exact absent f member (decide_eq_true ⟨used, same⟩)

def link (path : CString) (block : Bytes) (len : UInt32) (sized : block.length = len.toNat)
    (s : Store) (fresh : ∀ f ∈ s.files, f.used = true → f.name ≠ path) : Store :=
  { s with
    files := ⟨path, block, len, s.nextId, true, sized⟩ :: s.files
    nextId := s.nextId + 1
    distinct := .cons (fun f member _ used => (fresh f member used).symm) s.distinct }

/-- `(int32_t)id` -/
def signed (id : UInt32) : Int := id.toBitVec.toInt

/-- `out` tells whether the caller takes the block. -/
def reserve (a : Served) (path : Option CString) (len : UInt32) (out : Bool) (s : Store) :
    Int × Store :=
  match path with
  | none => (-1, s)
  | some path =>
      if named : s.arena = true ∧ path.bytes ≠ [] ∧ out = true ∧ len ≠ 0 then
        if absent : s.find path = none then
          match a.granted len with
          | none => (-1, s)
          | some ⟨block, sized⟩ =>
              (signed s.nextId,
                s.link path block len sized (fresh_of_absent named.2.1 absent))
        else (-1, s)
      else (-1, s)

def drop (path : Option CString) (s : Store) : Int × Store :=
  match path with
  | none => (-1, s)
  | some path =>
      match s.find path with
      | none => (-1, s)
      | some _ => (0, s.change path File.unuse narrows_unuse)

/-- The block that `reserve` hands out is the one of the file that is now found. -/
def add (a : Served) (path : Option CString) (data : Option Bytes) (len : UInt32) (s : Store) :
    Int × Store :=
  match data with
  | none => (-1, s)
  | some data =>
      let (id, s) := s.reserve a path len true
      if id < 0 then (-1, s)
      else
        match path with
        | none => (id, s)
        | some path => (id, s.change path (.copy (data.take len.toNat)) (narrows_copy _))

def write (a : Served) (path : Option CString) (data : Option Bytes) (len : UInt32) (s : Store) :
    Int × Store :=
  match data with
  | none => (-1, s)
  | some bytes =>
      if len = 0 then (-1, s)
      else
        match path with
        | none => s.add a path data len
        | some name =>
            match s.find name with
            | none => s.add a path data len
            | some f =>
                if f.len = len then
                  (signed f.id, s.change name (.copy (bytes.take len.toNat)) (narrows_copy _))
                else (s.change name File.unuse narrows_unuse).add a path data len

/-- What a caller with a buffer of `cap` bytes reads; `fat` is what the volumes
answer. -/
def read (fat : CString → UInt32 → Option Bytes) (path : CString) (cap : UInt32) (s : Store) :
    Option Bytes :=
  match s.find path with
  | some f => some (f.data.take (min f.len cap).toNat)
  | none => fat path cap

end Store

/-- Why `write_back` wrote nothing; `broken` carries what the compiler said. -/
inductive Refusal
  | badArgs
  | noNote (target : CString)
  | broken (rc : Int) (text : Bytes)
  | addFailed

/-- The text in `errbuf`, before it is cut to the buffer. -/
def Refusal.text : Refusal → Bytes
  | .badArgs => ascii "write_back: bad args"
  | .noNote target =>
      ascii "write_back: no ledger note for " ++ target.bytes ++ [32, 226, 128, 148] ++
        ascii " note_add before write"
  | .broken _ text => text
  | .addFailed => ascii "write_back: fs add failed"

/-- What the gates of `write_back` find: the answer of `note_has`, and the one of
`typecheck_c` with its text. -/
structure Gates where
  noteHas : Int
  typecheck : Int
  text : Bytes

def writeBack (gates : Gates) (a : Served) (target path : Option CString)
    (source : Option Bytes) (sourceLen : UInt64) (s : Store) : Option Refusal × Store :=
  match target, path, source with
  | some target, some path, some source =>
      if sourceLen = 0 then (some .badArgs, s)
      else if gates.noteHas ≠ 1 then (some (.noNote target), s)
      else if gates.typecheck ≠ 0 then (some (.broken gates.typecheck gates.text), s)
      else
        let (_, s) := s.drop (some path)
        let (rc, s) := s.add a (some path) (some source) sourceLen.toUInt32
        (if rc < 0 then some .addFailed else none, s)
  | _, _, _ => (some .badArgs, s)

end Metal.Fs
