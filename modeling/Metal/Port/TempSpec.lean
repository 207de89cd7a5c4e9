import Metal.Lib.Memory
import Metal.Lib.Run
import Metal.Port.TempFile

namespace Metal.Port.TempFile

open Metal.Lib

/-! What the layer is for: names lead to byte strings, and a stream stays with the byte
string that it was opened on. -/

structure Entry where
  name : CString
  id : Nat

structure Cursor where
  id : Nat
  pos : Nat

/-- `dir` has the files that exist, under their descriptors. -/
structure Spec where
  contents : List Bytes
  dir : Nat → Option Entry
  streams : Nat → Option Cursor
  opened : Nat

namespace Spec

def boot : Spec where
  contents := []
  dir _ := none
  streams _ := none
  opened := 0

def find (spec : Spec) (name : CString) : Option Nat :=
  (List.range fwMaxOpen).find? fun fd => (spec.dir fd).any fun entry => decide (entry.name = name)

def free (spec : Spec) : Option Nat :=
  (List.range fwMaxOpen).find? fun fd => (spec.dir fd).isNone

def bytes (spec : Spec) (id : Nat) : Bytes := spec.contents.getD id []

def setBytes (spec : Spec) (id : Nat) (bytes : Bytes) : Spec :=
  { spec with contents := spec.contents.set id bytes }

def create (spec : Spec) (fd : Nat) (name : CString) : Spec :=
  { spec with
    contents := spec.contents ++ [[]]
    dir := Function.update spec.dir fd (some ⟨name, spec.contents.length⟩) }

def cursor (spec : Spec) (f : Option Nat) : Option (Nat × Cursor) :=
  f.bind fun h => (spec.streams h).map fun cursor => (h, cursor)

def setCursor (spec : Spec) (h : Nat) (cursor : Option Cursor) : Spec :=
  { spec with streams := Function.update spec.streams h cursor }

/-- The file of a name, which is emptied or made first when the mode asks for it. -/
def opening (spec : Spec) (creates : Bool) (name : CString) : Option (Nat × Spec) :=
  match spec.find name with
  | some fd =>
      some (fd,
        if creates then (spec.dir fd).elim spec fun entry => spec.setBytes entry.id [] else spec)
  | none => if creates then spec.free.map fun fd => (fd, spec.create fd name) else none

/-- `fdopen`, which fails for a file that exists only when there is no memory. -/
def opens (spec : Spec) (fd : Nat) (memory : Bool) : Option Nat → Option Spec
  | none => if (spec.dir fd).isSome ∧ memory then none else some spec
  | some h =>
      match spec.dir fd with
      | none => none
      | some entry =>
          if h = spec.opened then
            some { spec.setCursor h (some ⟨entry.id, 0⟩) with opened := spec.opened + 1 }
          else none

/-- The byte string with `bytes` written at `pos`, and zeros up to there. -/
def patch (pos : Nat) (bytes old : Bytes) : Bytes :=
  writeAt pos bytes (old ++ List.replicate (pos - old.length) 0)

def write (spec : Spec) (h : Nat) (cursor : Cursor) (bytes : Bytes) : Spec :=
  (spec.setBytes cursor.id (patch cursor.pos bytes (spec.bytes cursor.id))).setCursor h
    (some { cursor with pos := cursor.pos + bytes.length })

def readable (spec : Spec) (cursor : Cursor) (n : Nat) : Bytes :=
  ((spec.bytes cursor.id).drop cursor.pos).take n

def advance (spec : Spec) (h : Nat) (cursor : Cursor) (n : Nat) : Spec :=
  spec.setCursor h (some { cursor with pos := cursor.pos + n })

def Within (aim : Int) : Prop := 0 ≤ aim ∧ aim < 2 ^ 63

instance (aim : Int) : Decidable (Within aim) := inferInstanceAs (Decidable (_ ∧ _))

def target (spec : Spec) (cursor : Cursor) (offset : Int64) : Whence → Option Int
  | .set => some offset.toInt
  | .cur => some (cursor.pos + offset.toInt)
  | .end_ => some ((spec.bytes cursor.id).length + offset.toInt)
  | .other => none

/-- The state after a call with this result, or `none` when it may not have it; a write that
has a stream fails only where `realloc` does. -/
def after (spec : Spec) : Act → Result → Option Spec
  | .fopen path mode memory, .stream f =>
      match spec.opening (creates mode) path.text with
      | some (fd, spec) => spec.opens fd memory f
      | none => if f = none then some spec else none
  | .fdopen fd memory, .stream f =>
      if fd < 0 ∨ fd ≥ fwMaxOpen then if f = none then some spec else none
      else spec.opens fd.toNat memory f
  | .mkstemp _, .temp none => some spec
  | .mkstemp _, .temp (some (fd, name)) =>
      if fd < fwMaxOpen ∧ spec.dir fd = none ∧ spec.find name.text = none then
        some (spec.create fd name.text)
      else none
  | .fwrite chunk f alloc, .wrote count =>
      match spec.cursor f with
      | none => if count = 0 then some spec else none
      | some (h, cursor) =>
          if chunk.bytes = [] then some spec
          else if count = chunk.nmemb.toNat then some (spec.write h cursor chunk.bytes)
          else if count = 0 ∧ alloc.isNone then some spec
          else none
  | .fread sizes f, .read count bytes =>
      match spec.cursor f with
      | none => if count = 0 ∧ bytes = [] then some spec else none
      | some (h, cursor) =>
          if bytes = spec.readable cursor sizes.n ∧
              count = bytes.length / sizes.size.toNat then
            some (spec.advance h cursor bytes.length)
          else none
  | .fputc c f alloc, .int value =>
      match spec.cursor f with
      | none => if value = -1 then some spec else none
      | some (h, cursor) =>
          if value = (UInt8.ofInt c).toNat then some (spec.write h cursor [UInt8.ofInt c])
          else if value = -1 ∧ alloc.isNone then some spec
          else none
  | .fgetc f, .int value =>
      match spec.cursor f with
      | none => if value = -1 then some spec else none
      | some (h, cursor) =>
          match (spec.readable cursor 1).head? with
          | none => if value = -1 then some spec else none
          | some byte =>
              if value = byte.toNat then some (spec.advance h cursor 1) else none
  | .fseek f offset whence, .int value =>
      match spec.cursor f with
      | none => if value = -1 then some spec else none
      | some (h, cursor) =>
          match (spec.target cursor offset whence).filter fun aim => decide (Within aim) with
          | some aim =>
              if value = 0 then some (spec.setCursor h (some { cursor with pos := aim.toNat }))
              else none
          | none => if value = -1 then some spec else none
  | .ftell f, .int value =>
      match spec.cursor f with
      | none => if value = -1 then some spec else none
      | some (_, cursor) => if value = cursor.pos then some spec else none
  | .fclose f, .int value =>
      match spec.cursor f with
      | none => if value = -1 then some spec else none
      | some (h, _) => if value = 0 then some (spec.setCursor h none) else none
  | .unlink path, .int value =>
      match spec.find path.text with
      | none => if value = -1 then some spec else none
      | some fd =>
          if value = 0 then some { spec with dir := Function.update spec.dir fd none } else none
  | _, _ => none

def Allows : Spec → List (Act × Result) → Prop
  | _, [] => True
  | spec, (act, result) :: rest => ∃ next, spec.after act result = some next ∧ next.Allows rest

instance Allows.decidable : ∀ (spec : Spec) (history : List (Act × Result)),
    Decidable (spec.Allows history)
  | _, [] => isTrue trivial
  | spec, (act, result) :: rest =>
      match after : spec.after act result with
      | none => isFalse fun ⟨_, may, _⟩ => nomatch after.symm.trans may
      | some next =>
          match Allows.decidable next rest with
          | isTrue allows => isTrue ⟨next, after, allows⟩
          | isFalse refuses => isFalse fun ⟨_, may, allows⟩ =>
              refuses (Option.some.inj (after.symm.trans may) ▸ allows)

end Spec

def File.grownByte (file : File) (alloc : Alloc) (offset : Nat) : UInt8 :=
  file.kept (alloc.getD fun _ => 0) offset

/-- A write that is done ends below 2^63, is not an empty one past the end, and what
it skips is zero in the block. -/
def Writes (s : State) (f : Option Nat) (bytes : Bytes) (alloc : Alloc) : Prop :=
  ∀ h stream, s.stream f = some (h, stream) →
    stream.pos + bytes.length < 2 ^ 63 ∧
    (stream.pos + bytes.length ≤ (s.files stream.fd).cap ∨ alloc.isSome →
      (bytes = [] → stream.pos ≤ (s.files stream.fd).len) ∧
      ∀ offset, (s.files stream.fd).len ≤ offset → offset < stream.pos →
        (s.files stream.fd).grownByte alloc offset = 0)

def Keeps (s : State) : Act → Prop
  | .fwrite chunk f alloc => Writes s f chunk.bytes alloc
  | .fputc c f alloc => Writes s f [UInt8.ofInt c] alloc
  | .unlink path => ∀ fd, fwFileFind s path.text = some fd →
      ∀ h stream, s.streams h = some stream → stream.fd ≠ fd
  | _ => True

def File.byte (file : File) (offset : Nat) : UInt8 :=
  match file.data with
  | some block => block offset
  | none => 0

def File.contents (file : File) : Bytes := (List.range file.len).map file.byte

inductive Linked (dir : Nat → Option Entry) : Option Stream → Option Cursor → Prop
  | closed : Linked dir none none
  | live (fd pos : Nat) (entry : Entry) (there : dir fd = some entry)
      (small : pos < 2 ^ 63) : Linked dir (some ⟨fd, pos⟩) (some ⟨entry.id, pos⟩)

structure Refines (s : State) (spec : Spec) : Prop where
  dir : ∀ fd < fwMaxOpen, (spec.dir fd).map Entry.name =
    if (s.files fd).inUse then some (s.files fd).name else none
  beyond : ∀ fd, fwMaxOpen ≤ fd → spec.dir fd = none
  contents : ∀ fd entry, spec.dir fd = some entry →
    spec.contents[entry.id]? = some (s.files fd).contents
  apart : ∀ fd fd' entry entry', spec.dir fd = some entry → spec.dir fd' = some entry' →
    entry.id = entry'.id → fd = fd'
  lenLe : ∀ fd entry, spec.dir fd = some entry → (s.files fd).len ≤ (s.files fd).cap
  small : ∀ fd entry, spec.dir fd = some entry → (s.files fd).len < 2 ^ 63
  null : ∀ fd entry, spec.dir fd = some entry → (s.files fd).data = none →
    (s.files fd).cap = 0
  streams : ∀ h, Linked spec.dir (s.streams h) (spec.streams h)
  opened : spec.opened = s.opened

end Metal.Port.TempFile
