import Metal.Lib.CString
import Mathlib.Data.List.DropRight

namespace Metal.Port.TempFile

open Metal.Lib

/-! The temp FILE layer of `port/lib.c`: a table of growable files, and streams that
hold an index into it.  What `malloc` and `realloc` answer comes from outside. -/

def fwMaxOpen : Nat := 12

/-- `sizeof(f->name)` -/
def nameSize : Nat := 64

structure Name where
  text : CString
  short : text.length < nameSize

/-- `data` is `NULL` or a block of `cap` bytes, told by their offset. -/
structure File where
  name : CString
  data : Option (Nat → UInt8)
  len : Nat
  cap : Nat
  inUse : Bool

structure Stream where
  fd : Nat
  pos : Nat

/-- A `FILE *` is the number of its stream; `opened` of them were made. -/
structure State where
  files : Nat → File
  seq : UInt32
  streams : Nat → Option Stream
  opened : Nat

def State.boot : State where
  files _ := ⟨CString.empty, none, 0, 0, false⟩
  seq := 0
  streams _ := none
  opened := 0

abbrev Alloc := Option (Nat → UInt8)

/-- The bytes of `data` as far as it goes, and then those of the memory after it. -/
def File.kept (file : File) (fresh : Nat → UInt8) (offset : Nat) : UInt8 :=
  match file.data with
  | some block => if offset < file.cap then block offset else fresh offset
  | none => fresh offset

/-- `while (ncap < need) ncap *= 2`; from 0 it does not end. -/
def doubleCap : Nat → Nat → Nat → Option Nat
  | 0, _, _ => none
  | fuel + 1, need, ncap =>
      if ncap < need then doubleCap fuel need (ncap * 2 % 2 ^ 64) else some ncap

/-- `none` when it does not end, `some none` for -1. -/
def fwFileGrow (need : Nat) (alloc : Alloc) (file : File) : Option (Option File) :=
  if need ≤ file.cap then some (some file)
  else
    match doubleCap 65 need (if file.cap = 0 then 512 else file.cap) with
    | none => none
    | some ncap =>
        match alloc with
        | none => some none
        | some fresh => some (some { file with data := some (file.kept fresh), cap := ncap })

/-- `memcpy(t->data + pos, ptr, n)`; `none` outside the block. -/
def File.store (pos : Nat) (bytes : Bytes) (file : File) : Option File :=
  if bytes = [] then some file
  else
    match file.data with
    | none => none
    | some block =>
        if pos + bytes.length ≤ file.cap then
          some { file with
            data := some fun offset =>
              if pos ≤ offset ∧ offset < pos + bytes.length then bytes.getD (offset - pos) 0
              else block offset }
        else none

/-- `memcpy(ptr, t->data + pos, n)`; `none` outside the block. -/
def File.load (pos n : Nat) (file : File) : Option Bytes :=
  if n = 0 then some []
  else
    match file.data with
    | none => none
    | some block =>
        if pos + n ≤ file.cap then some ((List.range n).map fun offset => block (pos + offset))
        else none

def State.setFile (s : State) (fd : Nat) (file : File) : State :=
  { s with files := Function.update s.files fd file }

def fwFileFind (s : State) (name : CString) : Option Nat :=
  (List.range fwMaxOpen).find? fun i => (s.files i).inUse && decide ((s.files i).name = name)

def fwFileSlot (s : State) : Option (Nat × State) :=
  match (List.range fwMaxOpen).find? fun i => !(s.files i).inUse with
  | none => none
  | some i => some (i, s.setFile i ⟨CString.empty, none, 0, 0, true⟩)

def State.setName (s : State) (fd : Nat) (name : CString) : State :=
  s.setFile fd { s.files fd with name := name.strncpy (nameSize - 1) }

/-- `open`, with `O_CREAT` or without. -/
def open_ (creates : Bool) (path : Name) (s : State) : Option (Nat × State) :=
  if creates then
    match fwFileFind s path.text with
    | some fd => some (fd, (s.setFile fd { s.files fd with len := 0 }).setName fd path.text)
    | none =>
        match fwFileSlot s with
        | none => none
        | some (fd, s) => some (fd, s.setName fd path.text)
  else (fwFileFind s path.text).map fun fd => (fd, s)

def unlink (path : Name) (s : State) : Int × State :=
  match fwFileFind s path.text with
  | none => (-1, s)
  | some fd => (0, s.setFile fd { s.files fd with data := none, inUse := false })

/-- The prefix of a template before its last `X`s. -/
def stem (template : Name) : Bytes := template.text.bytes.rdropWhile (· = 88)

def mintChars : Nat → UInt32 → Bytes
  | 0, _ => []
  | k + 1, try_ => UInt8.ofNat (65 + try_.toNat % 26) :: mintChars k (try_ / 26 + 7)

theorem length_mintChars (k : Nat) (try_ : UInt32) : (mintChars k try_).length = k := by
  induction k generalizing try_ with
  | zero => rfl
  | succ k ih => exact congrArg (· + 1) (ih _)

theorem nul_notMem_mintChars (k : Nat) (try_ : UInt32) : (0 : UInt8) ∉ mintChars k try_ := by
  induction k generalizing try_ with
  | zero => exact List.not_mem_nil
  | succ k ih =>
      intro member
      rcases List.mem_cons.mp member with head | tail
      · have small := Nat.mod_lt try_.toNat (show 26 > 0 by decide)
        have same := congrArg UInt8.toNat head
        rw [UInt8.toNat_ofNat', Nat.mod_eq_of_lt (by omega)] at same
        rw [UInt8.toNat_zero] at same
        omega
      · exact ih _ tail

theorem length_stem_lt (template : Name) : (stem template).length < nameSize :=
  Nat.lt_of_le_of_lt (List.rdropWhile_prefix _ ..).length_le template.short

def mint (template : Name) (try_ : UInt32) : Name where
  text :=
    { bytes := stem template ++
        mintChars (min 6 (nameSize - 1 - (stem template).length)) try_
      nulFree := fun member => by
        rcases List.mem_append.mp member with front | back
        · exact template.text.nulFree ((List.rdropWhile_prefix _ ..).subset front)
        · exact nul_notMem_mintChars _ _ back }
  short := by
    have := length_stem_lt template
    have bound : nameSize = 64 := rfl
    rw [CString.length, List.length_append, length_mintChars]
    omega

def triesLeft (seq : UInt32) : Nat :=
  if seq + 1 = 0 then 1000002 else 1000001 - seq.toNat

theorem triesLeft_succ_lt {seq : UInt32} (more : ¬ seq + 1 > 1000000) :
    triesLeft (seq + 1) < triesLeft seq := by
  have small : (seq + 1).toNat ≤ 1000000 := Nat.le_of_not_lt more
  have next : (seq + 1) + 1 ≠ 0 := by
    intro wraps
    have same := congrArg UInt32.toNat wraps
    rw [UInt32.toNat_add, UInt32.toNat_one, Nat.mod_eq_of_lt (by omega)] at same
    cases same
  rw [triesLeft, triesLeft, if_neg next]
  split
  · omega
  · rename_i stays
    have bound := seq.toNat_lt
    have apart : seq.toNat + 1 ≠ 2 ^ 32 := by
      intro last
      refine stays (UInt32.toNat_inj.mp ?_)
      rw [UInt32.toNat_add, UInt32.toNat_one, last]
      rfl
    have value : (seq + 1).toNat = seq.toNat + 1 := by
      rw [UInt32.toNat_add, UInt32.toNat_one, Nat.mod_eq_of_lt (by omega)]
    omega

def mintFresh (s : State) (template : Name) (seq : UInt32) : Option Name × UInt32 :=
  if fwFileFind s (mint template seq).text = none then (some (mint template seq), seq + 1)
  else if seq + 1 > 1000000 then (none, seq + 1)
  else mintFresh s template (seq + 1)
termination_by triesLeft seq
decreasing_by exact triesLeft_succ_lt ‹_›

def mkstemp (template : Name) (s : State) : Option (Nat × Name) × State :=
  let (name, seq) := mintFresh s template s.seq
  let s := { s with seq }
  match name with
  | none => (none, s)
  | some name =>
      match fwFileSlot s with
      | none => (none, s)
      | some (fd, s) => (some (fd, name), s.setName fd name.text)

/-- The stream of a `FILE *`; one that is closed counts as `NULL`. -/
def State.stream (s : State) (f : Option Nat) : Option (Nat × Stream) :=
  f.bind fun h => (s.streams h).map fun stream => (h, stream)

def State.setStream (s : State) (h : Nat) (stream : Option Stream) : State :=
  { s with streams := Function.update s.streams h stream }

def fdopen (fd : Int) (memory : Bool) (s : State) : Option Nat × State :=
  if fd < 0 ∨ fd ≥ fwMaxOpen ∨ !(s.files fd.toNat).inUse then (none, s)
  else if memory then
    (some s.opened,
      { s.setStream s.opened (some ⟨fd.toNat, 0⟩) with opened := s.opened + 1 })
  else (none, s)

/-- `mode != NULL && mode[0] == 'w'` -/
def creates (mode : Option CString) : Bool :=
  mode.any fun mode => mode.bytes.head? = some 119

def fopen (path : Name) (mode : Option CString) (memory : Bool) (s : State) :
    Option Nat × State :=
  match open_ (creates mode) path s with
  | none => (none, s)
  | some (fd, s) => fdopen fd memory s

def fclose (f : Option Nat) (s : State) : Int × State :=
  match s.stream f with
  | none => (-1, s)
  | some (h, _) => (0, s.setStream h none)

/-- `size` and `nmemb`, whose product fits `size_t`. -/
structure Sizes where
  size : UInt64
  nmemb : UInt64
  fits : size.toNat * nmemb.toNat < 2 ^ 64

def Sizes.n (sizes : Sizes) : Nat := sizes.size.toNat * sizes.nmemb.toNat

def Sizes.one : Sizes := ⟨1, 1, by decide⟩

/-- What `ptr`, `size` and `nmemb` of a write point out. -/
structure Chunk extends Sizes where
  bytes : Bytes
  whole : bytes.length = toSizes.n

def Chunk.byte (byte : UInt8) : Chunk := ⟨.one, [byte], rfl⟩

/-- `none` when it writes outside the file's block or does not end. -/
def fwrite (chunk : Chunk) (f : Option Nat) (alloc : Alloc) (s : State) :
    Option (Nat × State) :=
  match s.stream f with
  | none => some (0, s)
  | some (h, stream) =>
      if stream.fd ≥ fwMaxOpen then some (0, s)
      else
        match fwFileGrow ((stream.pos + chunk.n) % 2 ^ 64) alloc (s.files stream.fd) with
        | none => none
        | some none => some (0, s)
        | some (some file) =>
            match file.store stream.pos chunk.bytes with
            | none => none
            | some file =>
                let pos := stream.pos + chunk.n
                if pos ≥ 2 ^ 63 then none
                else
                  let file := if pos > file.len then { file with len := pos } else file
                  some (chunk.nmemb.toNat,
                    (s.setFile stream.fd file).setStream h (some { stream with pos }))

/-- The count, and what was stored through `ptr`. -/
def fread (sizes : Sizes) (f : Option Nat) (s : State) : Option (Nat × Bytes × State) :=
  match s.stream f with
  | none => some (0, [], s)
  | some (h, stream) =>
      if stream.fd ≥ fwMaxOpen then some (0, [], s)
      else
        let file := s.files stream.fd
        if stream.pos ≥ file.len then some (0, [], s)
        else
          let avail := file.len - stream.pos
          let n := if sizes.n > avail then avail else sizes.n
          match file.load stream.pos n with
          | none => none
          | some bytes =>
              some (if sizes.size = 0 then 0 else n / sizes.size.toNat, bytes,
                s.setStream h (some { stream with pos := stream.pos + n }))

def fputc (c : Int) (f : Option Nat) (alloc : Alloc) (s : State) : Option (Int × State) :=
  let byte := UInt8.ofInt c
  (fwrite (.byte byte) f alloc s).map fun (count, s) =>
    (if count = 1 then (byte.toNat : Int) else -1, s)

def fgetc (f : Option Nat) (s : State) : Option (Int × State) :=
  (fread .one f s).map fun (count, bytes, s) =>
    (if count = 1 then ((bytes.headD 0).toNat : Int) else -1, s)

def ftell (f : Option Nat) (s : State) : Int :=
  match s.stream f with
  | none => -1
  | some (_, stream) => stream.pos

inductive Whence
  | set
  | cur
  | end_
  | other

/-- A sum of two `long`s. -/
def wrapLong (sum : Int) : Int := sum.bmod (2 ^ 64)

def fseek (f : Option Nat) (offset : Int64) (whence : Whence) (s : State) : Int × State :=
  match s.stream f with
  | none => (-1, s)
  | some (h, stream) =>
      if stream.fd ≥ fwMaxOpen then (-1, s)
      else
        let npos : Option Int :=
          match whence with
          | .set => some offset.toInt
          | .cur => some (wrapLong (stream.pos + offset.toInt))
          | .end_ => some (wrapLong ((s.files stream.fd).len + offset.toInt))
          | .other => none
        match npos with
        | none => (-1, s)
        | some npos =>
            if npos < 0 then (-1, s)
            else (0, s.setStream h (some { stream with pos := npos.toNat }))

inductive Act
  | fopen (path : Name) (mode : Option CString) (memory : Bool)
  | fdopen (fd : Int) (memory : Bool)
  | mkstemp (template : Name)
  | fwrite (chunk : Chunk) (f : Option Nat) (alloc : Alloc)
  | fread (sizes : Sizes) (f : Option Nat)
  | fputc (c : Int) (f : Option Nat) (alloc : Alloc)
  | fgetc (f : Option Nat)
  | fseek (f : Option Nat) (offset : Int64) (whence : Whence)
  | ftell (f : Option Nat)
  | fclose (f : Option Nat)
  | unlink (path : Name)

inductive Result
  | stream (f : Option Nat)
  | temp (made : Option (Nat × Name))
  | wrote (count : Nat)
  | read (count : Nat) (bytes : Bytes)
  | int (value : Int)
  | undefined

/-- The state after a call that did not go outside its memory, and what it returned. -/
def settle {α : Type} (s : State) (result : α → Result) : Option (α × State) → Result × State
  | none => (.undefined, s)
  | some (value, s) => (result value, s)

def call (s : State) : Act → Result × State
  | .fopen path mode memory => settle s .stream (some (fopen path mode memory s))
  | .fdopen fd memory => settle s .stream (some (fdopen fd memory s))
  | .mkstemp template => settle s .temp (some (mkstemp template s))
  | .fwrite chunk f alloc => settle s .wrote (fwrite chunk f alloc s)
  | .fread sizes f =>
      settle s (fun (count, bytes) => .read count bytes)
        ((fread sizes f s).map fun (count, bytes, s) => ((count, bytes), s))
  | .fputc c f alloc => settle s .int (fputc c f alloc s)
  | .fgetc f => settle s .int (fgetc f s)
  | .fseek f offset whence => settle s .int (some (fseek f offset whence s))
  | .ftell f => (.int (ftell f s), s)
  | .fclose f => settle s .int (some (fclose f s))
  | .unlink path => settle s .int (some (unlink path s))

def step (s : State) (act : Act) : State := (call s act).2

def history : State → List Act → List (Act × Result)
  | _, [] => []
  | s, act :: rest => (act, (call s act).1) :: history (step s act) rest

end Metal.Port.TempFile
