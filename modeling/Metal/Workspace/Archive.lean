import Metal.Lib.Memory
import Metal.Lib.Words

namespace Metal.Workspace

open Metal.Lib

/-! Extracting an external in `metal/workspace`: the gzip header, and the walk over the
blocks of the tar stream.  A `size_t` has 64 bits. -/

def tarBlock : Nat := 512

def pathMax : Nat := 384

/-- `while (p < end && *p != 0) p++; p++` -/
def skipString (gz : Bytes) (p : Nat) : Nat :=
  p + ((gz.drop p).takeWhile (· ≠ 0)).length + 1

def skipExtra (gz : Bytes) (p : Nat) : Option Nat :=
  if gz.length - p < 2 then none
  else some (p + (2 + ((gz.getD p 0).toNat + (gz.getD (p + 1) 0).toNat * 256)))

def gzDeflatePayload (gz : Bytes) : Option Bytes :=
  if gz.length < 18 then none
  else if gz.getD 0 0 ≠ 0x1f ∨ gz.getD 1 0 ≠ 0x8b ∨ gz.getD 2 0 ≠ 0x08 then none
  else
    let flg := gz.getD 3 0
    match if flg &&& 0x04 ≠ 0 then skipExtra gz 10 else some 10 with
    | none => none
    | some p =>
        let p := if flg &&& 0x08 ≠ 0 then skipString gz p else p
        let p := if flg &&& 0x10 ≠ 0 then skipString gz p else p
        let p := if flg &&& 0x02 ≠ 0 then p + 2 else p
        if p ≥ gz.length then none else some (gz.drop p)

/-- The octal number of a field, on top of `v`. -/
def tarNum : Nat → Bytes → Nat
  | v, [] => v
  | v, c :: rest =>
      if c = 0 ∨ c = 32 then tarNum v rest
      else if c < 48 ∨ c > 55 then v
      else tarNum (v * 8 + (c.toNat - 48)) rest

def tarBlockZero (block : Bytes) : Bool := block.all (· = 0)

def tarMemberLen (hdr : Bytes) : Nat := ((hdr.take 100).takeWhile (· ≠ 0)).length

def tarDataSpan (size : Nat) : Nat := (size + tarBlock - 1) / tarBlock * tarBlock

/-- `"/src/externals/%s/%.*s"` -/
def externalPath (name : CString) (member : Bytes) : Bytes :=
  ascii "/src/externals/" ++ (name.bytes ++ (47 :: member))

inductive Visit
  | stop
  | skip (span : Nat)
  | overrun
  | add (path data : Bytes) (span : Nat)

/-- The header at `off`; `none` when it reads past the inflated bytes. -/
def visit (name : CString) (tar : Bytes) (off : Nat) : Option Visit :=
  match slice tar off tarBlock with
  | none => none
  | some hdr =>
      let off := off + tarBlock
      if tarBlockZero hdr then some .stop
      else
        let memberLen := tarMemberLen hdr
        let size := tarNum 0 ((hdr.drop 124).take 12)
        let typeflag := hdr.getD 156 0
        if memberLen = 0 ∨ typeflag = 53 ∨ typeflag = 76 ∨ typeflag = 75 ∨ typeflag = 120 ∨
            typeflag = 103 ∨ (typeflag ≠ 48 ∧ typeflag ≠ 0 ∧ typeflag ≠ 55) then
          some (.skip (tarDataSpan size))
        else if off + size > tar.length then some .overrun
        else
          let path := externalPath name (hdr.take memberLen)
          if path.length ≥ pathMax + 64 then some (.skip (tarDataSpan size))
          else if size > 0 then
            match slice tar off (size % 2 ^ 32) with
            | none => none
            | some data => some (.add path data (tarDataSpan size))
          else some (.skip (tarDataSpan size))

/-- What was written to the fs, a path and its bytes each, oldest first. -/
abbrev Files := List (Bytes × Bytes)

/-- `*n_files` and 0, or the error's text and -1. -/
inductive Outcome
  | ok (count : Nat)
  | error (text : Bytes)
  deriving DecidableEq

/-- The walk from `off` on, over an fs that takes what `accepts` says. -/
def walk (accepts : Files → Bytes → Bytes → Bool) (name : CString) (tar : Bytes)
    (off count : Nat) (files : Files) : Option (Outcome × Files) :=
  if off + tarBlock ≤ tar.length then
    match visit name tar off with
    | none => none
    | some .stop => some (.ok count, files)
    | some (.skip span) => walk accepts name tar (off + tarBlock + span) count files
    | some .overrun => some (.error (ascii "extract: member overruns archive"), files)
    | some (.add path data span) =>
        if accepts files path data then
          walk accepts name tar (off + tarBlock + span) (count + 1) (files ++ [(path, data)])
        else some (.error (ascii "extract: fs refused " ++ path.take 180), files)
  else some (.ok count, files)
termination_by tar.length - off
decreasing_by all_goals simp only [tarBlock] at *; omega

structure State where
  files : Files
  count : UInt32

/-- `memory` is whether the arena has room; `inflate` gives what it inflated, in at most
so many bytes. -/
def extractExternal (inflate : Bytes → Nat → Option Bytes)
    (accepts : Files → Bytes → Bytes → Bool) (name : CString) (archive : Bytes)
    (memory : Bool) (s : State) : Option (Outcome × State) :=
  if archive = [] then some (.error (ascii "extract: bad args"), s)
  else
    match gzDeflatePayload archive with
    | none => some (.error (ascii "extract: not a gzip stream"), s)
    | some deflate =>
        let isize := leU32 (archive.drop (archive.length - 4))
        if isize = 0 then some (.error (ascii "extract: empty archive"), s)
        else if !memory then some (.error (ascii "extract: arena exhausted"), s)
        else
          match inflate deflate isize.toNat with
          | none => some (.error (ascii "extract: inflate failed"), s)
          | some tar =>
              if tar.length < 2 * tarBlock then
                some (.error (ascii "extract: inflate failed"), s)
              else
                match walk accepts name tar 0 0 s.files with
                | none => none
                | some (.error text, files) => some (.error text, { s with files })
                | some (.ok count, files) =>
                    some (.ok count, { files, count := s.count + UInt32.ofNat count })

end Metal.Workspace
