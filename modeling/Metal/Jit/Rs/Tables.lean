import Metal.Lib.CString
import Metal.Lib.Probe
import Metal.Lib.Slots

namespace Metal.Jit.Rs

open Metal.Lib

/-! The symbol tables of the Rust compiler: structs with their fields and functions with the
types of their parameters, in arrays that are probed by a hash of the name. Parallel arrays are
one list of rows here; memory for the copies is always granted. -/

def symCap : Nat := 512

def fpc : Nat := 192

def fnMaxp : Nat := 8

/-- The hash of the first 64 bytes, in a `usize` of `bits` bits. -/
def hashName (bits : Nat) (name : Bytes) : Nat :=
  (name.take 64).foldl (fun h c => (h * 33 % 2 ^ bits + c.toNat) % 2 ^ bits) 5381

structure SymHead where
  name : Bytes
  used : Bool
  fieldCount : Nat

/-- The name and the C type of a field; field `i` of slot `s` is at `s * fpc + i`. -/
structure SymTab where
  heads : List SymHead
  fields : List (Bytes × Bytes)

def SymTab.new : SymTab where
  heads := List.replicate symCap ⟨[], false, 0⟩
  fields := List.replicate (symCap * fpc) ([], [])

def SymTab.keys (t : SymTab) (s : Nat) : Option Bytes :=
  t.heads[s]?.bind fun head => if head.used then some head.name else none

def SymTab.slot (bits : Nat) (t : SymTab) (name : Bytes) : Nat :=
  slotOf t.keys symCap (hashName bits) name

def SymTab.add (bits : Nat) (name : Bytes) (t : SymTab) : Nat × SymTab :=
  let s := t.slot bits name
  if symCap ≤ s then (s, t)
  else (s, { t with heads := t.heads.set s ⟨name, true, 0⟩ })

/-- `none` where an array is indexed outside. -/
def SymTab.addField (s : Nat) (fname ct : Bytes) (t : SymTab) : Option SymTab :=
  match t.heads[s]? with
  | none => none
  | some head =>
      if symCap ≤ s ∨ fpc ≤ head.fieldCount ∨ fname.length = 0 ∨ ct.length = 0 then some t
      else
        let dst := s * fpc + head.fieldCount
        if dst < t.fields.length then
          some
            { heads := t.heads.set s { head with fieldCount := head.fieldCount + 1 }
              fields := t.fields.set dst (fname, ct) }
        else none

def SymTab.find (bits : Nat) (name : Bytes) (t : SymTab) : Nat :=
  let s := t.slot bits name
  if s < symCap ∧ (t.heads[s]?.map SymHead.used).getD false then s else symCap

/-- The loop of `field_ctype`; the name that is searched is a string. -/
def searchField (fields : List (Bytes × Bytes)) (fname : CString) : Nat → Nat → Option Bytes
  | 0, _ => some []
  | left + 1, d =>
      match fields[d]? with
      | none => none
      | some (name, ct) =>
          if name.length = fname.length ∧ name = fname.bytes then some ct
          else searchField fields fname left (d + 1)

def SymTab.fieldCtype (s : Nat) (fname : CString) (t : SymTab) : Option Bytes :=
  match t.heads[s]? with
  | none => none
  | some head => searchField t.fields fname head.fieldCount (s * fpc)

def SymTab.count (s : Nat) (t : SymTab) : Option Nat :=
  if symCap ≤ s then some 0 else t.heads[s]?.map SymHead.fieldCount

/-- The name and the type of a field, where the type fits into `cap` bytes. -/
def SymTab.fieldByIndex (s idx cap : Nat) (t : SymTab) : Option (Option (Bytes × Bytes)) :=
  if symCap ≤ s then some none
  else
    match t.heads[s]? with
    | none => none
    | some head =>
        if head.fieldCount ≤ idx then some none
        else
          match t.fields[s * fpc + idx]? with
          | none => none
          | some (name, ct) =>
              if ct.length = 0 ∨ cap ≤ ct.length then some none else some (some (name, ct))

/-- The name is not copied; it stays as it is while the table is in use. -/
structure FnRow where
  name : Bytes
  used : Bool
  ret : Bytes

/-- Parameter `p` of slot `s` is at `s * fnMaxp + p`; a type without bytes is not known. -/
structure FnTab where
  rows : List FnRow
  params : List Bytes

def FnTab.new : FnTab where
  rows := List.replicate symCap ⟨[], false, []⟩
  params := List.replicate (symCap * fnMaxp) []

def FnTab.keys (t : FnTab) (s : Nat) : Option Bytes :=
  t.rows[s]?.bind fun row => if row.used then some row.name else none

def FnTab.slot (bits : Nat) (t : FnTab) (name : Bytes) : Nat :=
  slotOf t.keys symCap (hashName bits) name

def span (ct : Option CString) : Bytes := (ct.map CString.bytes).getD []

/-- `n` elements from `at_` on replaced. -/
def cleared (params : List Bytes) (at_ n : Nat) : List Bytes :=
  params.take at_ ++ List.replicate n [] ++ params.drop (at_ + n)

def FnTab.add (bits : Nat) (name : Bytes) (ret : Option CString) (t : FnTab) :
    Option (Nat × FnTab) :=
  let s := t.slot bits name
  if symCap ≤ s then some (s, t)
  else if s < t.rows.length ∧ s * fnMaxp + fnMaxp ≤ t.params.length then
    some (s,
      { rows := t.rows.set s ⟨name, true, span ret⟩
        params := cleared t.params (s * fnMaxp) fnMaxp })
  else none

def FnTab.addParam (s p : Nat) (ct : Option CString) (t : FnTab) : Option FnTab :=
  if symCap ≤ s ∨ fnMaxp ≤ p ∨ span ct = [] then some t
  else if s * fnMaxp + p < t.params.length then
    some { t with params := t.params.set (s * fnMaxp + p) (span ct) }
  else none

def FnTab.paramCtype (bits : Nat) (name : Bytes) (p : Nat) (t : FnTab) : Option Bytes :=
  if fnMaxp ≤ p then some []
  else
    let s := t.slot bits name
    if s < symCap then
      match t.rows[s]? with
      | none => none
      | some row =>
          if row.used ∧ row.name.length = name.length then t.params[s * fnMaxp + p]? else some []
    else some []

def FnTab.retCtype (bits : Nat) (name : Bytes) (t : FnTab) : Option Bytes :=
  let s := t.slot bits name
  if s < symCap then
    match t.rows[s]? with
    | none => none
    | some row =>
        if row.used ∧ row.name.length = name.length then some row.ret else some []
  else some []

end Metal.Jit.Rs
