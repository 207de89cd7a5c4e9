import Metal.Lib.Latest
import Metal.Workspace.Archive

namespace Metal.Workspace

open Metal.Lib

/-! What goes into an archive, and what comes out of it. -/

def headerName (hdr : Bytes) : Bytes := (hdr.take 100).takeWhile (· ≠ 0)

def headerPrefix (hdr : Bytes) : Bytes := ((hdr.drop 345).take 155).takeWhile (· ≠ 0)

def headerPath (hdr : Bytes) : Bytes :=
  if headerPrefix hdr = [] then headerName hdr else headerPrefix hdr ++ 47 :: headerName hdr

def octal (digits : Bytes) : Nat := digits.foldl (fun v c => v * 8 + (c.toNat - 48)) 0

/-- A number in octal digits, with blanks before and blanks or NULs after them. -/
def OctalField (field : Bytes) (n : Nat) : Prop :=
  ∃ lead digits trail, field = lead ++ (digits ++ trail) ∧ (∀ c ∈ lead, c = 32) ∧
    (∀ c ∈ digits, 48 ≤ c ∧ c ≤ 55) ∧ (∀ c ∈ trail, c = 0 ∨ c = 32) ∧ octal digits = n

structure Member where
  header : Bytes
  data : Bytes
  pad : Bytes
  block : header.length = tarBlock
  named : header.getD 0 0 ≠ 0
  magic : (header.drop 257).take 6 = ascii "ustar" ++ [0]
  size : OctalField ((header.drop 124).take 12) data.length
  padded : data.length + pad.length = tarDataSpan data.length
  short : (headerPath header).length ≤ 180

namespace Member

def name (m : Member) : Bytes := headerName m.header

def path (m : Member) : Bytes := headerPath m.header

def regular (m : Member) : Bool :=
  m.header.getD 156 0 = 48 ∨ m.header.getD 156 0 = 0 ∨ m.header.getD 156 0 = 55

def blocks (m : Member) : Bytes := m.header ++ (m.data ++ m.pad)

def Fits (name : CString) (m : Member) : Prop :=
  (externalPath name m.name).length < pathMax + 64

instance (name : CString) (m : Member) : Decidable (m.Fits name) := Nat.decLt ..

def stored (name : CString) (m : Member) : Option (Bytes × Bytes) :=
  if m.regular ∧ m.data ≠ [] ∧ m.Fits name then some (externalPath name m.name, m.data)
  else none

end Member

structure Archive where
  members : List Member
  rest : Bytes

namespace Archive

def tar (a : Archive) : Bytes :=
  a.members.flatMap Member.blocks ++ (List.replicate (2 * tarBlock) 0 ++ a.rest)

def regular (a : Archive) : List Member := a.members.filter Member.regular

def stored (name : CString) (a : Archive) : Files := a.members.filterMap (Member.stored name)

end Archive

theorem tarNum_blank {blank : Bytes} (blanks : ∀ c ∈ blank, c = 0 ∨ c = 32) (v : Nat)
    (rest : Bytes) : tarNum v (blank ++ rest) = tarNum v rest := by
  induction blank with
  | nil => rfl
  | cons c blank ih =>
      rw [List.cons_append, tarNum, if_pos (blanks c List.mem_cons_self)]
      exact ih fun c member => blanks c (List.mem_cons_of_mem _ member)

theorem tarNum_digits {digits : Bytes} (octal : ∀ c ∈ digits, 48 ≤ c ∧ c ≤ 55) (v : Nat)
    (rest : Bytes) : tarNum v (digits ++ rest) =
      tarNum (digits.foldl (fun v c => v * 8 + (c.toNat - 48)) v) rest := by
  induction digits generalizing v with
  | nil => rfl
  | cons c digits ih =>
      obtain ⟨above, below⟩ := octal c List.mem_cons_self
      have above : 48 ≤ c.toNat := above
      have below : c.toNat ≤ 55 := below
      have blank : ¬(c = 0 ∨ c = 32) := by
        intro blank
        rcases blank with rfl | rfl
        · exact absurd above (by decide)
        · exact absurd above (by decide)
      have digit : ¬(c < 48 ∨ c > 55) := by
        rw [gt_iff_lt, UInt8.lt_iff_toNat_lt, UInt8.lt_iff_toNat_lt]
        simp only [UInt8.reduceToNat]
        omega
      rw [List.cons_append, tarNum, if_neg blank, if_neg digit, List.foldl_cons]
      exact ih (fun c member => octal c (List.mem_cons_of_mem _ member)) _

theorem OctalField.tarNum {field : Bytes} {n : Nat} (holds : OctalField field n) :
    tarNum 0 field = n := by
  obtain ⟨lead, digits, trail, rfl, leads, octals, trails, rfl⟩ := holds
  have last := tarNum_blank trails (digits.foldl (fun v c => v * 8 + (c.toNat - 48)) 0) []
  rw [List.append_nil] at last
  rw [tarNum_blank (fun c member => .inr (leads c member)), tarNum_digits octals, last]
  rfl

theorem take_tarMemberLen (hdr : Bytes) : hdr.take (tarMemberLen hdr) = headerName hdr := by
  have front : headerName hdr <+: hdr :=
    (List.takeWhile_prefix _).trans (List.take_prefix 100 hdr)
  exact (List.prefix_iff_eq_take.mp front).symm

namespace Member

variable (m : Member)

theorem header_cons : ∃ c rest, m.header = c :: rest ∧ c ≠ 0 := by
  have named := m.named
  cases header : m.header with
  | nil =>
      have block := m.block
      rw [header] at block
      cases block
  | cons c rest =>
      rw [header] at named
      exact ⟨c, rest, rfl, named⟩

theorem not_zero : tarBlockZero m.header = false := by
  obtain ⟨c, rest, header, nonzero⟩ := m.header_cons
  rw [header, tarBlockZero, List.all_cons, decide_eq_false nonzero, Bool.false_and]

theorem memberLen_ne_zero : tarMemberLen m.header ≠ 0 := by
  obtain ⟨c, rest, header, nonzero⟩ := m.header_cons
  simp [tarMemberLen, header, nonzero]

theorem skipped_iff : (m.header.getD 156 0 = 53 ∨ m.header.getD 156 0 = 76 ∨
    m.header.getD 156 0 = 75 ∨ m.header.getD 156 0 = 120 ∨ m.header.getD 156 0 = 103 ∨
    (m.header.getD 156 0 ≠ 48 ∧ m.header.getD 156 0 ≠ 0 ∧ m.header.getD 156 0 ≠ 55)) ↔
      ¬ m.regular = true := by
  rw [regular, decide_eq_true_iff]
  generalize m.header.getD 156 0 = typeflag
  constructor
  · intro left out
    rcases out with rfl | rfl | rfl <;> revert left <;> decide
  · intro other
    exact .inr (.inr (.inr (.inr (.inr ⟨fun is => other (.inl is),
      fun is => other (.inr (.inl is)), fun is => other (.inr (.inr is))⟩))))

theorem length_blocks : m.blocks.length = tarBlock + tarDataSpan m.data.length := by
  rw [blocks, List.length_append, List.length_append, m.block, m.padded]

def visit (name : CString) : Visit :=
  match m.stored name with
  | some (path, data) => .add path data (tarDataSpan m.data.length)
  | none => .skip (tarDataSpan m.data.length)

theorem visit_blocks (name : CString) (front rest : Bytes)
    (small : (front ++ (m.blocks ++ rest)).length < 2 ^ 31) :
    Workspace.visit name (front ++ (m.blocks ++ rest)) front.length = some (m.visit name) := by
  have header : slice (front ++ (m.blocks ++ rest)) front.length tarBlock = some m.header := by
    rw [blocks, List.append_assoc, ← m.block]
    exact slice_append front m.header _
  have length : (front ++ (m.blocks ++ rest)).length =
      front.length + (tarBlock + (m.data.length + m.pad.length) + rest.length) := by
    rw [List.length_append, List.length_append, length_blocks, m.padded]
  have data : slice (front ++ (m.blocks ++ rest)) (front.length + tarBlock)
      (m.data.length % 2 ^ 32) = some m.data := by
    have shape : front ++ (m.blocks ++ rest) =
        (front ++ m.header) ++ (m.data ++ (m.pad ++ rest)) := by
      simp only [blocks, List.append_assoc]
    have start : front.length + tarBlock = (front ++ m.header).length := by
      rw [List.length_append, m.block]
    rw [Nat.mod_eq_of_lt (by omega), shape, start]
    exact slice_append (front ++ m.header) m.data _
  have inside : ¬ front.length + tarBlock + m.data.length >
      (front ++ (m.blocks ++ rest)).length := by omega
  have kind := m.skipped_iff
  rw [Workspace.visit, header]
  simp only [m.not_zero, m.size.tarNum, take_tarMemberLen, m.memberLen_ne_zero, data, false_or,
    kind, if_neg inside, Bool.false_eq_true, if_false]
  rw [visit, stored]
  by_cases regular : m.regular = true
  · by_cases fits : m.Fits name
    · have room : ¬(externalPath name (headerName m.header)).length ≥ pathMax + 64 :=
        Nat.not_le_of_lt fits
      by_cases empty : m.data = []
      · simp [regular, room, empty]
      · have some_ := List.length_pos_iff.mpr empty
        simp [regular, room, empty, fits, some_, Member.name]
    · have over_ : (externalPath name (headerName m.header)).length ≥ pathMax + 64 :=
        Nat.le_of_not_lt fits
      simp [regular, over_, fits]
  · simp [regular]

end Member

variable {accepts : Files → Bytes → Bytes → Bool}

theorem visit_end (name : CString) (front rest : Bytes) :
    visit name (front ++ (List.replicate (2 * tarBlock) 0 ++ rest)) front.length =
      some .stop := by
  have shape : front ++ (List.replicate (2 * tarBlock) 0 ++ rest) =
      front ++ (List.replicate tarBlock 0 ++ (List.replicate tarBlock 0 ++ rest)) := by
    rw [Nat.two_mul, List.replicate_add, List.append_assoc]
  have block := slice_append front (List.replicate tarBlock 0)
    (List.replicate tarBlock 0 ++ rest)
  have zero : tarBlockZero (List.replicate tarBlock 0) = true := by
    rw [tarBlockZero, List.all_eq_true]
    intro c member
    exact decide_eq_true (List.eq_of_mem_replicate member)
  rw [List.length_replicate] at block
  rw [shape, visit, block]
  simp only [zero, if_true]

/-- The fields of a gzip header, with the flags that tell which there are. -/
structure Gzip where
  flg : UInt8
  fixed : Bytes
  extra : Option Bytes
  fname : Option CString
  comment : Option CString
  hcrc : Option (UInt8 × UInt8)
  crc : Bytes
  six : fixed.length = 6
  four : crc.length = 4
  extraFits : ∀ field ∈ extra, field.length < 2 ^ 16
  flgExtra : (flg &&& 0x04 ≠ 0) ↔ extra.isSome = true
  flgName : (flg &&& 0x08 ≠ 0) ↔ fname.isSome = true
  flgComment : (flg &&& 0x10 ≠ 0) ↔ comment.isSome = true
  flgHcrc : (flg &&& 0x02 ≠ 0) ↔ hcrc.isSome = true

namespace Gzip

def extraBytes (field : Bytes) : Bytes :=
  UInt8.ofNat (field.length % 256) :: UInt8.ofNat (field.length / 256) :: field

def stringBytes (s : CString) : Bytes := s.bytes ++ [0]

def hcrcBytes (hcrc : UInt8 × UInt8) : Bytes := [hcrc.1, hcrc.2]

def header (g : Gzip) : Bytes :=
  [0x1f, 0x8b, 0x08, g.flg] ++ (g.fixed ++ (g.extra.elim [] extraBytes ++
    (g.fname.elim [] stringBytes ++ (g.comment.elim [] stringBytes ++
      g.hcrc.elim [] hcrcBytes))))

def stream (g : Gzip) (deflated : Bytes) (isize : UInt32) : Bytes :=
  g.header ++ (deflated ++ (g.crc ++ leBytes32 isize))

theorem skipString_drop {gz rest : Bytes} {p : Nat} (s : CString)
    (at_ : gz.drop p = stringBytes s ++ rest) : gz.drop (skipString gz p) = rest := by
  have inside : ∀ byte ∈ s.bytes, decide (byte ≠ 0) = true := by
    intro byte member
    rw [decide_eq_true_iff]
    rintro rfl
    exact s.nulFree member
  have taken : (gz.drop p).takeWhile (· ≠ 0) = s.bytes := by
    rw [at_, stringBytes, List.append_assoc, List.takeWhile_append_of_pos inside,
      List.singleton_append, List.takeWhile_cons_of_neg (by simp), List.append_nil]
  rw [skipString, taken, Nat.add_assoc, ← List.drop_drop, at_, stringBytes]
  exact List.drop_left' (by rw [List.length_append, List.length_singleton])

theorem skipExtra_drop {gz rest field : Bytes} {p : Nat} (fits : field.length < 2 ^ 16)
    (at_ : gz.drop p = extraBytes field ++ rest) :
    ∃ next, skipExtra gz p = some next ∧ gz.drop next = rest := by
  have room : ¬ gz.length - p < 2 := by
    rw [← List.length_drop, at_, extraBytes, List.length_append, List.length_cons,
      List.length_cons]
    omega
  have byte (i : Nat) : gz.getD (p + i) 0 = (gz.drop p).getD i 0 := by
    rw [List.getD_eq_getElem?_getD, List.getD_eq_getElem?_getD, List.getElem?_drop]
  have low : (gz.getD p 0).toNat = field.length % 256 := by
    rw [← Nat.add_zero p, byte, at_]
    exact UInt8.toNat_ofNat_of_lt' (Nat.mod_lt _ (by decide))
  have high : (gz.getD (p + 1) 0).toNat = field.length / 256 := by
    rw [byte, at_]
    exact UInt8.toNat_ofNat_of_lt' (by simp only [UInt8.size]; omega)
  refine ⟨_, if_neg room, ?_⟩
  rw [low, high, ← List.drop_drop, at_]
  refine List.drop_left' ?_
  rw [extraBytes, List.length_cons, List.length_cons]
  omega

theorem skipString_if {gz rest : Bytes} {p : Nat} {flag : Prop} [Decidable flag]
    {s : Option CString} (told : flag ↔ s.isSome = true)
    (at_ : gz.drop p = s.elim [] stringBytes ++ rest) :
    gz.drop (if flag then skipString gz p else p) = rest := by
  cases s with
  | none =>
      rw [if_neg (fun flag => nomatch told.mp flag)]
      exact at_
  | some s =>
      rw [if_pos (told.mpr rfl)]
      exact skipString_drop s at_

theorem payload_stream (g : Gzip) (deflated : Bytes) (isize : UInt32) :
    gzDeflatePayload (g.stream deflated isize) =
      some (deflated ++ (g.crc ++ leBytes32 isize)) := by
  generalize tail : deflated ++ (g.crc ++ leBytes32 isize) = rest
  have eight : 8 ≤ rest.length := by
    rw [← tail, List.length_append, List.length_append, g.four, length_leBytes32]
    omega
  have shape : g.stream deflated isize =
      ([0x1f, 0x8b, 0x08, g.flg] ++ g.fixed) ++ (g.extra.elim [] extraBytes ++
        (g.fname.elim [] stringBytes ++ (g.comment.elim [] stringBytes ++
          (g.hcrc.elim [] hcrcBytes ++ rest)))) := by
    rw [stream, header, tail]
    simp only [List.append_assoc]
  have long : ¬(g.stream deflated isize).length < 18 := by
    rw [shape]
    simp only [List.length_append, List.length_cons, g.six]
    omega
  have magic : ¬((g.stream deflated isize).getD 0 0 ≠ 0x1f ∨
      (g.stream deflated isize).getD 1 0 ≠ 0x8b ∨
      (g.stream deflated isize).getD 2 0 ≠ 0x08) := by
    rw [shape]
    simp
  have flg : (g.stream deflated isize).getD 3 0 = g.flg := by
    rw [shape]
    rfl
  have start := congrArg (List.drop 10) shape
  rw [List.drop_left' (by rw [List.length_append, g.six]; rfl)] at start
  obtain ⟨p, extra, at_⟩ : ∃ p, (if g.flg &&& 0x04 ≠ 0 then
        skipExtra (g.stream deflated isize) 10 else some 10) = some p ∧
      (g.stream deflated isize).drop p = g.fname.elim [] stringBytes ++
        (g.comment.elim [] stringBytes ++
          (g.hcrc.elim [] hcrcBytes ++ rest)) := by
    have told := g.flgExtra
    cases field : g.extra with
    | none =>
        rw [field] at start told
        rw [if_neg (fun flag => nomatch told.mp flag)]
        exact ⟨10, rfl, start⟩
    | some bytes =>
        rw [field] at start told
        rw [if_pos (told.mpr rfl)]
        exact skipExtra_drop (g.extraFits bytes field) start
  have named := skipString_if g.flgName at_
  have commented := skipString_if g.flgComment named
  have crossed (q : Nat) (at_ : (g.stream deflated isize).drop q =
      g.hcrc.elim [] hcrcBytes ++ rest) :
      (g.stream deflated isize).drop (if g.flg &&& 0x02 ≠ 0 then q + 2 else q) = rest := by
    have told := g.flgHcrc
    cases field : g.hcrc with
    | none =>
        rw [field] at at_ told
        rw [if_neg (fun flag => nomatch told.mp flag)]
        exact at_
    | some bytes =>
        rw [field] at at_ told
        rw [if_pos (told.mpr rfl), ← List.drop_drop, at_]
        rfl
  have last := crossed _ commented
  rw [gzDeflatePayload, if_neg long, if_neg magic]
  simp only [flg, extra]
  rw [last, if_neg]
  intro past
  rw [List.drop_eq_nil_of_le past] at last
  rw [← last] at eight
  exact absurd eight (by decide)

theorem trailer_stream (g : Gzip) (deflated : Bytes) (isize : UInt32) :
    leU32 ((g.stream deflated isize).drop ((g.stream deflated isize).length - 4)) = isize := by
  have shape : g.stream deflated isize =
      (g.header ++ (deflated ++ g.crc)) ++ leBytes32 isize := by
    rw [stream]
    simp only [List.append_assoc]
  rw [shape, List.drop_left']
  · exact (congrArg leU32 (List.append_nil _).symm).trans (leU32_leBytes32 isize [])
  · simp only [List.length_append, length_leBytes32, Nat.add_sub_cancel]

end Gzip

/-- Every regular file can be read at its path, nothing else was written, and they are
counted. -/
structure Exact (name : CString) (a : Archive) (s : State) (result : Outcome × State) :
    Prop where
  count : result.1 = .ok a.regular.length
  readable : ∀ path data,
    lastWrite (a.regular.map fun m => (m.path, m.data)) path = some data →
      lastWrite result.2.files (externalPath name path) = some data
  only : ∃ new, result.2.files = s.files ++ new ∧
    ∀ write ∈ new, ∃ m ∈ a.regular, write.1 = externalPath name m.path

/-- No regular file is empty or has too long a path, and the prefix fields make no
difference to which bytes a path has. -/
def Plain (name : CString) (a : Archive) : Prop :=
  (∀ m ∈ a.regular, m.data ≠ [] ∧ m.Fits name) ∧
    ∀ path, lastWrite (a.regular.map fun m => (m.name, m.data)) path =
      lastWrite (a.regular.map fun m => (m.path, m.data)) path

theorem externalPath_injective (name : CString) : Function.Injective (externalPath name) := by
  intro first second same
  have same := List.append_cancel_left (List.append_cancel_left same)
  exact (List.cons.inj same).2

theorem Archive.stored_eq (name : CString) (a : Archive) :
    a.stored name = (a.regular.filter fun m => decide (m.data ≠ [] ∧ m.Fits name)).map
      fun m => (externalPath name m.name, m.data) := by
  rw [stored, regular, List.filter_filter]
  induction a.members with
  | nil => rfl
  | cons m members ih =>
      rw [List.filterMap_cons, List.filter_cons, ih]
      by_cases regular : m.regular = true <;>
        by_cases kept : m.data ≠ [] ∧ m.Fits name <;>
          simp [Member.stored, regular, kept]

variable {a : Archive}

theorem Archive.stored_all {name : CString} (all : ∀ m ∈ a.regular, m.data ≠ [] ∧ m.Fits name) :
    a.stored name = (a.regular.map fun m => (m.name, m.data)).map
      fun write => (externalPath name write.1, write.2) := by
  rw [stored_eq, List.filter_eq_self.mpr fun m member => decide_eq_true (all m member),
    List.map_map]
  rfl

theorem Gzip.stream_ne_nil (g : Gzip) (deflated : Bytes) (isize : UInt32) :
    g.stream deflated isize ≠ [] := by
  intro empty
  have payload := g.payload_stream deflated isize
  rw [empty] at payload
  cases payload

theorem Archive.length_tar (a : Archive) : 2 * tarBlock ≤ a.tar.length := by
  simp only [tar, List.length_append, List.length_replicate]
  omega

theorem Archive.isize (a : Archive) (small : a.tar.length < 2 ^ 31) :
    (UInt32.ofNat a.tar.length).toNat = a.tar.length ∧ UInt32.ofNat a.tar.length ≠ 0 := by
  have long := a.length_tar
  have block : tarBlock = 512 := rfl
  have whole : (UInt32.ofNat a.tar.length).toNat = a.tar.length := by
    rw [UInt32.toNat_ofNat', Nat.mod_eq_of_lt (by omega)]
  refine ⟨whole, fun zero => ?_⟩
  rw [zero, UInt32.toNat_zero] at whole
  omega

theorem Plain.exact {name : CString} (plain : Plain name a) (s : State) (count : UInt32) :
    Exact name a s (.ok (a.stored name).length, ⟨s.files ++ a.stored name, count⟩) := by
  obtain ⟨all, same⟩ := plain
  have stored := Archive.stored_all all
  refine ⟨?_, fun path data last => ?_, a.stored name, rfl, fun write member => ?_⟩
  · simp [stored]
  · refine lastWrite_append ?_
    rw [stored, lastWrite_map_key (externalPath_injective name), same, last]
  · rw [stored, List.map_map] at member
    obtain ⟨m, regular, rfl⟩ := List.mem_map.mp member
    -- a path that is written is that of some regular file
    obtain ⟨data, last⟩ := lastWrite_of_mem (List.mem_map.mpr ⟨m, regular, rfl⟩ :
      (m.name, m.data) ∈ a.regular.map fun m => (m.name, m.data))
    rw [same] at last
    obtain ⟨owner, regular', is⟩ := List.mem_map.mp (mem_of_lastWrite last)
    exact ⟨owner, regular', congrArg (externalPath name) (Prod.mk.inj is).1.symm⟩

def blockOf (name digits front : Bytes) : Bytes :=
  name ++ List.replicate (124 - name.length) 0 ++ digits ++
    List.replicate (32 - digits.length) 0 ++ [48] ++ List.replicate 100 0 ++ ascii "ustar" ++
      List.replicate 83 0 ++ front ++ List.replicate (167 - front.length) 0

theorem octalField_003 {field : Bytes} (is : field = ascii "003" ++ List.replicate 9 0) :
    OctalField field 3 :=
  ⟨[], ascii "003", List.replicate 9 0, is, by decide +kernel, by decide +kernel,
    by decide +kernel, by decide +kernel⟩

theorem padded_three : ([1, 2, 3] : Bytes).length + (List.replicate 509 (0 : UInt8)).length =
    tarDataSpan ([1, 2, 3] : Bytes).length := by
  decide +kernel

def plainFile : Member where
  header := blockOf (ascii "a.txt") (ascii "003") []
  data := [1, 2, 3]
  pad := List.replicate 509 0
  block := by decide +kernel
  named := by decide
  magic := by decide +kernel
  size := octalField_003 (by decide +kernel)
  padded := padded_three
  short := by decide +kernel

def ext : CString := ⟨ascii "ext", by decide⟩

def bareGzip : Gzip where
  flg := 0
  fixed := List.replicate 6 0
  extra := none
  fname := none
  comment := none
  hcrc := none
  crc := List.replicate 4 0
  six := rfl
  four := rfl
  extraFits := nofun
  flgExtra := by decide
  flgName := by decide
  flgComment := by decide
  flgHcrc := by decide

def inflateStored (stream : Bytes) (cap : Nat) : Option Bytes :=
  let len := (stream.getD 1 0).toNat + (stream.getD 2 0).toNat * 256
  if stream.getD 0 0 = 1 ∧ len ≤ cap ∧ 5 + len ≤ stream.length then
    some ((stream.drop 5).take len)
  else none

def stored2048 (bytes : Bytes) : Bytes := [1, 0, 8, 255, 247] ++ bytes

theorem inflateStored_stored2048 {bytes : Bytes} (size : bytes.length = 2048) (rest : Bytes)
    (cap : Nat) (room : bytes.length ≤ cap) :
    inflateStored (stored2048 bytes ++ rest) cap = some bytes := by
  have shape : stored2048 bytes ++ rest = [1, 0, 8, 255, 247] ++ (bytes ++ rest) :=
    List.append_assoc ..
  have len : ((stored2048 bytes ++ rest).getD 1 0).toNat +
      ((stored2048 bytes ++ rest).getD 2 0).toNat * 256 = bytes.length := by
    rw [size]
    change (0 : UInt8).toNat + (8 : UInt8).toNat * 256 = 2048
    decide
  have fits : 5 + bytes.length ≤ (stored2048 bytes ++ rest).length := by
    rw [shape, List.length_append]
    exact Nat.add_le_add_left (by rw [List.length_append]; exact Nat.le_add_right ..) 5
  have dropped : (stored2048 bytes ++ rest).drop 5 = bytes ++ rest := rfl
  simp only [inflateStored, len]
  rw [if_pos ⟨rfl, room, fits⟩, dropped, List.take_left]

end Metal.Workspace
