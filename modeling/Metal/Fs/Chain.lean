import Metal.Fs.Entry
import Metal.Fs.Import

namespace Metal.Fs

open Metal.Lib

/-! Reading a file along its cluster chain. -/

def Vol.clusBytes (v : Vol) : Nat := v.spc.toNat * fatSec

def Vol.clusters (v : Vol) : Nat := (v.tot.toNat - v.firstData.toNat) / v.spc.toNat

def Vol.secOf (v : Vol) (clus : Nat) : Nat := v.firstData.toNat + (clus - 2) * v.spc.toNat

def secData (disk : Disk) (lba : Nat) : Bytes :=
  match disk lba with
  | some sec => sec.bytes
  | none => []

def secsData (disk : Disk) (lba n : Nat) : Bytes :=
  (List.range' lba n).flatMap (secData disk)

def clusData (disk : Disk) (v : Vol) (clus : Nat) : Bytes :=
  secsData disk (v.secOf clus) v.spc.toNat

structure InRange (v : Vol) (clus : Nat) : Prop where
  two_le : 2 ≤ clus
  below : clus < v.bits.eoc.toNat
  inside : clus - 2 < v.clusters

inductive Follows (disk : Disk) (v : Vol) : Nat → List Nat → Prop
  | done {clus : Nat} (last : v.bits.eoc.toNat ≤ clus) : Follows disk v clus []
  | next {clus : Nat} {chain : List Nat} (more : Follows disk v (entryAt disk v clus) chain) :
      Follows disk v clus (clus :: chain)

structure WellFormed (disk : Disk) (v : Vol) (start : Nat) (chain : List Nat) : Prop where
  follows : Follows disk v start chain
  distinct : chain.Nodup
  inRange : ∀ clus ∈ chain, InRange v clus
  entries : ∀ clus ∈ chain, EntryReads disk v clus
  sectors : ∀ clus ∈ chain, ∀ i, i < v.spc.toNat → (disk (v.secOf clus + i)).isSome

variable {disk : Disk} {v : Vol}

theorem length_secData {lba : Nat} (reads : (disk lba).isSome) :
    (secData disk lba).length = fatSec := by
  obtain ⟨sec, reads⟩ := Option.isSome_iff_exists.mp reads
  rw [secData, reads, sec.length_eq]

theorem length_secsData {lba n : Nat} (reads : ∀ i, i < n → (disk (lba + i)).isSome) :
    (secsData disk lba n).length = n * fatSec := by
  induction n generalizing lba with
  | zero => rw [secsData, Nat.zero_mul]; rfl
  | succ n ih =>
      have rest := ih fun i inside => by
        rw [Nat.add_assoc, Nat.add_comm 1 i]
        exact reads (i + 1) (by omega)
      have first : (disk lba).isSome := reads 0 (Nat.succ_pos n)
      rw [secsData] at rest ⊢
      rw [List.range'_succ, List.flatMap_cons, List.length_append, rest, length_secData first,
        Nat.succ_mul, Nat.add_comm]

variable {start : Nat}

theorem length_clusData {chain : List Nat} (formed : WellFormed disk v start chain) {clus : Nat}
    (member : clus ∈ chain) : (clusData disk v clus).length = v.clusBytes :=
  length_secsData (formed.sectors clus member)

variable {want : Nat}

theorem append_take_take {out first rest : Bytes} :
    out ++ first.take (want - out.length) ++
        rest.take (want - (out ++ first.take (want - out.length)).length) =
      out ++ (first ++ rest).take (want - out.length) := by
  rw [List.take_append, List.append_assoc, List.length_append, List.length_take]
  congr 3
  omega

theorem readSecs_eq (lba : UInt32) {left : Nat} {i : UInt32} {out : Bytes}
    (fits : lba.toNat + i.toNat + left < 2 ^ 32)
    (reads : ∀ k, k < left → (disk (lba.toNat + i.toNat + k)).isSome) :
    readSecs disk lba want left i out =
      some (out ++ (secsData disk (lba.toNat + i.toNat) left).take (want - out.length)) := by
  induction left generalizing i out with
  | zero =>
      change some out = some (out ++ List.take _ [])
      rw [List.take_nil, List.append_nil]
  | succ left ih =>
      rw [readSecs]
      split
      case isTrue room =>
        have here : (lba + i).toNat = lba.toNat + i.toNat := by
          rw [UInt32.toNat_add, Nat.mod_eq_of_lt (by omega)]
        have after : (i + 1).toNat = i.toNat + 1 := by
          rw [UInt32.toNat_add]
          change (i.toNat + 1) % 2 ^ 32 = _
          rw [Nat.mod_eq_of_lt (by omega)]
        obtain ⟨sec, read⟩ := Option.isSome_iff_exists.mp (reads 0 (Nat.succ_pos left))
        rw [Nat.add_zero] at read
        have whole : sec.bytes.take (min (want - out.length) fatSec) =
            sec.bytes.take (want - out.length) := by
          rw [← sec.length_eq, ← List.take_take, List.take_length]
        rw [here, read]
        dsimp only
        rw [whole, ih (by omega) fun k inside => by
            have found := reads (k + 1) (by omega)
            rw [after]
            rwa [show lba.toNat + (i.toNat + 1) + k = lba.toNat + i.toNat + (k + 1) by omega],
          append_take_take, after, secsData, secsData, List.range'_succ, List.flatMap_cons,
          secData, read, Nat.add_assoc]
      case isFalse full =>
        rw [Nat.sub_eq_zero_of_le (Nat.le_of_not_lt full), List.take_zero, List.append_nil]

theorem secOf_add_le {clus : Nat} (inRange : InRange v clus) :
    v.secOf clus + v.spc.toNat ≤ v.tot.toNat := by
  have inside := inRange.inside
  rw [Vol.clusters, Nat.lt_iff_add_one_le, Nat.le_div_iff_mul_le v.spc_pos, Nat.add_mul] at inside
  have := v.data_lt
  rw [Vol.secOf]
  omega

theorem toNat_clusLba {clus : UInt32} (inRange : InRange v clus.toNat) :
    (clusLba v.firstData v.spc clus).toNat = v.secOf clus.toNat := by
  have bound := secOf_add_le inRange
  have tot := v.tot.toNat_lt
  have back : (clus - 2).toNat = clus.toNat - 2 := UInt32.toNat_sub_of_le clus 2 inRange.two_le
  rw [Vol.secOf] at bound ⊢
  rw [clusLba, UInt32.toNat_add, UInt32.toNat_mul, back, Nat.add_mod_mod,
    Nat.mod_eq_of_lt (by omega)]

theorem readSecs_clus {chain : List Nat} (formed : WellFormed disk v start chain) {clus : UInt32}
    (member : clus.toNat ∈ chain) (want : Nat) (out : Bytes) :
    readSecs disk (clusLba v.firstData v.spc clus) want v.spc.toNat 0 out =
      some (out ++ (clusData disk v clus.toNat).take (want - out.length)) := by
  have inRange := formed.inRange _ member
  have lba := toNat_clusLba inRange
  have bound := secOf_add_le inRange
  have tot := v.tot.toNat_lt
  have start : (clusLba v.firstData v.spc clus).toNat + (0 : UInt32).toNat =
      v.secOf clus.toNat := lba
  rw [readSecs_eq _ (by rw [start]; omega) (by rw [start]; exact formed.sectors _ member), start]
  rfl

theorem WellFormed.tail {clus : Nat} {chain : List Nat}
    (formed : WellFormed disk v clus (clus :: chain)) :
    WellFormed disk v (entryAt disk v clus) chain := by
  refine ⟨?_, formed.distinct.of_cons, ?_, ?_, ?_⟩
  · cases formed.follows with
    | next more => exact more
  · exact fun other member => formed.inRange other (List.mem_cons_of_mem clus member)
  · exact fun other member => formed.entries other (List.mem_cons_of_mem clus member)
  · exact fun other member => formed.sectors other (List.mem_cons_of_mem clus member)

theorem WellFormed.start_pos {chain : List Nat} (formed : WellFormed disk v start chain) :
    0 < start := by
  cases formed.follows with
  | done last => exact Nat.lt_of_lt_of_le (by cases v.bits <;> decide) last
  | next more => exact Nat.lt_of_lt_of_le Nat.two_pos (formed.inRange _ List.mem_cons_self).two_le

theorem readClusters_eq {chain : List Nat} {clus : UInt32}
    (formed : WellFormed disk v clus.toNat chain) {left : Nat} {out : Bytes} :
    readClusters disk v want left clus out =
      .ok (some (out ++ ((chain.take left).flatMap (clusData disk v)).take
        (want - out.length))) := by
  induction left generalizing clus chain out with
  | zero =>
      rw [List.take_zero, List.flatMap_nil, List.take_nil, List.append_nil]
      rfl
  | succ left ih =>
      rw [readClusters]
      cases follows : formed.follows with
      | done last =>
          have stops : ¬ (2 ≤ clus ∧ clus < v.bits.eoc ∧ out.length < want) := fun all =>
            Nat.not_lt.mpr last (UInt32.lt_iff_toNat_lt.mp all.2.1)
          rw [if_neg stops, List.take_nil, List.flatMap_nil, List.take_nil, List.append_nil]
      | next more =>
          rename_i rest
          have member : clus.toNat ∈ clus.toNat :: rest := List.mem_cons_self
          have inRange := formed.inRange _ member
          have small : clus < v.bits.eoc := UInt32.lt_iff_toNat_lt.mpr inRange.below
          obtain ⟨next, found, value⟩ := fatEntry_eq small (formed.entries _ member)
          have tail := formed.tail
          rw [← value] at tail
          have nonzero : next ≠ 0 := by
            rintro rfl
            exact Nat.lt_irrefl 0 tail.start_pos
          split
          case isTrue =>
            rw [readSecs_clus formed member, found]
            dsimp only [bind, Except.bind]
            rw [if_neg nonzero, ih tail, append_take_take, List.take_succ_cons,
              List.flatMap_cons]
          case isFalse stops =>
            have full : ¬ out.length < want := fun room => stops ⟨inRange.two_le, small, room⟩
            rw [Nat.sub_eq_zero_of_le (Nat.le_of_not_lt full), List.take_zero, List.append_nil]

theorem toNat_clusBytes (v : Vol) : (v.spc * 512).toNat = v.clusBytes := by
  have := v.spc_le
  rw [UInt32.toNat_mul]
  change v.spc.toNat * 512 % 2 ^ 32 = v.spc.toNat * 512
  exact Nat.mod_eq_of_lt (by omega)

theorem clusBytes_pos (v : Vol) : 0 < v.clusBytes := Nat.mul_pos v.spc_pos (by decide)

theorem clusBytes_le (v : Vol) : v.clusBytes ≤ 2 ^ 15 := Nat.mul_le_mul_right fatSec v.spc_le

/-- How many clusters the loop looks at. The sum in front of the division wraps for
the largest sizes: then it is one. -/
theorem need_spec (v : Vol) (size : UInt32) :
    ∃ need, div (size + v.spc * 512 - 1) (v.spc * 512) = .ok need ∧
      (size.toNat + v.clusBytes ≤ 2 ^ 32 →
        size.toNat ≤ (if need = 0 then 1 else need).toNat * v.clusBytes) ∧
      (2 ^ 32 < size.toNat + v.clusBytes → (if need = 0 then (1 : UInt32) else need).toNat = 1) := by
  have bytes := toNat_clusBytes v
  have pos := clusBytes_pos v
  have small := clusBytes_le v
  have bound := size.toNat_lt
  have nonzero : v.spc * 512 ≠ 0 := by
    intro zero
    rw [zero] at bytes
    exact Nat.ne_of_lt pos bytes
  have sum : (size + v.spc * 512 - 1).toNat = (size.toNat + v.clusBytes - 1) % 2 ^ 32 := by
    rw [UInt32.toNat_sub, UInt32.toNat_add, bytes]
    change (2 ^ 32 - 1 + (size.toNat + v.clusBytes) % 2 ^ 32) % 2 ^ 32 = _
    omega
  have quotient : ((size + v.spc * 512 - 1) / (v.spc * 512)).toNat =
      (size.toNat + v.clusBytes - 1) % 2 ^ 32 / v.clusBytes := by
    rw [UInt32.toNat_div, sum, bytes]
  refine ⟨_, if_neg nonzero, fun fits => ?_, fun wraps => ?_⟩
  · rw [Nat.mod_eq_of_lt (by omega)] at quotient
    split
    case isTrue zero =>
      rw [zero] at quotient
      have := (Nat.div_eq_zero_iff_lt pos).mp quotient.symm
      have one : (1 : UInt32).toNat = 1 := rfl
      rw [one]
      omega
    case isFalse =>
      have enough := Nat.lt_mul_div_succ (size.toNat + v.clusBytes - 1) pos
      rw [Nat.mul_add, Nat.mul_one] at enough
      rw [quotient, Nat.mul_comm]
      omega
  · have rest : (size.toNat + v.clusBytes - 1) % 2 ^ 32 = size.toNat + v.clusBytes - 1 - 2 ^ 32 := by
      omega
    rw [rest, Nat.div_eq_of_lt (by omega)] at quotient
    rw [if_pos (UInt32.toNat_inj.mp quotient)]
    rfl

theorem length_clusters {chain : List Nat} (formed : WellFormed disk v start chain) (n : Nat) :
    ((chain.take n).flatMap (clusData disk v)).length =
      min n chain.length * v.clusBytes := by
  have each : ∀ clus ∈ chain.take n, (clusData disk v clus).length = v.clusBytes := fun clus member =>
    length_clusData formed (List.mem_of_mem_take member)
  rw [List.length_flatMap, List.map_congr_left each, List.map_const',
    List.sum_replicate_nat, List.length_take]

def contents (disk : Disk) (v : Vol) (chain : List Nat) : Bytes := chain.flatMap (clusData disk v)

theorem take_contents {chain : List Nat} (formed : WellFormed disk v start chain) {n : Nat}
    (enough : want ≤ min n chain.length * v.clusBytes) :
    ((chain.take n).flatMap (clusData disk v)).take want = (contents disk v chain).take want := by
  have split_ : contents disk v chain =
      (chain.take n).flatMap (clusData disk v) ++ (chain.drop n).flatMap (clusData disk v) := by
    rw [contents, ← List.flatMap_append, List.take_append_drop]
  rw [split_, List.take_append_of_le_length (by rw [length_clusters formed]; exact enough)]

theorem readFile_eq {start size : UInt32} {chain : List Nat}
    (formed : WellFormed disk v start.toNat chain) (nonempty : chain ≠ []) (cap : UInt32) :
    ∃ n, 0 < n ∧ (size.toNat + v.clusBytes ≤ 2 ^ 32 → size.toNat ≤ n * v.clusBytes) ∧
      (2 ^ 32 < size.toNat + v.clusBytes → n = 1) ∧
      readFile disk v start size cap = .ok (some
        (((chain.take n).flatMap (clusData disk v)).take (min size.toNat cap.toNat))) := by
  obtain ⟨need, division, fits, wraps⟩ := need_spec v size
  have need_pos : 0 < (if need = 0 then 1 else need).toNat := by
    split
    case isTrue => exact Nat.one_pos
    case isFalse nonzero => exact Nat.pos_of_ne_zero fun zero => nonzero (UInt32.toNat_inj.mp zero)
  refine ⟨_, need_pos, fits, wraps, ?_⟩
  obtain ⟨clus, rest, rfl⟩ := List.exists_cons_of_ne_nil nonempty
  have first : clus = start.toNat := by
    cases formed.follows
    rfl
  have two_le := (formed.inRange clus List.mem_cons_self).two_le
  have proper : ¬ (start < 2 ∨ v.spc = 0) := by
    rintro (low | zero)
    · rw [first] at two_le
      exact Nat.not_lt.mpr two_le (UInt32.lt_iff_toNat_lt.mp low)
    · have := v.spc_pos
      rw [zero] at this
      exact Nat.lt_irrefl 0 this
  have want : (if cap < size then cap else size).toNat = min size.toNat cap.toNat := by
    simp only [UInt32.lt_iff_toNat_lt]
    split <;> omega
  rw [readFile, if_neg proper]
  dsimp only
  revert want
  generalize (if cap < size then cap else size) = wanted
  intro want
  split
  case isTrue zero =>
    rw [← want, zero]
    rfl
  case isFalse some_ =>
    have want_pos : 0 < min size.toNat cap.toNat := by
      rw [← want]
      exact Nat.pos_of_ne_zero fun zero => some_ (UInt32.toNat_inj.mp zero)
    have bytes := clusBytes_pos v
    rw [division]
    dsimp only [bind, Except.bind]
    rw [readClusters_eq formed, want, List.nil_append, List.length_nil, Nat.sub_zero]
    dsimp only [pure, Except.pure, Option.bind]
    rw [if_pos]
    rw [List.length_take, length_clusters formed, List.length_cons]
    exact Nat.lt_min.mpr ⟨want_pos, Nat.mul_pos (Nat.lt_min.mpr ⟨need_pos, Nat.succ_pos _⟩) bytes⟩

/-- What a read should give: the file's bytes, up to the caller's capacity. -/
def ReadsWell (disks : Int → Disk) (ents : List Ent) (path : CString) (e : Ent)
    (chain : List Nat) (cap : UInt32) : Prop :=
  fatRead disks ents path cap =
    .ok (some ((contents (disks e.vol.blk) e.vol chain).take (min e.size.toNat cap.toNat)))

section Read

variable {disks : Int → Disk} {ents : List Ent} {path : CString} {e : Ent} {chain : List Nat}
  (found : findEnt path ents = some e) (file : e.isDir = false)
  (formed : WellFormed (disks e.vol.blk) e.vol e.clus.toNat chain)
  (enough : e.size.toNat ≤ chain.length * e.vol.clusBytes) (cap : UInt32)

include found file formed enough

theorem fatRead_eq (positive : 0 < e.size.toNat) :
    ∃ n, 0 < n ∧ 0 < chain.length ∧
      (e.size.toNat + e.vol.clusBytes ≤ 2 ^ 32 → e.size.toNat ≤ n * e.vol.clusBytes) ∧
      (2 ^ 32 < e.size.toNat + e.vol.clusBytes → n = 1) ∧
      fatRead disks ents path cap = .ok (some
        (((chain.take n).flatMap (clusData (disks e.vol.blk) e.vol)).take
          (min e.size.toNat cap.toNat))) := by
  have nonempty : chain ≠ [] := by
    rintro rfl
    rw [List.length_nil, Nat.zero_mul] at enough
    omega
  have nonzero : e.size ≠ 0 := by
    intro zero
    rw [zero] at positive
    exact Nat.lt_irrefl 0 positive
  obtain ⟨n, n_pos, fits, wraps, read⟩ := readFile_eq formed nonempty cap
  refine ⟨n, n_pos, List.length_pos_iff.mpr nonempty, fits, wraps, ?_⟩
  rw [fatRead, found]
  dsimp only
  rw [if_neg (by rw [file]; decide), if_neg nonzero, read]

theorem readsWell_of (short : e.size.toNat + e.vol.clusBytes ≤ 2 ^ 32 ∨
    min e.size.toNat cap.toNat ≤ e.vol.clusBytes) : ReadsWell disks ents path e chain cap := by
  rcases Nat.eq_zero_or_pos e.size.toNat with zero | positive
  · have empty : e.size = 0 := UInt32.toNat_inj.mp zero
    rw [ReadsWell, zero, Nat.zero_min, List.take_zero, fatRead, found]
    dsimp only
    rw [if_neg (by rw [file]; decide), if_pos empty]
  · obtain ⟨n, n_pos, some_, fits, -, read⟩ := fatRead_eq found file formed enough cap positive
    rw [ReadsWell, read, take_contents formed]
    rw [← Nat.mul_min_mul_right]
    refine Nat.le_min.mpr ⟨?_, Nat.le_trans (Nat.min_le_left _ _) enough⟩
    rcases short with fit | short
    · exact Nat.le_trans (Nat.min_le_left _ _) (fits fit)
    · exact Nat.le_trans short (Nat.le_mul_of_pos_left _ n_pos)

theorem not_readsWell (wraps : 2 ^ 32 < e.size.toNat + e.vol.clusBytes)
    (long : e.vol.clusBytes < min e.size.toNat cap.toNat) :
    ¬ ReadsWell disks ents path e chain cap := by
  intro well
  obtain ⟨n, -, some_, -, one, read⟩ := fatRead_eq found file formed enough cap (by omega)
  obtain rfl := one wraps
  rw [ReadsWell, read, Except.ok.injEq, Option.some.injEq] at well
  have lengths := congrArg List.length well
  have all := length_clusters formed chain.length
  rw [List.take_length, Nat.min_self] at all
  rw [List.length_take, length_clusters formed, List.length_take, contents, all,
    Nat.min_eq_left (show 1 ≤ chain.length from some_), Nat.one_mul,
    Nat.min_eq_left (Nat.le_trans (Nat.min_le_left _ _) enough)] at lengths
  omega

/-- A file is read in full, up to the caller's capacity, exactly where its size does
not wrap the count of its clusters, or one cluster is enough. -/
theorem readsWell_iff : ReadsWell disks ents path e chain cap ↔
    e.size.toNat + e.vol.clusBytes ≤ 2 ^ 32 ∨
      min e.size.toNat cap.toNat ≤ e.vol.clusBytes := by
  refine ⟨fun well => ?_, readsWell_of found file formed enough cap⟩
  by_contra long
  rw [not_or, Nat.not_le, Nat.not_le] at long
  exact not_readsWell found file formed enough cap long.1 long.2 well

end Read

/-! A volume with one file of 2^32 - 1 bytes, in clusters of 64 sectors. -/

def Sector.of (byte : Nat → UInt8) : Sector :=
  ⟨(List.range fatSec).map byte, by rw [List.length_map, List.length_range]⟩

theorem Sector.getD_of (byte : Nat → UInt8) {i : Nat} (inside : i < fatSec) :
    (Sector.of byte).bytes.getD i 0 = byte i := by
  rw [of, List.getD_eq_getElem?_getD, List.getElem?_map, List.getElem?_range inside]
  rfl

/-- Each cluster is followed by the next, up to the last of the file; behind it is the
one of the directory. -/
def nextOf (clus : Nat) : Nat := if clus < 131073 then clus + 1 else 0x0fffffff

def tableByte (k : Nat) : UInt8 := UInt8.ofNat (nextOf (k / 4) / 2 ^ (8 * (k % 4)))

def bigBoot : List (Nat × UInt8) :=
  [(12, 2), (13, 64), (14, 1), (16, 1), (32, 0x42), (33, 4), (34, 0x80), (36, 1), (37, 4),
    (44, 2), (46, 2), (510, 0x55), (511, 0xaa)]

def bigDir : List (Nat × UInt8) :=
  [(0, 66), (1, 32), (8, 32), (26, 2), (28, 255), (29, 255), (30, 255), (31, 255)]

def bigDisk : Disk := fun lba =>
  if lba = 0 then some (.of fun i => (bigBoot.lookup i).getD 0)
  else if lba = 8389634 then some (.of fun i => (bigDir.lookup i).getD 0)
  else some (.of fun i => tableByte ((lba - 1) * fatSec + i))

def bigVol : Vol :=
  ⟨0, 1, .fat32, 1026, 64, 8389698, by decide, by decide, by decide, by decide⟩

def bigEnt : Ent := ⟨bigVol, ⟨ascii "/esp/B", by decide⟩, 2, 0xffffffff, false⟩

theorem importBlk_big : importBlk (fun _ => true) (fun _ => bigDisk) true 252 0 ⟨true, []⟩ =
    .ok (1, ⟨true, [bigEnt]⟩) := by
  decide +kernel

theorem bigDisk_isSome (lba : Nat) : (bigDisk lba).isSome := by
  rw [bigDisk]
  split
  · rfl
  · split <;> rfl

theorem fatByte_big {k : Nat} (small : k < 2 ^ 30) : fatByte bigDisk 1 k = tableByte k := by
  have table : bigDisk (1 + k / fatSec) =
      some (.of fun i => tableByte ((1 + k / fatSec - 1) * fatSec + i)) := by
    have sector : k / fatSec < 2 ^ 21 := Nat.div_lt_of_lt_mul small
    generalize k / fatSec = n at sector
    have later : 1 + n ≠ 0 := Nat.ne_of_gt (Nat.add_pos_left Nat.one_pos n)
    have before : 1 + n ≠ 8389634 := by omega
    rw [bigDisk, if_neg later, if_neg before]
  rw [fatByte_eq table, Sector.getD_of _ (Nat.mod_lt k (by decide)), Nat.add_sub_cancel_left,
    Nat.div_add_mod']

theorem entryAt_big {clus : Nat} (small : clus < 2 ^ 20) :
    entryAt bigDisk bigVol clus = nextOf clus := by
  have start : 32 * clus = 8 * (4 * clus) + 0 := by omega
  have bound : nextOf clus < 2 ^ 28 := by
    rw [nextOf]
    split <;> omega
  have byte (j : Nat) (inside : j < 4) :
      (fatByte bigDisk 1 (4 * clus + j)).toNat = nextOf clus / 2 ^ (8 * j) % 256 := by
    have place : (4 * clus + j) / 4 = clus ∧ (4 * clus + j) % 4 = j := by omega
    rw [fatByte_big (by omega), tableByte, place.1, place.2]
    exact UInt8.toNat_ofNat'
  have first := byte 0 (by decide)
  rw [Nat.add_zero] at first
  change bitsAt (fatByte bigDisk 1) (32 * clus) 28 = _
  rw [start, bitsAt_eq _ _ (show 0 + 28 ≤ 8 * 4 by decide), Nat.shiftRight_zero, littleAt_four,
    byte 3 (by decide), byte 2 (by decide), byte 1 (by decide), first]
  omega

def bigChain : List Nat := List.range' 2 131072

theorem follows_big {n clus : Nat} (last : clus + n = 131073) :
    Follows bigDisk bigVol clus (List.range' clus (n + 1)) := by
  induction n generalizing clus with
  | zero =>
      refine .next (.done ?_)
      rw [entryAt_big (by omega), nextOf, if_neg (by omega)]
      decide
  | succ n ih =>
      rw [List.range'_succ]
      refine .next ?_
      rw [entryAt_big (by omega), nextOf, if_pos (by omega)]
      exact ih (by omega)

theorem wellFormed_big : WellFormed bigDisk bigVol 2 bigChain where
  follows := follows_big (n := 131071) rfl
  distinct := List.nodup_range'
  inRange clus member := by
    have bounds := List.mem_range'_1.mp member
    have clusters : bigVol.clusters = 131073 := by decide
    refine ⟨bounds.1, ?_, ?_⟩
    · change clus < 0x0ffffff8
      omega
    · rw [clusters]
      omega
  entries _ _ _ _ := bigDisk_isSome _
  sectors _ _ _ _ := bigDisk_isSome _

theorem enough_big : bigEnt.size.toNat ≤ bigChain.length * bigEnt.vol.clusBytes := by
  rw [bigChain, List.length_range']
  decide

theorem readsWell_iff_big :
    ReadsWell (fun _ => bigDisk) [bigEnt] bigEnt.path bigEnt bigChain 512 :=
  (readsWell_iff (by decide) rfl wellFormed_big enough_big 512).mpr (.inr (by decide))

/-- A reader with room for 40000 bytes gets one cluster. -/
theorem readsWell_fails :
    ¬ ∀ (serves : Nat → Bool) (disks : Int → Disk) (blk : Int) (before after : Entries)
        (count : Int) (path : CString) (e : Ent) (chain : List Nat) (cap : UInt32),
      importBlk serves disks true 252 blk before = .ok (count, after) →
        findEnt path after.ents = some e → e.isDir = false →
          WellFormed (disks e.vol.blk) e.vol e.clus.toNat chain →
            e.size.toNat ≤ chain.length * e.vol.clusBytes →
              ReadsWell disks after.ents path e chain cap := by
  intro all
  have well := all (fun _ => true) (fun _ => bigDisk) 0 ⟨true, []⟩ _ _ bigEnt.path bigEnt bigChain
    40000 importBlk_big (by decide) rfl wellFormed_big enough_big
  exact not_readsWell (by decide) rfl wellFormed_big enough_big 40000 (by decide) (by decide) well

end Metal.Fs
