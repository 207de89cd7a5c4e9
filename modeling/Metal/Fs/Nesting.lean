import Metal.Lib.Returns
import Metal.Fs.Entry
import Metal.Fs.Import

namespace Metal.Fs

open Metal.Lib

/-! An import comes to its end, whatever the sectors hold: a directory's path is longer
than the one of the directory above it, and no path fills its buffer. -/

variable {sec : Sector} {e i : Nat}

theorem Sector.byte_returns (inside : i < fatSec) : Returns (fun _ => True) (sec.byte i) :=
  ⟨_, sec.byte_eq inside, trivial⟩

theorem Sector.le16_returns (inside : i + 1 < fatSec) : Returns (fun _ => True) (sec.le16 i) :=
  ⟨_, sec.le16_eq inside, trivial⟩

theorem Sector.le32_returns (inside : i + 3 < fatSec) : Returns (fun _ => True) (sec.le32 i) :=
  ⟨_, sec.le32_eq inside, trivial⟩

theorem lfnUnits_returns {places : List Nat} (inside : ∀ pos ∈ places, e + pos + 1 < fatSec)
    (at_ : Nat) (ucs : List UInt16) :
    Returns (fun _ => True) (lfnUnits sec e places at_ ucs) := by
  induction places generalizing at_ ucs with
  | nil => exact .ok trivial
  | cons pos places ih =>
      have rest := fun other member => inside other (List.mem_cons_of_mem pos member)
      rw [lfnUnits]
      split
      · exact (Sector.le16_returns (inside pos List.mem_cons_self)).bind fun _ _ =>
          ih rest _ _
      · exact .ok trivial

theorem lfnSlot_returns (inside : e + 31 < fatSec) (ucs : List UInt16) :
    Returns (fun _ => True) (lfnSlot sec e ucs) := by
  refine (Sector.byte_returns (by omega)).bind fun first _ => ?_
  dsimp only
  split
  · exact .ok trivial
  · refine lfnUnits_returns (fun pos member => ?_) _ ucs
    have last : ∀ pos ∈ lfnPos, pos ≤ 30 := by decide
    have := last pos member
    omega

theorem nameField_returns {left : Nat} (inside : i + left ≤ fatSec) :
    Returns (fun _ => True) (nameField sec i left) := by
  induction left generalizing i with
  | zero => exact .ok trivial
  | succ left ih =>
      refine (Sector.byte_returns (by omega)).bind fun c _ => ?_
      split
      · exact .ok trivial
      · exact (ih (by omega)).bind fun _ _ => .ok trivial

theorem name83_returns (inside : e + 31 < fatSec) : Returns (fun _ => True) (name83 sec e) := by
  refine (nameField_returns (by omega)).bind fun base _ => ?_
  refine (Sector.byte_returns (by omega)).bind fun c _ => ?_
  split
  · exact .ok trivial
  · exact (nameField_returns (by omega)).bind fun _ _ => .ok trivial

theorem entClus_returns (bits : FatBits) (inside : e + 31 < fatSec) :
    Returns (fun _ => True) (entClus bits sec e) := by
  refine (Sector.le16_returns (by omega)).bind fun low _ => ?_
  split
  · exact (Sector.le16_returns (by omega)).bind fun _ _ => .ok trivial
  · exact .ok trivial

theorem entLeaf_returns (inside : e + 31 < fatSec) (l : Lfn) :
    Returns (fun _ => True) (entLeaf sec e l) := by
  rw [entLeaf]
  split
  · exact .ok trivial
  · exact name83_returns inside

/-- The paths below a directory: longer than its own, and within the buffer. -/
def Below (pre path : CString) : Prop := pre.length < path.length ∧ path.length < fatPathMax

theorem length_joinFront {dir : CString} (fits : dir.length < fatPathMax) {front : Bytes}
    (joined : joinFront dir = some front) : dir.length ≤ front.length := by
  have whole : dir.bytes.take (fatPathMax - 1) = dir.bytes :=
    List.take_of_length_le (Nat.le_sub_one_of_lt fits)
  rw [joinFront, whole] at joined
  split at joined
  case isTrue =>
    obtain rfl := Option.some.inj joined
    exact Nat.le_refl _
  case isFalse =>
    split at joined
    case isTrue => cases joined
    case isFalse =>
      obtain rfl := Option.some.inj joined
      rw [List.length_append]
      exact Nat.le_add_right _ _

theorem below_joinPath {dir leaf path : CString} (fits : dir.length < fatPathMax)
    (joined : joinPath dir leaf = some path) : Below dir path := by
  rw [joinPath] at joined
  split at joined
  case isTrue => nomatch joined
  case isFalse named =>
    split at joined
    case h_1 => nomatch joined
    case h_2 front found =>
      split at joined
      case isFalse => nomatch joined
      case isTrue room =>
        have longer := length_joinFront fits found
        have leaf_pos : 0 < leaf.length := List.length_pos_iff.mpr named
        obtain rfl := Option.some.inj joined
        have length : (front ++ leaf.bytes).length = front.length + leaf.length :=
          List.length_append
        constructor
        · change dir.length < (front ++ leaf.bytes).length
          omega
        · change (front ++ leaf.bytes).length < fatPathMax
          omega

def DirEnt.Descends (pre : CString) (ent : DirEnt) : Prop :=
  ∀ path clus, ent = .dir path clus → Below pre path

theorem namedEnt_descends {pre path : CString} (below : Below pre path) (attr : UInt8)
    (clus size : UInt32) : (namedEnt path attr clus size).Descends pre := by
  intro other next is
  rw [namedEnt] at is
  split at is
  · split at is
    · nomatch is
    · obtain ⟨rfl, -⟩ := DirEnt.dir.inj is
      exact below
  · split at is <;> nomatch is

theorem readEnt_returns (bits : FatBits) {pre : CString} (fits : pre.length < fatPathMax)
    (inside : e + 31 < fatSec) (l : Lfn) :
    Returns (DirEnt.Descends pre) (readEnt bits sec e pre l) := by
  have easy {ent : DirEnt} (none_ : ∀ path clus, ent ≠ .dir path clus) :
      Returns (DirEnt.Descends pre) (.ok ent : Except Fault DirEnt) :=
    .ok fun path clus is => absurd is (none_ path clus)
  refine (Sector.byte_returns (by omega)).bind fun first _ => ?_
  split
  · exact easy nofun
  split
  · exact easy nofun
  refine (Sector.byte_returns (by omega)).bind fun attr _ => ?_
  split
  · exact (lfnSlot_returns inside _).bind fun _ _ => easy nofun
  split
  · exact easy nofun
  refine (Sector.le32_returns (by omega)).bind fun size _ => ?_
  refine (entClus_returns bits inside).bind fun clus _ => ?_
  refine (entLeaf_returns inside l).bind fun leaf _ => ?_
  split
  · exact easy nofun
  · split
    case h_1 => exact easy nofun
    case h_2 path joined => exact .ok (namedEnt_descends (below_joinPath fits joined) _ _ _)

section Walk

variable {serves : Nat → Bool} {disk : Disk} {descend descend' : Descend} {v : Vol} {pre : CString}
  (fits : pre.length < fatPathMax)
  (same : ∀ clus path w, Below pre path → Agree (descend clus path w) (descend' clus path w))

include fits same

theorem takeEnt_agree (inside : e + 31 < fatSec) (l : Lfn) (w : Walk) :
    Agree (takeEnt serves descend v sec e pre l w) (takeEnt serves descend' v sec e pre l w) := by
  refine (readEnt_returns v.bits fits inside l).bind_agree fun ent descends => ?_
  cases ent with
  | last | skip | slot ucs | file path clus size => exact .ok _
  | dir path clus =>
      exact (same clus path _ (descends path clus rfl)).bind fun _ => .ok _

theorem walkDirSec_agree {left : Nat} (inside : i + 32 * left ≤ fatSec) (l : Lfn) (w : Walk) :
    Agree (walkDirSec serves descend v sec pre left i l w)
      (walkDirSec serves descend' v sec pre left i l w) := by
  induction left generalizing i l w with
  | zero => exact .ok _
  | succ left ih =>
      refine (takeEnt_agree fits same (by omega) l w).bind fun taken => ?_
      obtain ⟨st, l, w⟩ := taken
      dsimp only
      split
      · exact .ok _
      · exact ih (by omega) l w

theorem walkSecs_agree (lba : UInt32) (left : Nat) (i : UInt32) (l : Lfn) (w : Walk) :
    Agree (walkSecs serves disk descend v pre lba left i l w)
      (walkSecs serves disk descend' v pre lba left i l w) := by
  induction left generalizing i l w with
  | zero => exact .ok _
  | succ left ih =>
      rw [walkSecs, walkSecs]
      cases disk (lba + i).toNat with
      | none => exact .ok _
      | some sec =>
          refine (walkDirSec_agree fits same (by decide) l w).bind fun walked => ?_
          obtain ⟨stop, l, w⟩ := walked
          dsimp only
          split
          · exact .ok _
          · exact ih _ l w

theorem walkClus_agree (left : Nat) (clus : UInt32) (l : Lfn) (w : Walk) :
    Agree (walkClus serves disk descend v pre left clus l w)
      (walkClus serves disk descend' v pre left clus l w) := by
  induction left generalizing clus l w with
  | zero => exact .ok _
  | succ left ih =>
      rw [walkClus, walkClus]
      split
      case isFalse => exact .ok _
      case isTrue =>
        refine (walkSecs_agree fits same _ _ 0 l w).bind fun walked => ?_
        obtain ⟨stop, l, w⟩ := walked
        cases stop with
        | some st => exact .ok _
        | none =>
            obtain ⟨next, found⟩ := fatEntry_total disk v.reserved v.bits clus
            dsimp only
            rw [found]
            change Agree (ite (next = 0) _ _) (ite (next = 0) _ _)
            split
            · exact .ok _
            · exact ih next l w

theorem walkDirWith_agree (start rootSecs : UInt32) (w : Walk) :
    Agree (walkDirWith serves disk descend v start rootSecs pre w)
      (walkDirWith serves disk descend' v start rootSecs pre w) := by
  rw [walkDirWith, walkDirWith]
  split
  case isTrue =>
    exact (walkSecs_agree fits same _ _ 0 .start w).bind fun _ => .ok _
  case isFalse =>
    have nonzero : v.spc ≠ 0 := by
      intro zero
      have := v.spc_pos
      rw [zero] at this
      exact Nat.lt_irrefl 0 this
    have division : Returns (fun _ => True) (div (v.tot - v.firstData) v.spc) :=
      ⟨_, if_neg nonzero, trivial⟩
    refine division.bind_agree fun maxClus _ => ?_
    split
    · exact .ok _
    · exact walkClus_agree fits same _ start .start w

end Walk

/-- As many nested activations as the path leaves room for are enough, and more do
not change what the walk gives. -/
theorem walkDir_agree (serves : Nat → Bool) (disk : Disk) (v : Vol) {depth depth' : Nat}
    {pre : CString} (fits : pre.length < fatPathMax) (deep : fatPathMax ≤ pre.length + depth)
    (deep' : fatPathMax ≤ pre.length + depth') (start rootSecs : UInt32) (w : Walk) :
    Agree (walkDir serves disk v depth start rootSecs pre w)
      (walkDir serves disk v depth' start rootSecs pre w) := by
  induction depth generalizing depth' pre start rootSecs w with
  | zero => omega
  | succ depth ih =>
      cases depth' with
      | zero => omega
      | succ depth' =>
          refine walkDirWith_agree fits (fun clus path w below => ?_) start rootSecs w
          have longer := below.1
          exact ih below.2 (by omega) (by omega) clus 0 w

theorem Boot.read_returns (sec : Sector) : Returns (fun _ => True) (Boot.read sec) := by
  refine (Sector.le16_returns (by decide)).bind fun bps _ => ?_
  refine (Sector.byte_returns (by decide)).bind fun spc _ => ?_
  refine (Sector.le16_returns (by decide)).bind fun reserved _ => ?_
  refine (Sector.byte_returns (by decide)).bind fun nfats _ => ?_
  refine (Sector.le16_returns (by decide)).bind fun rootEnts _ => ?_
  refine (Sector.le16_returns (by decide)).bind fun tot16 _ => ?_
  refine (Sector.le16_returns (by decide)).bind fun fat16 _ => ?_
  refine (Sector.le32_returns (by decide)).bind fun tot32 _ => ?_
  refine (Sector.le32_returns (by decide)).bind fun fat32 _ => ?_
  exact (Sector.le32_returns (by decide)).bind fun rootClus _ => .ok trivial

theorem Boot.vol_returns (blk : Int) (b : Boot) : Returns (fun _ => True) (b.vol blk) := by
  rw [vol]
  split
  case isFalse => exact .ok trivial
  case isTrue accepted =>
    have nonzero : b.spc.toUInt32 ≠ 0 := by
      intro zero
      refine accepted.2.1 (UInt8.toNat_inj.mp ?_)
      rw [← UInt8.toNat_toUInt32, zero]
      rfl
    have bits : Returns (fun _ => True) b.bits := by
      rw [Boot.bits]
      split
      · exact .ok trivial
      · have division : Returns (fun _ => True) (div (b.tot - b.firstData) b.spc.toUInt32) :=
          ⟨_, if_neg nonzero, trivial⟩
        exact division.bind fun _ _ => .ok trivial
    exact bits.bind fun _ _ => .ok trivial

theorem bootVol_returns (disk : Disk) (blk : Int) :
    Returns (fun _ => True) (bootVol disk blk) := by
  rw [bootVol]
  cases disk 0 with
  | none => exact .ok trivial
  | some sec =>
      refine (Sector.byte_returns (by decide)).bind fun first _ => ?_
      refine (Sector.byte_returns (by decide)).bind fun second _ => ?_
      split
      · exact .ok trivial
      · refine (Boot.read_returns sec).bind fun boot _ => ?_
        exact (boot.vol_returns blk).bind fun _ _ => .ok trivial

/-- An import gives its result, the same however many activations of `walk_dir` may be
nested, from the number on that the path leaves room for. -/
theorem importBlk_ends (serves : Nat → Bool) (disks : Int → Disk) (ready : Bool) (blk : Int)
    (s : Entries) :
    ∃ result, ∀ depth, fatPathMax - esp.length ≤ depth →
      importBlk serves disks ready depth blk s = .ok result := by
  have agree (depth : Nat) (deep : fatPathMax - esp.length ≤ depth) :
      Agree (importBlk serves disks ready (fatPathMax - esp.length) blk s)
        (importBlk serves disks ready depth blk s) := by
    rw [importBlk, importBlk]
    split
    case isTrue => exact .ok _
    case isFalse =>
      refine (bootVol_returns (disks blk) blk).bind_agree fun volume _ => ?_
      cases volume with
      | none => exact .ok _
      | some volume =>
          obtain ⟨v, boot⟩ := volume
          dsimp only
          split
          case isTrue => exact .ok _
          case isFalse =>
            have short : esp.length = 4 := by decide
            refine (walkDir_agree serves (disks blk) v (by rw [short]; decide)
              (by omega) (by omega) _ _ _).bind fun walked => ?_
            obtain ⟨st, w⟩ := walked
            dsimp only
            split
            · exact .ok _
            · exact .ok _
  obtain ⟨result, first, -⟩ := agree _ (Nat.le_refl _)
  refine ⟨result, fun depth deep => ?_⟩
  rw [← (agree depth deep).eq, first]

end Metal.Fs
