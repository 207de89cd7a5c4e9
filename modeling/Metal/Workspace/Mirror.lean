import Metal.Lib.Segments
import Metal.Workspace.Extract

namespace Metal.Workspace

open Metal.Lib
open Segments (Below ComesBack resolve relative steps)

/-! Where the paths of an extraction lead: those that the fs is given, and those of the host
mirror. -/

/-- What `mirror_write` does for a path, the directories that it makes and the file that it
opens, unless there is no mirror or the path is too long. -/
structure HostWrite where
  dirs : List Bytes
  file : Bytes

def hostMax : Nat := pathMax + 160

/-- `mkdir` at each slash behind the first byte. -/
def mirrorDirs (host : Bytes) : List Bytes :=
  ((List.range host.length).filter fun n => decide (0 < n) && decide (host[n]? = some slash)).map
    host.take

def mirrorWrite (root : CString) (path : Bytes) : Option HostWrite :=
  if root.bytes = [] then none
  else
    let host := root.bytes ++ path
    if host.length ≥ hostMax then none else some ⟨mirrorDirs host, host⟩

/-- The directories made are those that the path of the file goes through. -/
theorem mirrorWrite_dirs {root : CString} {path : Bytes} {write : HostWrite}
    (written : mirrorWrite root path = some write) {dir : Bytes} (made : dir ∈ write.dirs) :
    dir ≠ [] ∧ ∃ rest, write.file = dir ++ slash :: rest := by
  have shape : write = ⟨mirrorDirs write.file, write.file⟩ := by
    rw [mirrorWrite] at written
    split at written
    · cases written
    · dsimp only at written
      split at written
      · cases written
      · cases written
        rfl
  rw [shape, mirrorDirs] at made
  obtain ⟨n, at_, rfl⟩ := List.mem_map.mp made
  obtain ⟨inside, cut⟩ := List.mem_filter.mp at_
  obtain ⟨past, is⟩ := Bool.and_eq_true_iff.mp cut
  have inside := List.mem_range.mp inside
  refine ⟨fun empty => ?_, write.file.drop (n + 1), ?_⟩
  · have length := congrArg List.length empty
    rw [List.length_take, List.length_nil, Nat.min_eq_left (Nat.le_of_lt inside)] at length
    exact absurd length (Nat.ne_of_gt (of_decide_eq_true past))
  · have found := Option.some.inj
      ((List.getElem?_eq_getElem inside).symm.trans (of_decide_eq_true is))
    rw [← found, List.getElem_cons_drop, List.take_append_drop]

structure Handed where
  path : Bytes
  accepted : Bool

/-- The paths that `walk` gives to the fs. -/
def handed (accepts : Files → Bytes → Bytes → Bool) (name : CString) (tar : Bytes) (off : Nat)
    (files : Files) : List Handed :=
  if off + tarBlock ≤ tar.length then
    match visit name tar off with
    | some (.skip span) => handed accepts name tar (off + tarBlock + span) files
    | some (.add path data span) =>
        if accepts files path data then
          ⟨path, true⟩ ::
            handed accepts name tar (off + tarBlock + span) (files ++ [(path, data)])
        else [⟨path, false⟩]
    | _ => []
  else []
termination_by tar.length - off
decreasing_by all_goals simp only [tarBlock] at *; omega

/-- The members that the walk comes to and gives to the fs, while the fs takes them. -/
def entries (name : CString) (tar : Bytes) (off : Nat) : List Bytes :=
  if off + tarBlock ≤ tar.length then
    match visit name tar off with
    | some (.skip span) => entries name tar (off + tarBlock + span)
    | some (.add _ _ span) =>
        headerName ((tar.drop off).take tarBlock) :: entries name tar (off + tarBlock + span)
    | _ => []
  else []
termination_by tar.length - off
decreasing_by all_goals simp only [tarBlock] at *; omega

variable {name : CString}

theorem visit_add {tar : Bytes} {off : Nat} {path data : Bytes} {span : Nat}
    (add : visit name tar off = some (.add path data span)) :
    path = externalPath name (headerName ((tar.drop off).take tarBlock)) := by
  unfold visit at add
  split at add
  · cases add
  · rename_i hdr read
    have header : hdr = (tar.drop off).take tarBlock := by
      rw [slice] at read
      split at read
      · exact (Option.some.inj read).symm
      · cases read
    subst header
    dsimp only at add
    split at add
    · cases add
    · split at add
      · cases add
      · split at add
        · cases add
        · split at add
          · cases add
          · split at add
            · split at add
              · cases add
              · cases add
                rw [take_tarMemberLen]
            · cases add

theorem handed_entries (accepts : Files → Bytes → Bytes → Bool) (name : CString) (tar : Bytes)
    (off : Nat) (files : Files) {h : Handed} (given : h ∈ handed accepts name tar off files) :
    ∃ member ∈ entries name tar off, h.path = externalPath name member := by
  induction off, files using handed.induct accepts name tar with
  | case1 off files fits span skip ih =>
      rw [handed, if_pos fits, skip] at given
      rw [entries, if_pos fits, skip]
      exact ih given
  | case2 off files fits path data span add accepted ih =>
      rw [handed, if_pos fits, add] at given
      simp only [accepted, if_true] at given
      rw [entries, if_pos fits, add]
      rcases List.mem_cons.mp given with rfl | later
      · exact ⟨_, List.mem_cons_self, visit_add add⟩
      · obtain ⟨member, among, is⟩ := ih later
        exact ⟨member, List.mem_cons_of_mem _ among, is⟩
  | case3 off files fits path data span add refused =>
      rw [handed, if_pos fits, add] at given
      simp only [refused] at given
      rw [entries, if_pos fits, add]
      cases List.mem_singleton.mp given
      exact ⟨_, List.mem_cons_self, visit_add add⟩
  | case4 off files fits noSkip noAdd =>
      rw [handed, if_pos fits] at given
      split at given <;> simp_all
  | case5 off files done =>
      rw [handed, if_neg done] at given
      cases given

theorem entries_handed {accepts : Files → Bytes → Bytes → Bool}
    (accepting : ∀ files path data, accepts files path data = true) (name : CString)
    (tar : Bytes) (off : Nat) (files : Files) :
    handed accepts name tar off files =
      (entries name tar off).map fun member => ⟨externalPath name member, true⟩ := by
  induction off, files using handed.induct accepts name tar with
  | case1 off files fits span skip ih =>
      rw [handed, if_pos fits, skip, entries, if_pos fits, skip]
      exact ih
  | case2 off files fits path data span add accepted ih =>
      rw [handed, if_pos fits, add, entries, if_pos fits, add]
      simp only [accepted, if_true]
      rw [ih, List.map_cons, ← visit_add add]
  | case3 off files fits path data span add refused =>
      exact absurd (accepting ..) refused
  | case4 off files fits noSkip noAdd =>
      rw [handed, if_pos fits, entries, if_pos fits]
      split <;> simp_all
  | case5 off files done => rw [handed, if_neg done, entries, if_neg done, List.map_nil]

/-- `walk` adds to the fs the paths that it gives and the fs takes, in their order. -/
theorem walk_handed {accepts : Files → Bytes → Bytes → Bool} {tar : Bytes} (off count : Nat)
    (files : Files) {outcome : Outcome} {after : Files}
    (walked : walk accepts name tar off count files = some (outcome, after)) :
    after.map Prod.fst = files.map Prod.fst ++
      ((handed accepts name tar off files).filter Handed.accepted).map Handed.path := by
  induction off, count, files using walk.induct accepts name tar with
  | case1 off count files fits past =>
      rw [walk, if_pos fits, past] at walked
      cases walked
  | case2 off count files fits stop =>
      rw [walk, if_pos fits, stop] at walked
      cases walked
      rw [handed, if_pos fits, stop]
      exact (List.append_nil _).symm
  | case3 off count files fits span skip ih =>
      rw [walk, if_pos fits, skip] at walked
      rw [handed, if_pos fits, skip]
      exact ih walked
  | case4 off count files fits overrun =>
      rw [walk, if_pos fits, overrun] at walked
      cases walked
      rw [handed, if_pos fits, overrun]
      exact (List.append_nil _).symm
  | case5 off count files fits path data span add accepted ih =>
      rw [walk, if_pos fits, add] at walked
      simp only [accepted, if_true] at walked
      rw [handed, if_pos fits, add]
      simp [accepted, ih walked]
  | case6 off count files fits path data span add refused =>
      rw [walk, if_pos fits, add] at walked
      simp only [refused] at walked
      cases walked
      rw [handed, if_pos fits, add]
      simp [refused]
  | case7 off count files done =>
      rw [walk, if_neg done] at walked
      cases walked
      rw [handed, if_neg done]
      exact (List.append_nil _).symm

def Member.handed (name : CString) (m : Member) : Bool := (m.stored name).isSome

theorem Member.entries_blocks (m : Member) (name : CString) (front rest : Bytes)
    (small : (front ++ (m.blocks ++ rest)).length < 2 ^ 31) :
    entries name (front ++ (m.blocks ++ rest)) front.length =
      (if m.handed name then [m.name] else []) ++
        entries name (front ++ (m.blocks ++ rest)) (front ++ m.blocks).length := by
  have room : front.length + tarBlock ≤ (front ++ (m.blocks ++ rest)).length := by
    simp only [List.length_append, m.length_blocks]
    omega
  have header : ((front ++ (m.blocks ++ rest)).drop front.length).take tarBlock = m.header := by
    rw [List.drop_left, Member.blocks, List.append_assoc, ← m.block, List.take_left]
  have next : (front ++ m.blocks).length =
      front.length + tarBlock + tarDataSpan m.data.length := by
    rw [List.length_append, m.length_blocks, Nat.add_assoc]
  rw [entries, if_pos room, m.visit_blocks name front rest small, Member.visit, Member.handed, next]
  cases m.stored name with
  | none => rfl
  | some write =>
      dsimp only
      rw [header]
      rfl

theorem entries_members (name : CString) (members : List Member) (front tail : Bytes)
    (small : (front ++ (members.flatMap Member.blocks ++ tail)).length < 2 ^ 31) :
    entries name (front ++ (members.flatMap Member.blocks ++ tail)) front.length =
      (members.filter (Member.handed name)).map Member.name ++
        entries name (front ++ (members.flatMap Member.blocks ++ tail))
          (front ++ members.flatMap Member.blocks).length := by
  induction members generalizing front with
  | nil => simp
  | cons m members ih =>
      have shape : front ++ ((m :: members).flatMap Member.blocks ++ tail) =
          front ++ (m.blocks ++ (members.flatMap Member.blocks ++ tail)) := by
        rw [List.flatMap_cons, List.append_assoc]
      have moved : front ++ (m.blocks ++ (members.flatMap Member.blocks ++ tail)) =
          (front ++ m.blocks) ++ (members.flatMap Member.blocks ++ tail) :=
        (List.append_assoc ..).symm
      have whole : front ++ (m :: members).flatMap Member.blocks =
          (front ++ m.blocks) ++ members.flatMap Member.blocks := by
        rw [List.flatMap_cons, List.append_assoc]
      rw [shape] at small
      rw [shape, m.entries_blocks name front _ small, moved, whole,
        ih (front ++ m.blocks) (moved ▸ small), List.filter_cons, ← List.append_assoc]
      cases m.handed name <;> rfl

theorem Archive.entries_tar (name : CString) (a : Archive) (small : a.tar.length < 2 ^ 31) :
    entries name a.tar 0 = (a.members.filter (Member.handed name)).map Member.name := by
  have members := entries_members name a.members []
    (List.replicate (2 * tarBlock) 0 ++ a.rest) small
  rw [List.nil_append, List.nil_append, List.length_nil] at members
  rw [tar, members]
  rw [entries, visit_end, ite_self, List.append_nil]

def dirOf (name : CString) : List Bytes := resolve [] (ascii "/src/externals/" ++ name.bytes)

theorem steps_externalPath (name : CString) (member : Bytes) :
    steps (externalPath name member) =
      steps (ascii "/src/externals/" ++ name.bytes) ++ steps member :=
  (congrArg steps
    (List.append_assoc (ascii "/src/externals/") name.bytes (slash :: member)).symm).trans
    (Segments.steps_append ..)

theorem steps_dirOf (noSlash : slash ∉ name.bytes) (noParent : name.bytes ≠ ascii "..") :
    steps (ascii "/src/externals/" ++ name.bytes) = (dirOf name).map .down := by
  have front : steps (ascii "/src/externals/" ++ name.bytes) =
      [Segments.Step.down (ascii "src"), .down (ascii "externals")] ++ steps name.bytes := by
    have shape : ascii "/src/externals/" ++ name.bytes =
        ascii "/src/externals" ++ slash :: name.bytes := rfl
    rw [shape, Segments.steps_append]
    exact congrArg (· ++ _) (by decide +kernel)
  have last : ∃ names : List Bytes, steps name.bytes = names.map .down := by
    rw [Segments.steps_segment noSlash, Segments.step, if_neg noParent]
    split
    · exact ⟨[], rfl⟩
    · exact ⟨[name.bytes], rfl⟩
  obtain ⟨names, last⟩ := last
  have down : steps (ascii "/src/externals/" ++ name.bytes) =
      (ascii "src" :: ascii "externals" :: names).map .down := by
    rw [front, last]
    rfl
  have same : dirOf name = ascii "src" :: ascii "externals" :: names := by
    have absolute : dirOf name = Segments.walk [] (steps (ascii "/src/externals/" ++ name.bytes)) :=
      rfl
    rw [absolute, down, Segments.walk_down, List.nil_append]
  rw [down, same]

/-- The fs gets a path in the directory of the external, when the name of the member does not
climb, or comes back through the directories that it climbs over. -/
theorem below_fs_iff (name : CString) (member : Bytes) :
    Below (dirOf name) (resolve [] (externalPath name member)) ↔
      ComesBack (dirOf name) (relative (steps member)).1 (relative (steps member)).2 := by
  have path : resolve [] (externalPath name member) =
      Segments.walk (dirOf name ++ []) (steps member) := by
    have shape : externalPath name member =
        (ascii "/src/externals/" ++ name.bytes) ++ slash :: member := (List.append_assoc ..).symm
    have some_ : ascii "/src/externals/" ++ name.bytes ≠ [] := fun empty => nomatch empty
    rw [shape, Segments.resolve_append [] some_, List.append_nil]
    rfl
  rw [path, Segments.below_walk_iff]
  exact or_iff_right (Nat.not_lt_zero _)

theorem below_host_iff (noSlash : slash ∉ name.bytes) (noParent : name.bytes ≠ ascii "..")
    {root : CString} (some_ : root.bytes ≠ []) (cwd : List Bytes) (member : Bytes) :
    Below (resolve cwd root.bytes) (resolve cwd (root.bytes ++ externalPath name member)) ↔
      (relative (steps member)).1 < (dirOf name).length ∨
        ComesBack (resolve cwd root.bytes)
          ((relative (steps member)).1 - (dirOf name).length) (relative (steps member)).2 := by
  have path : resolve cwd (root.bytes ++ externalPath name member) =
      Segments.walk (resolve cwd root.bytes ++ dirOf name) (steps member) := by
    have tail : externalPath name member = slash :: (externalPath name member).drop 1 := rfl
    rw [tail, Segments.resolve_append cwd some_, ← Segments.steps_slash, ← tail,
      steps_externalPath, steps_dirOf noSlash noParent, Segments.walk_append, Segments.walk_down]
  rw [path, Segments.below_walk_iff]

def tarOf (inflate : Bytes → Nat → Option Bytes) (archive : Bytes) : Option Bytes :=
  if archive = [] then none
  else
    match gzDeflatePayload archive with
    | none => none
    | some deflate =>
        let isize := leU32 (archive.drop (archive.length - 4))
        if isize = 0 then none
        else
          match inflate deflate isize.toNat with
          | none => none
          | some tar => if tar.length < 2 * tarBlock then none else some tar

def handedOf (inflate : Bytes → Nat → Option Bytes) (accepts : Files → Bytes → Bytes → Bool)
    (name : CString) (archive : Bytes) (memory : Bool) (s : State) : List Handed :=
  match if memory then tarOf inflate archive else none with
  | none => []
  | some tar => handed accepts name tar 0 s.files

theorem extractExternal_handed {inflate : Bytes → Nat → Option Bytes}
    {accepts : Files → Bytes → Bytes → Bool} {archive : Bytes} {memory : Bool} {s after : State}
    {outcome : Outcome}
    (extracted : extractExternal inflate accepts name archive memory s = some (outcome, after)) :
    after.files.map Prod.fst = s.files.map Prod.fst ++
      ((handedOf inflate accepts name archive memory s).filter Handed.accepted).map Handed.path := by
  have none_ {given : List Handed} (empty : given = []) : s.files.map Prod.fst =
      s.files.map Prod.fst ++ (given.filter Handed.accepted).map Handed.path := by
    rw [empty]
    exact (List.append_nil _).symm
  unfold extractExternal at extracted
  rw [handedOf, tarOf]
  by_cases empty : archive = []
  · rw [if_pos empty] at extracted
    cases extracted
    exact none_ (by simp [empty])
  rw [if_neg empty] at extracted
  rw [if_neg empty]
  cases payload : gzDeflatePayload archive with
  | none =>
      rw [payload] at extracted
      cases extracted
      exact none_ (by simp)
  | some deflate =>
      rw [payload] at extracted
      dsimp only at extracted ⊢
      by_cases size : leU32 (archive.drop (archive.length - 4)) = 0
      · rw [if_pos size] at extracted
        cases extracted
        exact none_ (by simp [size])
      rw [if_neg size] at extracted
      rw [if_neg size]
      cases memory with
      | false =>
          cases extracted
          exact none_ rfl
      | true =>
          simp only [Bool.not_true, Bool.false_eq_true, if_false] at extracted
          cases inflated : inflate deflate (leU32 (archive.drop (archive.length - 4))).toNat with
          | none =>
              rw [inflated] at extracted
              cases extracted
              exact none_ rfl
          | some tar =>
              rw [inflated] at extracted
              dsimp only at extracted ⊢
              by_cases short : tar.length < 2 * tarBlock
              · rw [if_pos short] at extracted
                cases extracted
                exact none_ (by simp [short])
              rw [if_neg short] at extracted
              rw [if_neg short, if_pos rfl]
              cases walked : walk accepts name tar 0 0 s.files with
              | none =>
                  rw [walked] at extracted
                  cases extracted
              | some result =>
                  obtain ⟨outcome, files⟩ := result
                  rw [walked] at extracted
                  cases outcome with
                  | ok count | error text =>
                      cases extracted
                      exact walk_handed _ _ _ walked

/-- A path leads below the directory of the external; and when the fs took it, that of the
host copy leads below the root of the mirror. -/
structure StaysBelow (name root : CString) (cwd : List Bytes) (h : Handed) : Prop where
  fs : Below (dirOf name) (resolve [] h.path)
  host : h.accepted = true → ∀ write, mirrorWrite root h.path = some write →
    Below (resolve cwd root.bytes) (resolve cwd write.file)

/-- Whatever the fs is and takes, all paths of an extraction stay below. -/
def Stays (inflate : Bytes → Nat → Option Bytes) (name : CString) (archive : Bytes)
    (root : CString) (cwd : List Bytes) : Prop :=
  ∀ accepts memory s, ∀ h ∈ handedOf inflate accepts name archive memory s,
    StaysBelow name root cwd h

/-- A member's name that does not climb, or that comes back through the directories that it
climbs over. -/
structure Inside (name root : CString) (cwd : List Bytes) (member : Bytes) : Prop where
  fs : ComesBack (dirOf name) (relative (steps member)).1 (relative (steps member)).2
  host : root.bytes ≠ [] → (root.bytes ++ externalPath name member).length < hostMax →
    (relative (steps member)).1 < (dirOf name).length ∨
      ComesBack (resolve cwd root.bytes) ((relative (steps member)).1 - (dirOf name).length)
        (relative (steps member)).2

theorem staysBelow_iff (noSlash : slash ∉ name.bytes) (noParent : name.bytes ≠ ascii "..")
    (root : CString) (cwd : List Bytes) (member : Bytes) :
    StaysBelow name root cwd ⟨externalPath name member, true⟩ ↔
      Inside name root cwd member := by
  constructor
  · intro stays
    refine ⟨(below_fs_iff name member).mp stays.fs, fun some_ fits => ?_⟩
    have written : mirrorWrite root (externalPath name member) =
        some ⟨mirrorDirs (root.bytes ++ externalPath name member),
          root.bytes ++ externalPath name member⟩ := by
      rw [mirrorWrite, if_neg some_]
      exact if_neg (Nat.not_le_of_lt fits)
    exact (below_host_iff noSlash noParent some_ cwd member).mp (stays.host rfl _ written)
  · intro inside
    refine ⟨(below_fs_iff name member).mpr inside.fs, fun _ write written => ?_⟩
    rw [mirrorWrite] at written
    split at written
    · cases written
    · rename_i some_
      dsimp only at written
      split at written
      · cases written
      · rename_i fits
        cases written
        exact (below_host_iff noSlash noParent some_ cwd member).mpr
          (inside.host some_ (Nat.lt_of_not_le fits))

/-- An extraction stays in its directory exactly when the names of all members that it comes
to lead inside. -/
theorem extract_stays_iff {name : CString} (noSlash : slash ∉ name.bytes)
    (noParent : name.bytes ≠ ascii "..") (inflate : Bytes → Nat → Option Bytes)
    (archive : Bytes) (root : CString) (cwd : List Bytes) :
    Stays inflate name archive root cwd ↔
      ∀ tar, tarOf inflate archive = some tar →
        ∀ member ∈ entries name tar 0, Inside name root cwd member := by
  constructor
  · intro stays tar is member among
    have given := stays (fun _ _ _ => true) true ⟨[], 0⟩ ⟨externalPath name member, true⟩
    rw [handedOf, if_pos rfl, is] at given
    refine (staysBelow_iff noSlash noParent root cwd member).mp (given ?_)
    dsimp only
    rw [entries_handed (fun _ _ _ => rfl)]
    exact List.mem_map.mpr ⟨member, among, rfl⟩
  · intro inside accepts memory s h given
    rw [handedOf] at given
    split at given
    · cases given
    · rename_i tar is
      have is : tarOf inflate archive = some tar := by
        cases memory with
        | false => cases is
        | true => exact is
      obtain ⟨member, among, path⟩ := handed_entries accepts name tar 0 s.files given
      obtain ⟨fs, host⟩ := (staysBelow_iff noSlash noParent root cwd member).mpr
        (inside tar is member among)
      refine ⟨path ▸ fs, fun _ => ?_⟩
      rw [path]
      exact host rfl

theorem Archive.tarOf_stream {inflate : Bytes → Nat → Option Bytes} (g : Gzip) (a : Archive)
    (deflated : Bytes)
    (inverts : ∀ rest cap, a.tar.length ≤ cap → inflate (deflated ++ rest) cap = some a.tar)
    (small : a.tar.length < 2 ^ 31) :
    tarOf inflate (g.stream deflated (UInt32.ofNat a.tar.length)) = some a.tar := by
  obtain ⟨whole, size⟩ := a.isize small
  rw [tarOf, if_neg (g.stream_ne_nil _ _), g.payload_stream]
  simp only [g.trailer_stream, if_neg size, whole, inverts _ _ (Nat.le_refl _),
    if_neg (Nat.not_lt_of_le a.length_tar)]

def mirrorRoot : CString := ⟨ascii "/tmp/metal", by decide⟩

theorem extract_stays_iff_plainFile :
    Stays inflateStored ext (bareGzip.stream (stored2048 (Archive.tar ⟨[plainFile], []⟩))
      (UInt32.ofNat (Archive.tar ⟨[plainFile], []⟩).length)) mirrorRoot [] := by
  have size : (Archive.tar ⟨[plainFile], []⟩).length = 2048 := by decide +kernel
  have small : (Archive.tar ⟨[plainFile], []⟩).length < 2 ^ 31 := by
    rw [size]
    decide
  refine (extract_stays_iff (by decide) (by decide) inflateStored _ mirrorRoot []).mpr
    fun tar is member among => ?_
  rw [Archive.tarOf_stream bareGzip ⟨[plainFile], []⟩ _ (inflateStored_stored2048 size) small] at is
  cases is
  rw [Archive.entries_tar ext ⟨[plainFile], []⟩ small] at among
  have taken : Member.handed ext plainFile = true := by decide +kernel
  have only : (Archive.members ⟨[plainFile], []⟩).filter (Member.handed ext) = [plainFile] :=
    List.filter_cons_of_pos taken
  rw [only] at among
  cases List.mem_singleton.mp among
  exact ⟨by decide +kernel, fun _ _ => by decide +kernel⟩

/-- Its name climbs over the directory of the external and over the root of the mirror. -/
def climbing : Member where
  header := blockOf (ascii "../../../../a.txt") (ascii "003") []
  data := [1, 2, 3]
  pad := List.replicate 509 0
  block := by decide +kernel
  named := by decide
  magic := by decide +kernel
  size := octalField_003 (by decide +kernel)
  padded := padded_three
  short := by decide +kernel

theorem extract_stays_fails :
    ¬ Stays inflateStored ext (bareGzip.stream (stored2048 (Archive.tar ⟨[climbing], []⟩))
      (UInt32.ofNat (Archive.tar ⟨[climbing], []⟩).length)) mirrorRoot [] := by
  have size : (Archive.tar ⟨[climbing], []⟩).length = 2048 := by decide +kernel
  have small : (Archive.tar ⟨[climbing], []⟩).length < 2 ^ 31 := by
    rw [size]
    decide
  intro stays
  have given := stays (fun _ _ _ => true) true ⟨[], 0⟩
  rw [handedOf, if_pos rfl,
    Archive.tarOf_stream bareGzip ⟨[climbing], []⟩ _ (inflateStored_stored2048 size) small] at given
  dsimp only at given
  rw [entries_handed (fun _ _ _ => rfl), Archive.entries_tar ext ⟨[climbing], []⟩ small] at given
  have taken : Member.handed ext climbing = true := by decide +kernel
  have only : (Archive.members ⟨[climbing], []⟩).filter (Member.handed ext) = [climbing] :=
    List.filter_cons_of_pos taken
  rw [only] at given
  have below := (given _ (List.mem_singleton.mpr rfl)).fs
  exact absurd below (by decide +kernel)

end Metal.Workspace
