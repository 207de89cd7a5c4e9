import Metal.Port.TempRefines

namespace Metal.Port.TempFile

open Metal.Lib Function

variable {s : State} {spec : Spec}

theorem Refines.cursor (refines : Refines s spec) (f : Option Nat) :
    s.stream f = none ∧ spec.cursor f = none ∨
      ∃ h fd pos entry, s.stream f = some (h, ⟨fd, pos⟩) ∧
        spec.cursor f = some (h, ⟨entry.id, pos⟩) ∧ spec.dir fd = some entry ∧
        pos < 2 ^ 63 := by
  cases f with
  | none => exact .inl ⟨rfl, rfl⟩
  | some h =>
      have linked := refines.streams h
      generalize at_ : s.streams h = stream at linked
      generalize at' : spec.streams h = cursor at linked
      cases linked with
      | closed => exact .inl (by simp [State.stream, Spec.cursor, at_, at'])
      | live fd pos entry there small =>
          exact .inr ⟨h, fd, pos, entry, by simp [State.stream, at_],
            by simp [Spec.cursor, at'], there, small⟩

variable {fd : Nat}

theorem Refines.opens (refines : Refines s spec) (below : fd < fwMaxOpen) (memory : Bool) :
    ∃ next, spec.opens fd memory (fdopen fd memory s).1 = some next ∧
      Refines (fdopen fd memory s).2 next := by
  have inside : ¬((fd : Int) < 0) ∧ ¬((fd : Int) ≥ fwMaxOpen) := by
    constructor <;> omega
  have used := refines.inUse_iff below
  cases there : spec.dir fd with
  | none =>
      have shut : fdopen fd memory s = (none, s) := by
        rw [there] at used
        simp [fdopen, used]
      exact ⟨spec, by simp [shut, Spec.opens, there], by rw [shut]; exact refines⟩
  | some entry =>
      rw [there] at used
      cases memory with
      | false =>
          have shut : fdopen fd false s = (none, s) := by simp [fdopen]
          exact ⟨spec, by simp [shut, Spec.opens], by rw [shut]; exact refines⟩
      | true =>
          have made : fdopen fd true s = (some s.opened,
              { s.setStream s.opened (some ⟨fd, 0⟩) with opened := s.opened + 1 }) := by
            simp [fdopen, used, inside]
          have linked := refines.setStream s.opened
            (.live fd 0 entry there (Nat.two_pow_pos 63))
          rw [made]
          refine ⟨_, by simp only [Spec.opens, there]; rw [if_pos refines.opened.symm], ?_⟩
          exact { linked with opened := congrArg (· + 1) refines.opened }

theorem Refines.truncate (refines : Refines s spec) {path : Name} {entry : Entry}
    (there : spec.dir fd = some entry) (named : entry.name = path.text) :
    Refines ((s.setFile fd { s.files fd with len := 0 }).setName fd path.text)
      (spec.setBytes entry.id []) := by
  obtain ⟨_, used, same⟩ := refines.name_eq there
  have name : path.text.strncpy (nameSize - 1) = (s.files fd).name := by
    rw [CString.strncpy_of_length_le (Nat.le_sub_one_of_lt path.short), same, named]
  have once : (s.setFile fd { s.files fd with len := 0 }).setName fd path.text =
      s.setFile fd { s.files fd with len := 0 } := by
    simp [State.setName, State.setFile, name]
  rw [once]
  exact refines.setFile there _ rfl used (Nat.zero_le _) (Nat.two_pow_pos 63)
    (refines.null fd entry there)

theorem Refines.made (refines : Refines s spec) (free : spec.free = some fd) (name : Name) :
    Refines ((s.setFile fd ⟨CString.empty, none, 0, 0, true⟩).setName fd name.text)
      (spec.create fd name.text) := by
  have once : (s.setFile fd ⟨CString.empty, none, 0, 0, true⟩).setName fd name.text =
      s.setFile fd ⟨name.text, none, 0, 0, true⟩ := by
    simp [State.setName, State.setFile,
      CString.strncpy_of_length_le (Nat.le_sub_one_of_lt name.short)]
  rw [once]
  exact refines.create free name.text

theorem Refines.open_ (refines : Refines s spec) (creates : Bool) (path : Name) :
    open_ creates path s = none ∧ spec.opening creates path.text = none ∨
      ∃ fd s' next, open_ creates path s = some (fd, s') ∧
        spec.opening creates path.text = some (fd, next) ∧ fd < fwMaxOpen ∧
        Refines s' next := by
  unfold TempFile.open_ Spec.opening
  rw [refines.find]
  cases found : spec.find path.text with
  | some fd =>
      obtain ⟨entry, there, named⟩ := Spec.find_some found
      have below := (refines.name_eq there).1
      cases creates with
      | true =>
          refine .inr ⟨fd, _, _, rfl, rfl, below, ?_⟩
          rw [there]
          exact refines.truncate there named
      | false => exact .inr ⟨fd, s, spec, rfl, rfl, below, refines⟩
  | none =>
      cases creates with
      | true =>
          simp only [refines.slot, if_true]
          cases free : spec.free with
          | none => exact .inl ⟨rfl, rfl⟩
          | some fd =>
              exact .inr ⟨fd, _, _, rfl, rfl, (Spec.free_some free).1, refines.made free path⟩
      | false => exact .inl ⟨rfl, rfl⟩

theorem mintFresh_fresh {template name : Name} {seq seq' : UInt32}
    (minted : mintFresh s template seq = (some name, seq')) :
    fwFileFind s name.text = none := by
  fun_induction mintFresh s template seq with
  | case1 seq fresh =>
      cases minted
      exact fresh
  | case2 seq taken over_ =>
      cases minted
  | case3 seq taken more ih =>
      exact ih minted

theorem Refines.mkstemp (refines : Refines s spec) (template : Name) :
    (mkstemp template s).1 = none ∧ Refines (mkstemp template s).2 spec ∨
      ∃ fd name, (mkstemp template s).1 = some (fd, name) ∧ fd < fwMaxOpen ∧
        spec.dir fd = none ∧ spec.find name.text = none ∧
        Refines (mkstemp template s).2 (spec.create fd name.text) := by
  unfold TempFile.mkstemp
  cases minted : mintFresh s template s.seq with
  | mk made seq =>
      have counted : Refines { s with seq := seq } spec := { refines with }
      cases made with
      | none => exact .inl ⟨rfl, counted⟩
      | some name =>
          have fresh := mintFresh_fresh minted
          rw [refines.find] at fresh
          simp only [counted.slot]
          cases free : spec.free with
          | none => exact .inl ⟨rfl, counted⟩
          | some fd =>
              obtain ⟨below, nothing⟩ := Spec.free_some free
              exact .inr ⟨fd, name, rfl, below, nothing, fresh, counted.made free name⟩

/-! ### Reading and writing -/

theorem Refines.bytes_eq (refines : Refines s spec) {entry : Entry}
    (there : spec.dir fd = some entry) : spec.bytes entry.id = (s.files fd).contents := by
  rw [Spec.bytes, List.getD_eq_getElem?_getD, refines.contents fd entry there]
  rfl

theorem Refines.sameBytes (refines : Refines s spec) {entry : Entry}
    (there : spec.dir fd = some entry) {file : File}
    (new : Refines (s.setFile fd file) (spec.setBytes entry.id file.contents))
    (same : file.contents = (s.files fd).contents) : Refines (s.setFile fd file) spec := by
  have kept : spec.setBytes entry.id file.contents = spec := by
    have inside := refines.contents fd entry there
    rw [← same] at inside
    obtain ⟨below, is⟩ := List.getElem?_eq_some_iff.mp inside
    rw [Spec.setBytes, ← is, List.set_getElem_self]
  rw [kept] at new
  exact new

theorem Spec.setCursor_self {f : Option Nat} {h : Nat} {cursor : Cursor}
    (at_ : spec.cursor f = some (h, cursor)) : spec.setCursor h (some cursor) = spec := by
  cases f with
  | none => cases at_
  | some g =>
      cases here : spec.streams g with
      | none => simp [Spec.cursor, here] at at_
      | some other =>
          simp only [Spec.cursor, Option.bind_some, here, Option.map_some, Option.some.injEq,
            Prod.mk.injEq] at at_
          obtain ⟨rfl, rfl⟩ := at_
          rw [Spec.setCursor, ← here, update_eq_self]

theorem File.Follows.written {file new : File} {pos : Nat} {bytes : Bytes} {alloc : Alloc}
    (after : new.Follows file) (lenLe : file.len ≤ file.cap)
    (null : file.data = none → file.cap = 0) (fits : pos + bytes.length ≤ new.cap)
    (gap : ∀ offset, file.len ≤ offset → offset < pos → file.grownByte alloc offset = 0)
    (written : ∀ offset < new.cap, new.byte offset =
      if pos ≤ offset ∧ offset < pos + bytes.length then bytes.getD (offset - pos) 0
      else file.grownByte alloc offset) :
    { new with len := max file.len (pos + bytes.length) }.contents =
      Spec.patch pos bytes file.contents := by
  have cap := after.cap
  refine File.contents_patch rfl (fun offset above below => ?_) (fun offset inside out => ?_)
    (fun offset past before => ?_)
  · exact (written offset (by omega)).trans (if_pos ⟨above, below⟩)
  · refine (written offset (by omega)).trans ((if_neg out).trans ?_)
    exact file.grownByte_of_lt null alloc (Nat.lt_of_lt_of_le inside lenLe)
  · exact (written offset (by omega)).trans ((if_neg (by omega)).trans (gap offset past before))

section Refines

variable (refines : Refines s spec)
include refines

theorem Refines.fwrite (chunk : Chunk) {f : Option Nat}
    {alloc : Alloc} (keeps : Writes s f chunk.bytes alloc) :
    spec.cursor f = none ∧ fwrite chunk f alloc s = some (0, s) ∨
      ∃ h cursor, spec.cursor f = some (h, cursor) ∧
        (fwrite chunk f alloc s = some (0, s) ∧ alloc = none ∨
          ∃ s', fwrite chunk f alloc s = some (chunk.nmemb.toNat, s') ∧
            Refines s' (if chunk.bytes = [] then spec else spec.write h cursor chunk.bytes)) := by
  unfold TempFile.fwrite
  rcases refines.cursor f with ⟨away, away'⟩ | ⟨h, fd, pos, entry, at_, at', there, _⟩
  · exact .inl ⟨away', by rw [away]⟩
  · refine .inr ⟨h, _, at', ?_⟩
    obtain ⟨below, used, _⟩ := refines.name_eq there
    obtain ⟨small, zeros⟩ := keeps h _ at_
    have null := refines.null fd entry there
    have lenLe := refines.lenLe fd entry there
    rw [at_]
    simp only [← chunk.whole, ge_iff_le, if_neg (Nat.not_le_of_lt below)]
    rw [Nat.mod_eq_of_lt (by omega)]
    rcases File.grow alloc small null with ⟨refused, none_⟩ | ⟨room, grown, grows, after, fits, bytes⟩
    · rw [refused]
      exact .inl ⟨rfl, none_⟩
    · obtain ⟨empty, gap⟩ := zeros room
      obtain ⟨new, stored, after', cap, written⟩ := File.store_bytes fits after.null
      rw [grows]
      simp only [stored, if_neg (Nat.not_le_of_lt small)]
      refine .inr ⟨_, rfl, ?_⟩
      have len : new.len = (s.files fd).len := after'.len.trans after.len
      have both : new.Follows (s.files fd) :=
        ⟨after'.name.trans after.name, after'.inUse.trans after.inUse, len,
          Nat.le_trans after.cap after'.cap, after'.null⟩
      have longer : (if pos + chunk.bytes.length > new.len then
            { new with len := pos + chunk.bytes.length } else new) =
          { new with len := max (s.files fd).len (pos + chunk.bytes.length) } := by
        rw [← len]
        split
        · rw [Nat.max_eq_right (by omega)]
        · rw [Nat.max_eq_left (by omega)]
      have contents := both.written lenLe null (cap ▸ fits) gap fun offset inside => by
        rw [written, bytes offset (cap ▸ inside)]
      have roomy := Nat.max_le.mpr ⟨Nat.le_trans lenLe both.cap, cap ▸ fits⟩
      have stores := refines.setFile there
        { new with len := max (s.files fd).len (pos + chunk.bytes.length) }
        both.name (both.inUse.trans used) roomy
        (Nat.max_lt.mpr ⟨refines.small fd entry there, small⟩) both.null
      rw [longer]
      split
      · rename_i nothing
        have still : Spec.patch pos chunk.bytes (s.files fd).contents =
            (s.files fd).contents := by
          have inside := empty nothing
          rw [nothing, Spec.patch, File.length_contents, Nat.sub_eq_zero_of_le inside]
          simp [writeAt]
        have stays := (refines.sameBytes there stores (contents.trans still)).setStream h
          (.live fd pos entry there (by omega))
        rw [Spec.setCursor_self at'] at stays
        rw [nothing] at stays ⊢
        exact stays
      · rw [contents] at stores
        have moved := stores.setStream h (.live fd (pos + chunk.bytes.length) entry there small)
        rw [Spec.write, refines.bytes_eq there]
        exact moved

theorem Refines.fread (sizes : Sizes) (f : Option Nat) :
    spec.cursor f = none ∧ fread sizes f s = some (0, [], s) ∨
      ∃ h cursor s', spec.cursor f = some (h, cursor) ∧
        fread sizes f s = some
          ((spec.readable cursor sizes.n).length / sizes.size.toNat,
            spec.readable cursor sizes.n, s') ∧
        Refines s' (spec.advance h cursor (spec.readable cursor sizes.n).length) := by
  unfold TempFile.fread
  rcases refines.cursor f with ⟨away, away'⟩ | ⟨h, fd, pos, entry, at_, at', there, small⟩
  · exact .inl ⟨away', by rw [away]⟩
  · obtain ⟨below, _, _⟩ := refines.name_eq there
    have lenLe := refines.lenLe fd entry there
    have lenSmall := refines.small fd entry there
    have readable : spec.readable ⟨entry.id, pos⟩ sizes.n =
        ((s.files fd).contents.drop pos).take sizes.n := by
      rw [Spec.readable, refines.bytes_eq there]
    have length : (spec.readable ⟨entry.id, pos⟩ sizes.n).length =
        min sizes.n ((s.files fd).len - pos) := by
      rw [readable, List.length_take, List.length_drop, File.length_contents]
    rw [at_]
    simp only [ge_iff_le, if_neg (Nat.not_le_of_lt below)]
    by_cases past : (s.files fd).len ≤ pos
    · have nothing : spec.readable ⟨entry.id, pos⟩ sizes.n = [] := by
        rw [← List.length_eq_zero_iff, length]
        omega
      refine .inr ⟨h, _, s, at', ?_, ?_⟩
      · rw [if_pos past, nothing, List.length_nil, Nat.zero_div]
      · rw [nothing, List.length_nil, Spec.advance, Nat.add_zero, Spec.setCursor_self at']
        exact refines
    · have chosen : (if sizes.n > (s.files fd).len - pos then (s.files fd).len - pos
          else sizes.n) = min sizes.n ((s.files fd).len - pos) := by
        split <;> omega
      have loaded := (s.files fd).load_contents pos (min sizes.n ((s.files fd).len - pos))
        (by omega) lenLe (refines.null fd entry there)
      have same : ((s.files fd).contents.drop pos).take
          (min sizes.n ((s.files fd).len - pos)) = spec.readable ⟨entry.id, pos⟩ sizes.n := by
        rw [readable, List.take_eq_take_iff, List.length_drop, File.length_contents]
        omega
      have count : (if sizes.size = 0 then 0
            else min sizes.n ((s.files fd).len - pos) / sizes.size.toNat) =
          (spec.readable ⟨entry.id, pos⟩ sizes.n).length / sizes.size.toNat := by
        rw [length]
        split
        · rename_i zero
          rw [zero, UInt64.toNat_zero, Nat.div_zero]
        · rfl
      refine .inr ⟨h, _,
        s.setStream h (some ⟨fd, pos + min sizes.n ((s.files fd).len - pos)⟩), at', ?_, ?_⟩
      · rw [if_neg past, chosen, loaded]
        simp only [same, count]
      · rw [Spec.advance, length]
        exact refines.setStream h (.live fd _ entry there (by omega))

theorem Refines.fseek (f : Option Nat) (offset : Int64) (whence : Whence) :
    spec.cursor f = none ∧ fseek f offset whence s = (-1, s) ∨
      ∃ h cursor, spec.cursor f = some (h, cursor) ∧
        match (spec.target cursor offset whence).filter fun aim => decide (Spec.Within aim) with
        | none => fseek f offset whence s = (-1, s)
        | some aim => ∃ s', fseek f offset whence s = (0, s') ∧
            Refines s' (spec.setCursor h (some { cursor with pos := aim.toNat })) := by
  unfold TempFile.fseek
  rcases refines.cursor f with ⟨away, away'⟩ | ⟨h, fd, pos, entry, at_, at', there, small⟩
  · exact .inl ⟨away', by rw [away]⟩
  · refine .inr ⟨h, _, at', ?_⟩
    obtain ⟨below, _, _⟩ := refines.name_eq there
    have lenSmall := refines.small fd entry there
    have below' := offset.toInt_lt
    have wrapped (base : Nat) (fits : base < 2 ^ 63) :
        Spec.Within (base + offset.toInt) ∧ wrapLong (base + offset.toInt) = base + offset.toInt ∨
          ¬Spec.Within (base + offset.toInt) ∧ wrapLong (base + offset.toInt) < 0 := by
      have above := offset.le_toInt
      rw [wrapLong, Int.bmod_def]
      unfold Spec.Within
      omega
    have finish (npos aim : Int)
        (agree : Spec.Within aim ∧ npos = aim ∨ ¬Spec.Within aim ∧ npos < 0) :
        match (some aim).filter fun aim => decide (Spec.Within aim) with
        | none => (if npos < 0 then ((-1 : Int), s)
            else (0, s.setStream h (some ⟨fd, npos.toNat⟩))) = (-1, s)
        | some aim => ∃ s', (if npos < 0 then ((-1 : Int), s)
            else (0, s.setStream h (some ⟨fd, npos.toNat⟩))) = (0, s') ∧
            Refines s' (spec.setCursor h (some ⟨entry.id, aim.toNat⟩)) := by
      rw [Option.filter_some]
      rcases agree with ⟨inside, rfl⟩ | ⟨outside, negative⟩
      · rw [if_pos (decide_eq_true inside), if_neg (Int.not_lt.mpr inside.1)]
        refine ⟨_, rfl, refines.setStream h (.live fd _ entry there ?_)⟩
        have := inside.2
        omega
      · rw [if_neg (by simpa using outside), if_pos negative]
    rw [at_]
    simp only [ge_iff_le, if_neg (Nat.not_le_of_lt below), Spec.target]
    cases whence with
    | set =>
        refine finish _ _ ?_
        unfold Spec.Within
        omega
    | cur => exact finish _ _ (wrapped pos small)
    | end_ =>
        rw [refines.bytes_eq there, File.length_contents]
        exact finish _ _ (wrapped (s.files fd).len lenSmall)
    | other => rfl

theorem Refines.ftell (f : Option Nat) :
    spec.cursor f = none ∧ ftell f s = -1 ∨
      ∃ h cursor, spec.cursor f = some (h, cursor) ∧ ftell f s = cursor.pos := by
  unfold TempFile.ftell
  rcases refines.cursor f with ⟨away, away'⟩ | ⟨h, fd, pos, entry, at_, at', _, _⟩
  · exact .inl ⟨away', by rw [away]⟩
  · exact .inr ⟨h, _, at', by rw [at_]⟩

theorem Refines.fclose (f : Option Nat) :
    spec.cursor f = none ∧ fclose f s = (-1, s) ∨
      ∃ h cursor s', spec.cursor f = some (h, cursor) ∧ fclose f s = (0, s') ∧
        Refines s' (spec.setCursor h none) := by
  unfold TempFile.fclose
  rcases refines.cursor f with ⟨away, away'⟩ | ⟨h, fd, pos, entry, at_, at', _, _⟩
  · exact .inl ⟨away', by rw [away]⟩
  · exact .inr ⟨h, _, _, at', by rw [at_], refines.setStream h .closed⟩

theorem Refines.unlink {path : Name} (keeps : Keeps s (.unlink path)) :
    spec.find path.text = none ∧ unlink path s = (-1, s) ∨
      ∃ fd s', spec.find path.text = some fd ∧ unlink path s = (0, s') ∧
        Refines s' { spec with dir := update spec.dir fd none } := by
  unfold TempFile.unlink
  rw [refines.find]
  cases found : spec.find path.text with
  | none => exact .inl ⟨rfl, rfl⟩
  | some fd =>
      refine .inr ⟨fd, _, rfl, rfl, ?_⟩
      have unused := keeps fd ((refines.find _).trans found)
      have dir {n : Nat} {entry : Entry}
          (there : update spec.dir fd none n = some entry) :
          n ≠ fd ∧ spec.dir n = some entry := by
        by_cases here : n = fd
        · rw [here, update_self] at there
          cases there
        · exact ⟨here, (update_of_ne here ..).symm.trans there⟩
      have other {n : Nat} (apart : n ≠ fd) :
          (s.setFile fd { s.files fd with data := none, inUse := false }).files n =
            s.files n :=
        update_of_ne apart ..
      have each (holds : File → Prop)
          (before : ∀ n entry, spec.dir n = some entry → holds (s.files n)) (n : Nat)
          (entry : Entry) (there : update spec.dir fd none n = some entry) :
          holds ((s.setFile fd { s.files fd with data := none, inUse := false }).files n) := by
        rw [other (dir there).1]
        exact before n entry (dir there).2
      exact
        { dir := fun n below => by
            by_cases here : n = fd
            · simp [here, State.setFile]
            · rw [other here]
              exact (congrArg (Option.map Entry.name) (update_of_ne here ..)).trans
                (refines.dir n below)
          beyond := fun n above => by
            by_cases here : n = fd
            · simp [here]
            · exact (update_of_ne here ..).trans (refines.beyond n above)
          contents := fun n entry there => by
            rw [other (dir there).1]
            exact refines.contents n entry (dir there).2
          apart := fun n m entry entry' there there' =>
            refines.apart n m entry entry' (dir there).2 (dir there').2
          lenLe := each (fun file => file.len ≤ file.cap) refines.lenLe
          small := each (fun file => file.len < 2 ^ 63) refines.small
          null := each (fun file => file.data = none → file.cap = 0) refines.null
          streams := fun h => (refines.streams h).move fun at_ entry here there =>
            (update_of_ne (unused h at_ here) ..).trans there
          opened := refines.opened }

end Refines

theorem Refines.ends {act : Act} {s' : State} {next : Spec} (refines : Refines s' next)
    (result : Result) (ends : call s act = (result, s'))
    (after : spec.after act result = some next) :
    ∃ next, spec.after act (call s act).1 = some next ∧ Refines (call s act).2 next := by
  rw [ends]
  exact ⟨next, after, refines⟩

theorem Refines.call (refines : Refines s spec) (act : Act) (keeps : Keeps s act) :
    ∃ next, spec.after act (call s act).1 = some next ∧ Refines (call s act).2 next := by
  cases act with
  | fopen path mode memory =>
      rcases refines.open_ (creates mode) path with
        ⟨shut, shut'⟩ | ⟨fd, s', next, opens, opens', below, refines'⟩
      · refine refines.ends (.stream none) ?_ ?_
        · simp [TempFile.call, settle, TempFile.fopen, shut]
        · simp [Spec.after, shut']
      · obtain ⟨last, opened, refines''⟩ := refines'.opens below memory
        refine refines''.ends (.stream (TempFile.fdopen fd memory s').1) ?_ ?_
        · simp [TempFile.call, settle, TempFile.fopen, opens]
        · simp [Spec.after, opens', opened]
  | fdopen fd memory =>
      by_cases outside : fd < 0 ∨ fd ≥ fwMaxOpen
      · have shut : TempFile.fdopen fd memory s = (none, s) :=
          if_pos (outside.imp_right .inl)
        refine refines.ends (.stream none) ?_ ?_
        · simp [TempFile.call, settle, shut]
        · simp [Spec.after, outside]
      · obtain ⟨n, rfl⟩ := Int.eq_ofNat_of_zero_le (a := fd) (by omega)
        obtain ⟨last, opened, refines'⟩ := refines.opens (show n < fwMaxOpen by omega) memory
        refine refines'.ends (.stream (TempFile.fdopen n memory s).1) rfl ?_
        exact (if_neg outside).trans opened
  | mkstemp template =>
      rcases refines.mkstemp template with ⟨none_, refines'⟩ | ⟨fd, name, made, fresh⟩
      · refine refines'.ends (.temp none) ?_ rfl
        simp [TempFile.call, settle, none_]
      · obtain ⟨below, nothing, unknown, refines'⟩ := fresh
        refine refines'.ends (.temp (some (fd, name))) ?_ ?_
        · simp [TempFile.call, settle, made]
        · exact if_pos ⟨below, nothing, unknown⟩
  | fwrite chunk f alloc =>
      rcases refines.fwrite chunk keeps with
        ⟨away, done⟩ | ⟨h, cursor, at_, ⟨refused, none_⟩ | ⟨s', done, refines'⟩⟩
      · refine refines.ends (.wrote 0) ?_ ?_
        · simp [TempFile.call, settle, done]
        · simp [Spec.after, away]
      · refine refines.ends (.wrote 0) ?_ ?_
        · simp [TempFile.call, settle, refused]
        · by_cases nothing : chunk.bytes = []
          · simp [Spec.after, at_, nothing]
          · have apart : 0 ≠ chunk.nmemb.toNat := by
              intro zero
              have whole := chunk.whole
              rw [Sizes.n, ← zero, Nat.mul_zero] at whole
              exact nothing (List.length_eq_zero_iff.mp whole)
            simp [Spec.after, at_, nothing, apart, none_]
      · refine refines'.ends (.wrote chunk.nmemb.toNat) ?_ ?_
        · simp [TempFile.call, settle, done]
        · by_cases nothing : chunk.bytes = []
          · simp [Spec.after, at_, nothing]
          · simp [Spec.after, at_, nothing]
  | fread sizes f =>
      rcases refines.fread sizes f with ⟨away, done⟩ | ⟨h, cursor, s', at_, done, refines'⟩
      · refine refines.ends (.read 0 []) ?_ ?_
        · simp [TempFile.call, settle, done]
        · simp [Spec.after, away]
      · refine refines'.ends (.read
          ((spec.readable cursor sizes.n).length / sizes.size.toNat)
          (spec.readable cursor sizes.n)) ?_ ?_
        · simp [TempFile.call, settle, done]
        · simp [Spec.after, at_]
  | fputc c f alloc =>
      rcases refines.fwrite (.byte (UInt8.ofInt c)) keeps with
        ⟨away, done⟩ | ⟨h, cursor, at_, ⟨refused, none_⟩ | ⟨s', done, refines'⟩⟩
      · refine refines.ends (.int (-1)) ?_ ?_
        · simp [TempFile.call, settle, TempFile.fputc, done]
        · simp [Spec.after, away]
      · refine refines.ends (.int (-1)) ?_ ?_
        · simp [TempFile.call, settle, TempFile.fputc, refused]
        · simp [Spec.after, at_, none_]
      · refine refines'.ends (.int (UInt8.ofInt c).toNat) ?_ ?_
        · rw [TempFile.call, TempFile.fputc, done]
          rfl
        · simp [Spec.after, at_, Chunk.byte]
  | fgetc f =>
      rcases refines.fread .one f with ⟨away, done⟩ | ⟨h, cursor, s', at_, done, refines'⟩
      · refine refines.ends (.int (-1)) ?_ ?_
        · simp [TempFile.call, settle, TempFile.fgetc, done]
        · simp [Spec.after, away]
      · rw [show Sizes.one.n = 1 from rfl, show Sizes.one.size.toNat = 1 from rfl] at done
        rw [show Sizes.one.n = 1 from rfl] at refines'
        have short : (spec.readable cursor 1).length ≤ 1 := List.length_take_le ..
        cases got : spec.readable cursor 1 with
        | nil =>
            rw [got] at done refines'
            rw [List.length_nil, Spec.advance, Nat.add_zero, Spec.setCursor_self at_] at refines'
            refine refines'.ends (.int (-1)) ?_ ?_
            · simp [TempFile.call, settle, TempFile.fgetc, done]
            · simp [Spec.after, at_, got]
        | cons byte rest =>
            obtain rfl : rest = [] := by
              rw [got, List.length_cons] at short
              exact List.length_eq_zero_iff.mp (by omega)
            rw [got] at done refines'
            refine refines'.ends (.int byte.toNat) ?_ ?_
            · simp [TempFile.call, settle, TempFile.fgetc, done]
            · simp [Spec.after, at_, got]
  | fseek f offset whence =>
      rcases refines.fseek f offset whence with ⟨away, done⟩ | ⟨h, cursor, at_, done⟩
      · refine refines.ends (.int (-1)) ?_ ?_
        · simp [TempFile.call, settle, done]
        · simp [Spec.after, away]
      · split at done
        · rename_i none_
          refine refines.ends (.int (-1)) ?_ ?_
          · simp [TempFile.call, settle, done]
          · simp [Spec.after, at_, none_]
        · rename_i aim some_
          obtain ⟨s', done, refines'⟩ := done
          refine refines'.ends (.int 0) ?_ ?_
          · simp [TempFile.call, settle, done]
          · simp [Spec.after, at_, some_]
  | ftell f =>
      rcases refines.ftell f with ⟨away, done⟩ | ⟨h, cursor, at_, done⟩
      · exact refines.ends (.int _) rfl (by simp [Spec.after, away, done])
      · exact refines.ends (.int _) rfl (by simp [Spec.after, at_, done])
  | fclose f =>
      rcases refines.fclose f with ⟨away, done⟩ | ⟨h, cursor, s', at_, done, refines'⟩
      · refine refines.ends (.int (-1)) ?_ ?_
        · simp [TempFile.call, settle, done]
        · simp [Spec.after, away]
      · refine refines'.ends (.int 0) ?_ ?_
        · simp [TempFile.call, settle, done]
        · simp [Spec.after, at_]
  | unlink path =>
      rcases refines.unlink keeps with ⟨unknown, done⟩ | ⟨fd, s', found, done, refines'⟩
      · refine refines.ends (.int (-1)) ?_ ?_
        · simp [TempFile.call, settle, done]
        · simp [Spec.after, unknown]
      · refine refines'.ends (.int 0) ?_ ?_
        · simp [TempFile.call, settle, done]
        · simp [Spec.after, found]

theorem Refines.boot : Refines State.boot Spec.boot where
  dir _ _ := rfl
  beyond _ _ := rfl
  contents := nofun
  apart := nofun
  lenLe := nofun
  small := nofun
  null := nofun
  streams _ := .closed
  opened := rfl

theorem Refines.allows (refines : Refines s spec) (acts : List Act)
    (along : Along step Keeps s acts) : spec.Allows (history s acts) := by
  induction acts generalizing s spec with
  | nil => trivial
  | cons act rest ih =>
      obtain ⟨next, after, refines'⟩ := refines.call act along.1
      exact ⟨next, after, ih refines' along.2⟩

/-- The layer is a map from names to byte strings. -/
theorem allows_of_keeps (acts : List Act) (along : Along step Keeps State.boot acts) :
    Spec.boot.Allows (history State.boot acts) :=
  Refines.boot.allows acts along

def letter (byte : UInt8) (apart : byte ≠ 0) : Name where
  text := ⟨[byte], fun zero => apart (List.mem_singleton.mp zero).symm⟩
  short := (by decide : 1 < 64)

def nameA : Name := letter 97 (by decide)

def nameB : Name := letter 98 (by decide)

def modeW : Option CString := some (letter 119 (by decide)).text

/-- A write past the end, one into another file that finds no memory, and a read of what was
skipped. -/
def writeRead : List Act :=
  [.fopen nameA modeW true, .fputc 120 (some 0) (some fun _ => 0), .fseek (some 0) 3 .set,
    .fputc 121 (some 0) none, .fopen nameB modeW true, .fputc 122 (some 1) none,
    .fseek (some 0) 1 .set, .fgetc (some 0), .fclose (some 0)]

theorem allows_of_keeps_writeRead : Spec.boot.Allows (history State.boot writeRead) := by
  refine allows_of_keeps writeRead ⟨trivial, ?_, trivial, ?_, trivial, ?_, trivial, trivial,
    trivial, trivial⟩
  · intro h stream at_
    cases at_
    exact ⟨by decide, fun _ => ⟨nofun, fun _ _ => nofun⟩⟩
  · intro h stream at_
    cases at_
    refine ⟨by decide, fun _ => ⟨nofun, ?_⟩⟩
    decide +kernel
  · intro h stream at_
    cases at_
    exact ⟨by decide, fun _ => ⟨nofun, fun _ _ => nofun⟩⟩

def skip : List Act :=
  [.fopen nameA modeW true, .fseek (some 0) 1 .set, .fputc 120 (some 0) (some fun _ => 7),
    .fseek (some 0) 0 .set, .fgetc (some 0)]

def reuse : List Act :=
  [.fopen nameA modeW true, .unlink nameA, .fopen nameB modeW true,
    .fputc 120 (some 0) (some fun _ => 7), .fgetc (some 1)]

theorem allows_fails : ¬ Spec.boot.Allows (history State.boot skip) ∧
    ¬ Spec.boot.Allows (history State.boot reuse) := by
  decide +kernel

end Metal.Port.TempFile
