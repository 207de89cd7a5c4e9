import Mathlib.Data.List.Nodup
import Mathlib.Data.List.Perm.Subperm
import Metal.Jit.Rs.Tables

namespace Metal.Jit.Rs

open Metal.Lib Function

/-! Sequences of calls of the symbol tables, beside the finite maps that they stand for. -/

variable {bits s : Nat} {name : Bytes}

inductive SymCall
  | add (name : Bytes)
  | addField (s : Nat) (fname ct : Bytes)
  | find (name : Bytes)
  | fieldCtype (s : Nat) (fname : CString)
  | fieldByIndex (s idx cap : Nat)
  | count (s : Nat)

inductive SymAnswer
  | slot (s : Nat)
  | done
  | ctype (text : Bytes)
  | field (found : Option (Bytes × Bytes))
  | count (n : Nat)

/-- `none` where the call indexes outside an array. -/
def SymTab.call (bits : Nat) (t : SymTab) : SymCall → Option (SymAnswer × SymTab)
  | .add name => some (.slot (t.add bits name).1, (t.add bits name).2)
  | .addField s fname ct => (t.addField s fname ct).map fun t => (.done, t)
  | .find name => some (.slot (t.find bits name), t)
  | .fieldCtype s fname => (t.fieldCtype s fname).map fun text => (.ctype text, t)
  | .fieldByIndex s idx cap => (t.fieldByIndex s idx cap).map fun found => (.field found, t)
  | .count s => (t.count s).map fun n => (.count n, t)

def SymTab.run (bits : Nat) : SymTab → List SymCall → Option (List SymAnswer × SymTab)
  | t, [] => some ([], t)
  | t, call :: rest =>
      (t.call bits call).bind fun (answer, t) =>
        (run bits t rest).map fun (answers, t) => (answer :: answers, t)

abbrev Fields := List (Bytes × Bytes)

def Fields.push (fname ct : Bytes) (fields : Fields) : Fields :=
  if fpc ≤ fields.length ∨ fname = [] ∨ ct = [] then fields else fields ++ [(fname, ct)]

def Fields.ctype (fname : Bytes) (fields : Fields) : Bytes :=
  ((fields.find? (·.1 == fname)).map Prod.snd).getD []

def Fields.byIndex (idx cap : Nat) (fields : Fields) : Option (Bytes × Bytes) :=
  fields[idx]?.filter fun field => 0 < field.2.length && field.2.length < cap

/-- What is read of a struct is read of the record that has the handle; a refused handle has
none. -/
def Reads {α : Type} (m : Registry Bytes Fields) (s : Nat) (none_ answer : α)
    (read : Fields → α) : Prop :=
  (symCap ≤ s → answer = none_) ∧ ∀ name fields, m name = some (s, fields) → answer = read fields

/-- What a call may answer and leave, for a finite map from names to fields. -/
def SymSpec (m : Registry Bytes Fields) : SymCall → SymAnswer → Registry Bytes Fields → Prop
  | .add name, .slot s, next => m.Adds symCap name [] s next
  | .addField s fname ct, .done, next => next = m.update s (Fields.push fname ct)
  | .find name, .slot s, next => next = m ∧ s = m.handleOf symCap name
  | .fieldCtype s fname, .ctype text, next =>
      next = m ∧ Reads m s [] text (Fields.ctype fname.bytes)
  | .fieldByIndex s idx cap, .field found, next =>
      next = m ∧ Reads m s none found (Fields.byIndex idx cap)
  | .count s, .count n, next => next = m ∧ Reads m s 0 n List.length
  | _, _, _ => False

inductive SymRuns : Registry Bytes Fields → List SymCall → List SymAnswer →
    Registry Bytes Fields → Prop
  | nil (m : Registry Bytes Fields) : SymRuns m [] [] m
  | cons {m next last : Registry Bytes Fields} {call : SymCall} {answer : SymAnswer}
      {calls : List SymCall} {answers : List SymAnswer} (step : SymSpec m call answer next)
      (rest : SymRuns next calls answers last) :
      SymRuns m (call :: calls) (answer :: answers) last

def SymTab.row (t : SymTab) (s : Nat) : Fields :=
  (t.fields.drop (s * fpc)).take ((t.heads[s]?.map SymHead.fieldCount).getD 0)

structure SymTab.Fine (t : SymTab) : Prop where
  heads : t.heads.length = symCap
  fields : t.fields.length = symCap * fpc
  counts : ∀ (s : Nat) (head : SymHead), t.heads[s]? = some head → head.fieldCount ≤ fpc

structure SymTab.For (bits : Nat) (t : SymTab) (m : Registry Bytes Fields) : Prop where
  fine : t.Fine
  stands : Stands t.keys t.row symCap (hashName bits) m

variable {t : SymTab} {m : Registry Bytes Fields}

theorem SymTab.Fine.new : SymTab.new.Fine where
  heads := List.length_replicate
  fields := List.length_replicate
  counts := fun s head there => by
    rw [List.eq_of_mem_replicate (List.mem_of_getElem? there)]
    exact Nat.zero_le _

theorem SymTab.For.new (bits : Nat) : SymTab.new.For bits Registry.empty where
  fine := SymTab.Fine.new
  stands := by
    have free : SymTab.new.keys = fun _ => none := by
      funext s
      rw [SymTab.keys]
      cases there : SymTab.new.heads[s]? with
      | none => rfl
      | some head =>
          rw [List.eq_of_mem_replicate (List.mem_of_getElem? there)]
          rfl
    rw [free]
    exact Stands.empty _ _ _

theorem SymTab.Fine.head (fine : t.Fine) (small : s < symCap) : ∃ head, t.heads[s]? = some head :=
  ⟨_, List.getElem?_eq_getElem (by rwa [fine.heads])⟩

variable {head : SymHead}

theorem SymTab.keys_of (there : t.heads[s]? = some head) :
    t.keys s = if head.used then some head.name else none := by rw [SymTab.keys, there]; rfl

theorem SymTab.row_of (there : t.heads[s]? = some head) :
    t.row s = (t.fields.drop (s * fpc)).take head.fieldCount := by rw [SymTab.row, there]; rfl

theorem SymTab.Fine.row_length (fine : t.Fine) (there : t.heads[s]? = some head) :
    (t.row s).length = head.fieldCount := by
  have inside := (List.getElem?_eq_some_iff.mp there).1
  have few := fine.counts s head there
  have size := fine.fields
  rw [fine.heads] at inside
  rw [SymTab.row_of there, List.length_take, List.length_drop, size]
  simp only [symCap, fpc] at *
  omega

theorem SymTab.For.add (for_ : t.For bits m) (name : Bytes) :
    ∃ next, SymSpec m (.add name) (.slot (t.add bits name).1) next ∧
      (t.add bits name).2.For bits next := by
  rw [SymTab.add]
  split
  next full => exact ⟨m, for_.stands.refuse [] (Nat.not_lt.mpr full), for_⟩
  next room =>
    have inside := Nat.not_le.mp room
    obtain ⟨head, there⟩ := for_.fine.head inside
    dsimp only
    generalize same : SymTab.mk (t.heads.set (t.slot bits name) ⟨name, true, 0⟩) t.fields = t'
    have heads : t'.heads = t.heads.set (t.slot bits name) ⟨name, true, 0⟩ := by rw [← same]
    have fields : t'.fields = t.fields := by rw [← same]
    have here : t'.heads[t.slot bits name]? = some ⟨name, true, 0⟩ := by
      rw [heads, set_here there]
    have others {i : Nat} (apart : i ≠ t.slot bits name) : t'.heads[i]? = t.heads[i]? := by
      rw [heads, List.getElem?_set_ne apart.symm]
    obtain ⟨next, adds, stands⟩ := for_.stands.put name t'.row [] inside (by
        change t'.row (t.slot bits name) = []
        rw [SymTab.row_of here, List.take_zero]) fun i apart => by
        rw [SymTab.row, SymTab.row, fields, others apart]
    refine ⟨next, adds, ⟨?_, ?_, ?_⟩, ?_⟩
    · rw [heads, List.length_set, for_.fine.heads]
    · rw [fields, for_.fine.fields]
    · intro i head at_
      rw [heads] at at_
      rcases set_cases at_ with ⟨-, rfl⟩ | ⟨-, old⟩
      · exact Nat.zero_le _
      · exact for_.fine.counts i head old
    · have keys : t'.keys = update t.keys (t.slot bits name) (some name) := by
        funext i
        rcases Decidable.em (i = t.slot bits name) with rfl | apart
        · rw [SymTab.keys_of here, update_self]
          rfl
        · rw [update_of_ne apart, SymTab.keys, SymTab.keys, others apart]
      rw [keys]
      exact stands

theorem SymTab.For.addField (for_ : t.For bits m) (small : s < symCap) (fname ct : Bytes) :
    ∃ t', t.addField s fname ct = some t' ∧ t'.For bits (m.update s (Fields.push fname ct)) := by
  obtain ⟨head, there⟩ := for_.fine.head small
  have length := for_.fine.row_length there
  rw [SymTab.addField, there]
  dsimp only
  split
  next ignored =>
    have nothing : Fields.push fname ct (t.row s) = t.row s := by
      rw [Fields.push, length, if_pos]
      rw [List.length_eq_zero_iff, List.length_eq_zero_iff] at ignored
      exact ignored.resolve_left (Nat.not_le.mpr small)
    exact ⟨t, rfl, for_.fine, for_.stands.change s _ (fun _ _ => nothing.symm) fun _ _ => rfl⟩
  next taken =>
    simp only [not_or, Nat.not_le] at taken
    obtain ⟨-, room, someName, someType⟩ := taken
    have inside : s * fpc + head.fieldCount < t.fields.length := by
      rw [for_.fine.fields]
      simp only [symCap, fpc] at *
      omega
    rw [if_pos inside]
    generalize same : SymTab.mk (t.heads.set s { head with fieldCount := head.fieldCount + 1 })
      (t.fields.set (s * fpc + head.fieldCount) (fname, ct)) = t'
    have heads : t'.heads = t.heads.set s { head with fieldCount := head.fieldCount + 1 } := by
      rw [← same]
    have fields : t'.fields = t.fields.set (s * fpc + head.fieldCount) (fname, ct) := by
      rw [← same]
    have here : t'.heads[s]? = some { head with fieldCount := head.fieldCount + 1 } := by
      rw [heads, set_here there]
    have others {i : Nat} (apart : i ≠ s) : t'.heads[i]? = t.heads[i]? := by
      rw [heads, List.getElem?_set_ne apart.symm]
    have keys : t'.keys = t.keys := by
      funext i
      rcases Decidable.em (i = s) with rfl | apart
      · rw [SymTab.keys_of here, SymTab.keys_of there]
      · rw [SymTab.keys, SymTab.keys, others apart]
    have pushed : t'.row s = Fields.push fname ct (t.row s) := by
      rw [Fields.push, length, if_neg (by
        rw [not_or, not_or, Nat.not_le]
        exact ⟨room, fun none_ => someName (congrArg List.length none_),
          fun none_ => someType (congrArg List.length none_)⟩),
        SymTab.row_of here, SymTab.row_of there, fields, List.drop_set, if_neg (by omega),
        Nat.add_sub_cancel_left, List.take_add_one, List.getElem?_set_self (by
          rw [List.length_drop]
          omega), List.take_set_of_le (Nat.le_refl _)]
      rfl
    have apart_ {i : Nat} (apart : i ≠ s) : t'.row i = t.row i := by
      rw [SymTab.row, SymTab.row, others apart]
      cases at_ : t.heads[i]? with
      | none => rfl
      | some other =>
          have few := for_.fine.counts i other at_
          rw [Option.map_some, Option.getD_some, fields]
          apply List.ext_getElem?
          intro k
          rw [List.getElem?_take, List.getElem?_take]
          split
          next below =>
            rw [List.getElem?_drop, List.getElem?_drop, List.getElem?_set_ne]
            simp only [fpc] at *
            omega
          next => rfl
    refine ⟨t', rfl, ⟨?_, ?_, ?_⟩, ?_⟩
    · rw [heads, List.length_set, for_.fine.heads]
    · rw [fields, List.length_set, for_.fine.fields]
    · intro i old at_
      rw [heads] at at_
      rcases set_cases at_ with ⟨-, rfl⟩ | ⟨-, found⟩
      · exact room
      · exact for_.fine.counts i old found
    · rw [keys]
      exact for_.stands.change s _ (fun _ _ => pushed) fun i apart => apart_ apart

theorem searchField_eq {fields : List (Bytes × Bytes)} (fname : CString) {left d : Nat}
    (inside : d + left ≤ fields.length) :
    searchField fields fname left d =
      some (Fields.ctype fname.bytes ((fields.drop d).take left)) := by
  induction left generalizing d with
  | zero => rfl
  | succ left ih =>
      rw [searchField, List.getElem?_eq_getElem (by omega)]
      dsimp only
      rw [List.drop_eq_getElem_cons (by omega), List.take_succ_cons, Fields.ctype, List.find?_cons]
      split
      next same =>
        rw [beq_iff_eq.mpr same.2]
        rfl
      next different =>
        have other : (fields[d].1 == fname.bytes) = false := by
          rw [beq_eq_false_iff_ne]
          exact fun same => different ⟨congrArg List.length same, same⟩
        rw [other, ih (by omega)]
        rfl

theorem SymTab.For.row (for_ : t.For bits m) {fields : Fields} (there : m name = some (s, fields)) :
    s < symCap ∧ t.row s = fields :=
  have entry := (for_.stands.entry name s fields).mp there
  ⟨entry.1, entry.2.2⟩

theorem SymTab.For.find (for_ : t.For bits m) (name : Bytes) :
    t.find bits name = m.handleOf symCap name := by
  rw [SymTab.find]
  rcases for_.stands.slotOf name with ⟨own, inside, same⟩ | ⟨absent, full | free⟩
  · have used : (t.heads[t.slot bits name]?.map SymHead.used).getD false = true := by
      obtain ⟨head, there⟩ := for_.fine.head inside
      change t.heads[t.slot bits name]? = _ at there
      change t.keys (t.slot bits name) = _ at own
      rw [SymTab.keys_of there] at own
      rw [there]
      cases used : head.used with
      | true => exact used
      | false =>
          rw [used, if_neg Bool.false_ne_true] at own
          exact (Option.some_ne_none _ own.symm).elim
    rw [if_pos ⟨inside, used⟩]
    exact same
  · rw [Registry.handleOf, absent, if_neg fun both => Nat.lt_irrefl symCap (by
      have small : t.slot bits name < symCap := both.1
      rwa [show t.slot bits name = symCap from full] at small)]
    rfl
  · have unused : ¬ (t.heads[t.slot bits name]?.map SymHead.used).getD false = true := by
      intro used
      change t.keys (t.slot bits name) = none at free
      rw [SymTab.keys] at free
      cases there : t.heads[t.slot bits name]? with
      | none =>
          rw [there] at used
          exact Bool.noConfusion used
      | some head =>
          rw [there] at used free
          change (if head.used then some head.name else none) = none at free
          change head.used = true at used
          rw [if_pos used] at free
          exact Option.some_ne_none _ free
    rw [Registry.handleOf, absent, if_neg fun both => unused both.2]
    rfl

theorem SymTab.For.fieldCtype (for_ : t.For bits m) (small : s < symCap) (fname : CString) :
    ∃ text, t.fieldCtype s fname = some text ∧ Reads m s [] text (Fields.ctype fname.bytes) := by
  obtain ⟨head, there⟩ := for_.fine.head small
  have few := for_.fine.counts s head there
  refine ⟨Fields.ctype fname.bytes (t.row s), ?_, fun full => (Nat.not_le.mpr small full).elim,
    fun name fields entry => ?_⟩
  · rw [SymTab.fieldCtype, there]
    dsimp only
    rw [searchField_eq fname (by
      rw [for_.fine.fields]
      simp only [symCap, fpc] at *
      omega), ← SymTab.row_of there]
  · rw [(for_.row entry).2]

theorem SymTab.For.count (for_ : t.For bits m) (s : Nat) :
    ∃ n, t.count s = some n ∧ Reads m s 0 n List.length := by
  rw [SymTab.count]
  split
  next full =>
    exact ⟨0, rfl, fun _ => rfl, fun name fields entry =>
      (Nat.not_lt.mpr full (for_.row entry).1).elim⟩
  next small =>
    obtain ⟨head, there⟩ := for_.fine.head (Nat.not_le.mp small)
    rw [there]
    refine ⟨head.fieldCount, rfl, fun full => (small full).elim, fun name fields entry => ?_⟩
    rw [← (for_.row entry).2, for_.fine.row_length there]

theorem SymTab.For.fieldByIndex (for_ : t.For bits m) (s idx cap : Nat) :
    ∃ found, t.fieldByIndex s idx cap = some found ∧
      Reads m s none found (Fields.byIndex idx cap) := by
  rw [SymTab.fieldByIndex]
  split
  next full =>
    exact ⟨none, rfl, fun _ => rfl, fun name fields entry =>
      (Nat.not_lt.mpr full (for_.row entry).1).elim⟩
  next small =>
    obtain ⟨head, there⟩ := for_.fine.head (Nat.not_le.mp small)
    have length := for_.fine.row_length there
    have few := for_.fine.counts s head there
    rw [there]
    dsimp only
    split
    next outside =>
      refine ⟨none, rfl, fun full => (small full).elim, fun name fields entry => ?_⟩
      rw [Fields.byIndex, ← (for_.row entry).2, List.getElem?_eq_none (by rw [length]; exact outside)]
      rfl
    next below =>
      have inside : s * fpc + idx < t.fields.length := by
        rw [for_.fine.fields]
        simp only [symCap, fpc] at *
        omega
      have here : (t.row s)[idx]? = some t.fields[s * fpc + idx] := by
        rw [SymTab.row_of there, List.getElem?_take_of_lt (Nat.not_le.mp below),
          List.getElem?_drop, List.getElem?_eq_getElem inside]
      rw [List.getElem?_eq_getElem inside]
      dsimp only
      split
      next unfit =>
        refine ⟨none, rfl, fun full => (small full).elim, fun name fields entry => ?_⟩
        rw [Fields.byIndex, ← (for_.row entry).2, here, Option.filter_some_neg]
        rw [Bool.and_eq_false_iff, decide_eq_false_iff_not, decide_eq_false_iff_not]
        omega
      next fits =>
        refine ⟨_, rfl, fun full => (small full).elim, fun name fields entry => ?_⟩
        rw [Fields.byIndex, ← (for_.row entry).2, here, Option.filter_some_pos]
        rw [Bool.and_eq_true, decide_eq_true_iff, decide_eq_true_iff]
        omega

def SymCall.InRange : SymCall → Prop
  | .addField s .. => s < symCap
  | .fieldCtype s _ => s < symCap
  | _ => True

theorem SymTab.For.call (for_ : t.For bits m) {call : SymCall} (inRange : call.InRange) :
    ∃ answer t' next, t.call bits call = some (answer, t') ∧ SymSpec m call answer next ∧
      t'.For bits next := by
  cases call with
  | add name =>
      obtain ⟨next, spec, for'⟩ := for_.add name
      exact ⟨_, _, next, rfl, spec, for'⟩
  | addField s fname ct =>
      obtain ⟨t', added, for'⟩ := for_.addField inRange fname ct
      refine ⟨.done, t', _, ?_, rfl, for'⟩
      rw [SymTab.call, added]
      rfl
  | find name => exact ⟨_, t, m, rfl, ⟨rfl, for_.find name⟩, for_⟩
  | fieldCtype s fname =>
      obtain ⟨text, found, reads⟩ := for_.fieldCtype inRange fname
      refine ⟨.ctype text, t, m, ?_, ⟨rfl, reads⟩, for_⟩
      rw [SymTab.call, found]
      rfl
  | fieldByIndex s idx cap =>
      obtain ⟨field, found, reads⟩ := for_.fieldByIndex s idx cap
      refine ⟨.field field, t, m, ?_, ⟨rfl, reads⟩, for_⟩
      rw [SymTab.call, found]
      rfl
  | count s =>
      obtain ⟨n, found, reads⟩ := for_.count s
      refine ⟨.count n, t, m, ?_, ⟨rfl, reads⟩, for_⟩
      rw [SymTab.call, found]
      rfl

theorem SymTab.For.call_none (for_ : t.For bits m) {call : SymCall} (outside : ¬ call.InRange) :
    t.call bits call = none := by
  have no (s : Nat) (full : ¬ s < symCap) : t.heads[s]? = none :=
    List.getElem?_eq_none (by rw [for_.fine.heads]; exact Nat.not_lt.mp full)
  cases call with
  | addField s fname ct =>
      rw [SymTab.call, SymTab.addField, no s outside]
      rfl
  | fieldCtype s fname =>
      rw [SymTab.call, SymTab.fieldCtype, no s outside]
      rfl
  | add name | find name | fieldByIndex s idx cap | count s => exact (outside trivial).elim

/-- The calls are answered as a finite map answers them, and none indexes outside. -/
def SymRefines (bits : Nat) (calls : List SymCall) : Prop :=
  ∃ answers t m, SymTab.new.run bits calls = some (answers, t) ∧
    SymRuns Registry.empty calls answers m

theorem SymTab.For.run (for_ : t.For bits m) {calls : List SymCall}
    (inRange : ∀ call ∈ calls, call.InRange) :
    ∃ answers t' last, t.run bits calls = some (answers, t') ∧ SymRuns m calls answers last ∧
      t'.For bits last := by
  induction calls generalizing t m with
  | nil => exact ⟨[], t, m, rfl, .nil m, for_⟩
  | cons call rest ih =>
      rw [List.forall_mem_cons] at inRange
      obtain ⟨answer, t', next, called, spec, for'⟩ := for_.call inRange.1
      obtain ⟨answers, last, m', ran, runs, ends⟩ := ih for' inRange.2
      refine ⟨answer :: answers, last, m', ?_, .cons spec runs, ends⟩
      rw [SymTab.run, called, Option.bind_some]
      dsimp only
      rw [ran]
      rfl

theorem SymTab.For.inRange (for_ : t.For bits m) {calls : List SymCall}
    {result : List SymAnswer × SymTab} (ran : t.run bits calls = some result) :
    ∀ call ∈ calls, call.InRange := by
  induction calls generalizing t m result with
  | nil => exact fun _ member => (List.not_mem_nil member).elim
  | cons call rest ih =>
      rw [List.forall_mem_cons]
      rcases Classical.em call.InRange with inRange | outside
      · obtain ⟨answer, t', next, called, -, for'⟩ := for_.call inRange
        rw [SymTab.run, called, Option.bind_some, Option.map_eq_some_iff] at ran
        obtain ⟨result, later, -⟩ := ran
        exact ⟨inRange, ih for' later⟩
      · rw [SymTab.run, for_.call_none outside] at ran
        exact (Option.some_ne_none _ ran.symm).elim

theorem symRefines_iff (bits : Nat) (calls : List SymCall) :
    SymRefines bits calls ↔ ∀ call ∈ calls, call.InRange := by
  constructor
  · rintro ⟨answers, t, m, ran, -⟩
    exact (SymTab.For.new bits).inRange ran
  · intro inRange
    obtain ⟨answers, t, m, ran, runs, -⟩ := (SymTab.For.new bits).run inRange
    exact ⟨answers, t, m, ran, runs⟩

inductive FnCall
  | add (name : Bytes) (ret : Option CString)
  | addParam (s p : Nat) (ct : Option CString)
  | paramCtype (name : Bytes) (p : Nat)
  | retCtype (name : Bytes)

inductive FnAnswer
  | slot (s : Nat)
  | done
  | ctype (text : Bytes)

def FnTab.call (bits : Nat) (t : FnTab) : FnCall → Option (FnAnswer × FnTab)
  | .add name ret => (t.add bits name ret).map fun (s, t) => (.slot s, t)
  | .addParam s p ct => (t.addParam s p ct).map fun t => (.done, t)
  | .paramCtype name p => (t.paramCtype bits name p).map fun text => (.ctype text, t)
  | .retCtype name => (t.retCtype bits name).map fun text => (.ctype text, t)

def FnTab.run (bits : Nat) : FnTab → List FnCall → Option (List FnAnswer × FnTab)
  | t, [] => some ([], t)
  | t, call :: rest =>
      (t.call bits call).bind fun (answer, t) =>
        (run bits t rest).map fun (answers, t) => (answer :: answers, t)

/-- The type that a function returns, and those of its parameters; one without bytes is
unknown. -/
structure Signature where
  ret : Bytes
  params : List Bytes

def Signature.fresh (ret : Option CString) : Signature := ⟨span ret, List.replicate fnMaxp []⟩

def Signature.setParam (p : Nat) (ct : Option CString) (sig : Signature) : Signature :=
  if fnMaxp ≤ p ∨ span ct = [] then sig else { sig with params := sig.params.set p (span ct) }

/-- What is read under a name is read of its record; without one it is nothing. -/
def ReadsName (m : Registry Bytes Signature) (name : Bytes) (text : Bytes)
    (read : Signature → Bytes) : Prop :=
  text = ((m name).map fun entry => read entry.2).getD []

/-- What a call may answer and leave, for a finite map from names to signatures. -/
def FnSpec (m : Registry Bytes Signature) : FnCall → FnAnswer → Registry Bytes Signature → Prop
  | .add name ret, .slot s, next => m.Adds symCap name (Signature.fresh ret) s next
  | .addParam s p ct, .done, next => next = m.update s (Signature.setParam p ct)
  | .paramCtype name p, .ctype text, next =>
      next = m ∧ ReadsName m name text fun sig => sig.params.getD p []
  | .retCtype name, .ctype text, next => next = m ∧ ReadsName m name text Signature.ret
  | _, _, _ => False

inductive FnRuns : Registry Bytes Signature → List FnCall → List FnAnswer →
    Registry Bytes Signature → Prop
  | nil (m : Registry Bytes Signature) : FnRuns m [] [] m
  | cons {m next last : Registry Bytes Signature} {call : FnCall} {answer : FnAnswer}
      {calls : List FnCall} {answers : List FnAnswer} (step : FnSpec m call answer next)
      (rest : FnRuns next calls answers last) :
      FnRuns m (call :: calls) (answer :: answers) last

def FnTab.row (t : FnTab) (s : Nat) : Signature where
  ret := (t.rows[s]?.map FnRow.ret).getD []
  params := (t.params.drop (s * fnMaxp)).take fnMaxp

structure FnTab.Fine (t : FnTab) : Prop where
  rows : t.rows.length = symCap
  params : t.params.length = symCap * fnMaxp

structure FnTab.For (bits : Nat) (t : FnTab) (m : Registry Bytes Signature) : Prop where
  fine : t.Fine
  stands : Stands t.keys t.row symCap (hashName bits) m

section Functions

variable {t : FnTab} {m : Registry Bytes Signature}

theorem FnTab.For.new (bits : Nat) : FnTab.new.For bits Registry.empty where
  fine := ⟨List.length_replicate, List.length_replicate⟩
  stands := by
    have free : FnTab.new.keys = fun _ => none := by
      funext s
      rw [FnTab.keys]
      cases there : FnTab.new.rows[s]? with
      | none => rfl
      | some row =>
          rw [List.eq_of_mem_replicate (List.mem_of_getElem? there)]
          rfl
    rw [free]
    exact Stands.empty _ _ _

theorem FnTab.Fine.row (fine : t.Fine) (small : s < symCap) : ∃ row, t.rows[s]? = some row :=
  ⟨_, List.getElem?_eq_getElem (by rwa [fine.rows])⟩

theorem FnTab.keys_of {row : FnRow} (there : t.rows[s]? = some row) :
    t.keys s = if row.used then some row.name else none := by rw [FnTab.keys, there]; rfl

theorem FnTab.Fine.params_row (fine : t.Fine) (small : s < symCap) :
    s * fnMaxp + fnMaxp ≤ t.params.length := by
  rw [fine.params]
  simp only [symCap, fnMaxp] at *
  omega

variable {params : List Bytes}

theorem length_cleared {at_ n : Nat} (inside : at_ + n ≤ params.length) :
    (cleared params at_ n).length = params.length := by
  rw [cleared, List.length_append, List.length_append, List.length_take, List.length_replicate,
    List.length_drop]
  omega

theorem cleared_other {i : Nat} (apart : i ≠ s) (inside : s * fnMaxp + fnMaxp ≤ params.length) :
    ((cleared params (s * fnMaxp) fnMaxp).drop (i * fnMaxp)).take fnMaxp =
      (params.drop (i * fnMaxp)).take fnMaxp := by
  have front : (params.take (s * fnMaxp)).length = s * fnMaxp := by
    rw [List.length_take]
    omega
  apply List.ext_getElem?
  intro k
  rw [List.getElem?_take, List.getElem?_take]
  split
  next below =>
    rw [List.getElem?_drop, List.getElem?_drop, cleared, List.append_assoc]
    rcases Nat.lt_or_gt_of_ne apart with before | after
    · have less : i * fnMaxp + k < s * fnMaxp := by
        simp only [fnMaxp] at *
        omega
      rw [List.getElem?_append_left (by rwa [front]), List.getElem?_take_of_lt less]
    · have more : s * fnMaxp + fnMaxp ≤ i * fnMaxp + k := by
        simp only [fnMaxp] at *
        omega
      rw [List.getElem?_append_right (by rw [front]; omega), front,
        List.getElem?_append_right (by rw [List.length_replicate]; omega), List.length_replicate,
        List.getElem?_drop]
      congr 1
      omega
  next => rfl

theorem cleared_own (inside : s * fnMaxp + fnMaxp ≤ params.length) :
    ((cleared params (s * fnMaxp) fnMaxp).drop (s * fnMaxp)).take fnMaxp =
      List.replicate fnMaxp [] := by
  have front : (params.take (s * fnMaxp)).length = s * fnMaxp := by
    rw [List.length_take]
    omega
  rw [cleared, List.append_assoc, List.drop_left' front, List.take_left' List.length_replicate]

section For

variable (for_ : t.For bits m)
include for_

theorem FnTab.For.add (name : Bytes) (ret : Option CString) :
    ∃ s t' next, t.add bits name ret = some (s, t') ∧
      FnSpec m (.add name ret) (.slot s) next ∧ t'.For bits next := by
  rw [FnTab.add]
  split
  next full =>
    exact ⟨_, t, m, rfl, for_.stands.refuse _ (Nat.not_lt.mpr full), for_⟩
  next room =>
    have inside := Nat.not_le.mp room
    have params := for_.fine.params_row inside
    obtain ⟨row, there⟩ := for_.fine.row inside
    rw [if_pos ⟨(List.getElem?_eq_some_iff.mp there).1, params⟩]
    generalize same : FnTab.mk (t.rows.set (t.slot bits name) ⟨name, true, span ret⟩)
      (cleared t.params (t.slot bits name * fnMaxp) fnMaxp) = t'
    have rows : t'.rows = t.rows.set (t.slot bits name) ⟨name, true, span ret⟩ := by rw [← same]
    have params' : t'.params = cleared t.params (t.slot bits name * fnMaxp) fnMaxp := by
      rw [← same]
    have here : t'.rows[t.slot bits name]? = some ⟨name, true, span ret⟩ := by
      rw [rows, set_here there]
    have others {i : Nat} (apart : i ≠ t.slot bits name) : t'.rows[i]? = t.rows[i]? := by
      rw [rows, List.getElem?_set_ne apart.symm]
    obtain ⟨next, adds, stands⟩ := for_.stands.put name t'.row (Signature.fresh ret)
      inside (by
        change t'.row (t.slot bits name) = _
        rw [FnTab.row, here, params', cleared_own params]
        rfl) fun i apart => by
        change i ≠ t.slot bits name at apart
        rw [FnTab.row, FnTab.row, others apart, params', cleared_other apart params]
    refine ⟨_, t', next, rfl, adds, ⟨?_, ?_⟩, ?_⟩
    · rw [rows, List.length_set, for_.fine.rows]
    · rw [params', length_cleared params, for_.fine.params]
    · have keys : t'.keys = update t.keys (t.slot bits name) (some name) := by
        funext i
        rcases Decidable.em (i = t.slot bits name) with rfl | apart
        · rw [FnTab.keys_of here, update_self]
          rfl
        · rw [update_of_ne apart, FnTab.keys, FnTab.keys, others apart]
      rw [keys]
      exact stands

theorem FnTab.For.addParam (s p : Nat) (ct : Option CString) :
    ∃ t', t.addParam s p ct = some t' ∧ t'.For bits (m.update s (Signature.setParam p ct)) := by
  rw [FnTab.addParam]
  split
  next ignored =>
    refine ⟨t, rfl, for_.fine, for_.stands.change s _ (fun key taken => ?_) fun _ _ => rfl⟩
    have small : s < symCap := by
      rw [FnTab.keys] at taken
      by_contra full
      rw [List.getElem?_eq_none (by rw [for_.fine.rows]; exact Nat.not_lt.mp full)] at taken
      exact Option.some_ne_none _ taken.symm
    rw [Signature.setParam, if_pos (ignored.resolve_left (Nat.not_le.mpr small))]
  next taken =>
    simp only [not_or, Nat.not_le] at taken
    obtain ⟨small, low, some_⟩ := taken
    have params := for_.fine.params_row small
    rw [if_pos (by omega)]
    refine ⟨_, rfl, ⟨for_.fine.rows, List.length_set.trans for_.fine.params⟩,
      for_.stands.change s _ (fun _ _ => ?_) fun i apart => ?_⟩
    · rw [Signature.setParam, if_neg (by rw [not_or, Nat.not_le]; exact ⟨low, some_⟩)]
      change Signature.mk _ (((t.params.set _ _).drop _).take _) = _
      rw [List.drop_set, if_neg (by omega), Nat.add_sub_cancel_left, List.take_set]
      rfl
    · change Signature.mk _ (((t.params.set _ _).drop _).take _) = _
      rw [FnTab.row]
      congr 1
      apply List.ext_getElem?
      intro k
      rw [List.getElem?_take, List.getElem?_take]
      split
      next below =>
        rw [List.getElem?_drop, List.getElem?_drop, List.getElem?_set_ne]
        simp only [fnMaxp] at *
        omega
      next => rfl

theorem FnTab.For.lookup (name : Bytes) :
    (∃ row, t.slot bits name < symCap ∧ t.rows[t.slot bits name]? = some row ∧ row.used = true ∧
        row.name = name ∧ m name = some (t.slot bits name, t.row (t.slot bits name))) ∨
      (m name = none ∧ ∀ row, t.slot bits name < symCap →
        t.rows[t.slot bits name]? = some row → row.used = false) := by
  rcases for_.stands.slotOf name with ⟨own, inside, -⟩ | ⟨absent, full | free⟩
  · obtain ⟨row, there⟩ := for_.fine.row inside
    change t.keys (t.slot bits name) = _ at own
    have entry := (for_.stands.entry name (t.slot bits name) _).mpr ⟨inside, own, rfl⟩
    change t.rows[t.slot bits name]? = _ at there
    rw [FnTab.keys_of there] at own
    split at own
    next used => exact .inl ⟨row, inside, there, used, Option.some.inj own, entry⟩
    next => exact (Option.some_ne_none _ own.symm).elim
  · exact .inr ⟨absent, fun row small => (Nat.lt_irrefl symCap (by
      rwa [show t.slot bits name = symCap from full] at small)).elim⟩
  · refine .inr ⟨absent, fun row _ there => ?_⟩
    change t.keys (t.slot bits name) = none at free
    rw [FnTab.keys_of there] at free
    split at free
    · exact (Option.some_ne_none _ free).elim
    next unused => exact Bool.eq_false_iff.mpr unused

theorem FnTab.For.retCtype (name : Bytes) :
    ∃ text, t.retCtype bits name = some text ∧ ReadsName m name text Signature.ret := by
  rw [FnTab.retCtype]
  rcases for_.lookup name with ⟨row, inside, there, used, rfl, entry⟩ | ⟨absent, unused⟩
  · rw [if_pos inside, there]
    dsimp only
    rw [if_pos ⟨used, rfl⟩]
    refine ⟨_, rfl, ?_⟩
    rw [ReadsName, entry]
    change row.ret = (t.rows[_]?.map FnRow.ret).getD []
    rw [there]
    rfl
  · have nothing : ReadsName m name [] Signature.ret := by
      rw [ReadsName, absent]
      rfl
    split
    next small =>
      obtain ⟨row, there⟩ := for_.fine.row small
      rw [there]
      dsimp only
      rw [unused row small there, if_neg fun both => Bool.false_ne_true both.1]
      exact ⟨[], rfl, nothing⟩
    next => exact ⟨[], rfl, nothing⟩

theorem FnTab.For.paramCtype (name : Bytes) (p : Nat) :
    ∃ text, t.paramCtype bits name p = some text ∧
      ReadsName m name text fun sig => sig.params.getD p [] := by
  rw [FnTab.paramCtype]
  rcases for_.lookup name with ⟨row, inside, there, used, rfl, entry⟩ | ⟨absent, unused⟩
  · have params := for_.fine.params_row inside
    have reads : ((m row.name).map fun entry => entry.2.params.getD p []).getD [] =
        ((t.params.drop (t.slot bits row.name * fnMaxp)).take fnMaxp).getD p [] := by
      rw [entry]
      rfl
    split
    next high =>
      refine ⟨[], rfl, ?_⟩
      rw [ReadsName, reads, List.getD_eq_getElem?_getD,
        List.getElem?_eq_none (by rw [List.length_take]; omega)]
      rfl
    next low =>
      have at_ : t.slot bits row.name * fnMaxp + p < t.params.length := by omega
      dsimp only
      rw [if_pos inside, there]
      dsimp only
      rw [if_pos ⟨used, rfl⟩, List.getElem?_eq_getElem at_]
      refine ⟨_, rfl, ?_⟩
      rw [ReadsName, reads, List.getD_eq_getElem?_getD,
        List.getElem?_take_of_lt (Nat.not_le.mp low), List.getElem?_drop,
        List.getElem?_eq_getElem at_]
      rfl
  · have nothing : ReadsName m name [] fun sig => sig.params.getD p [] := by
      rw [ReadsName, absent]
      rfl
    split
    next => exact ⟨[], rfl, nothing⟩
    next =>
      dsimp only
      split
      next small =>
        obtain ⟨row, there⟩ := for_.fine.row small
        rw [there]
        dsimp only
        rw [unused row small there, if_neg fun both => Bool.false_ne_true both.1]
        exact ⟨[], rfl, nothing⟩
      next => exact ⟨[], rfl, nothing⟩

theorem FnTab.For.call (call : FnCall) :
    ∃ answer t' next, t.call bits call = some (answer, t') ∧ FnSpec m call answer next ∧
      t'.For bits next := by
  cases call with
  | add name ret =>
      obtain ⟨s, t', next, added, spec, for'⟩ := for_.add name ret
      refine ⟨.slot s, t', next, ?_, spec, for'⟩
      rw [FnTab.call, added]
      rfl
  | addParam s p ct =>
      obtain ⟨t', added, for'⟩ := for_.addParam s p ct
      refine ⟨.done, t', _, ?_, rfl, for'⟩
      rw [FnTab.call, added]
      rfl
  | paramCtype name p =>
      obtain ⟨text, found, reads⟩ := for_.paramCtype name p
      refine ⟨.ctype text, t, m, ?_, ⟨rfl, reads⟩, for_⟩
      rw [FnTab.call, found]
      rfl
  | retCtype name =>
      obtain ⟨text, found, reads⟩ := for_.retCtype name
      refine ⟨.ctype text, t, m, ?_, ⟨rfl, reads⟩, for_⟩
      rw [FnTab.call, found]
      rfl

theorem FnTab.For.run (calls : List FnCall) :
    ∃ answers t' last, t.run bits calls = some (answers, t') ∧ FnRuns m calls answers last := by
  induction calls generalizing t m with
  | nil => exact ⟨[], t, m, rfl, .nil m⟩
  | cons call rest ih =>
      obtain ⟨answer, t', next, called, spec, for'⟩ := for_.call call
      obtain ⟨answers, last, m', ran, runs⟩ := ih for'
      refine ⟨answer :: answers, last, m', ?_, .cons spec runs⟩
      rw [FnTab.run, called, Option.bind_some]
      dsimp only
      rw [ran]
      rfl

end For

end Functions

def FnRefines (bits : Nat) (calls : List FnCall) : Prop :=
  ∃ answers t m, FnTab.new.run bits calls = some (answers, t) ∧
    FnRuns Registry.empty calls answers m

/-- Both tables refine finite maps, with no index outside an array, if and only if no refused
slot is used as an index of the struct table. -/
theorem tables_refine_iff (bits : Nat) (structs : List SymCall) (functions : List FnCall) :
    (SymRefines bits structs ∧ FnRefines bits functions) ↔
      ∀ call ∈ structs, call.InRange :=
  (and_iff_left ((FnTab.For.new bits).run functions)).trans (symRefines_iff bits structs)

theorem SymRuns.names_kept {m last : Registry Bytes Fields} {names : List Bytes}
    {answers : List SymAnswer} (runs : SymRuns m (names.map .add) answers last)
    (accepted : .slot symCap ∉ answers) :
    (∀ name, m name ≠ none → last name ≠ none) ∧ ∀ name ∈ names, last name ≠ none := by
  induction names generalizing m answers with
  | nil =>
      cases runs
      exact ⟨fun _ => id, fun _ member => (List.not_mem_nil member).elim⟩
  | cons name rest ih =>
      obtain ⟨next, answer, later, rfl, step, runs⟩ : ∃ next answer later,
          answers = answer :: later ∧ SymSpec m (.add name) answer next ∧
            SymRuns next (rest.map .add) later last := by
        cases runs with
        | cons step runs => exact ⟨_, _, _, rfl, step, runs⟩
      obtain ⟨kept, all⟩ := ih runs fun member => accepted (List.mem_cons_of_mem _ member)
      cases answer with
      | slot s =>
          rcases step with ⟨-, -, -, rfl⟩ | ⟨rfl, -, -, -⟩
          · have own : last name ≠ none := kept name (by
              rw [update_self]
              exact Option.some_ne_none _)
            refine ⟨fun other old => ?_, List.forall_mem_cons.mpr ⟨own, all⟩⟩
            rcases Decidable.em (other = name) with rfl | different
            · exact own
            · exact kept other (by rwa [update_of_ne different])
          · exact (accepted List.mem_cons_self).elim
      | done | ctype text | field found | count n => exact step.elim

theorem refused_of_many (bits : Nat) {names : List Bytes} (distinct : names.Nodup)
    (many : symCap < names.length) :
    ∃ answers t, SymTab.new.run bits (names.map .add) = some (answers, t) ∧
      .slot symCap ∈ answers := by
  obtain ⟨answers, t, m, ran, runs, for_⟩ :=
    (SymTab.For.new bits).run fun call (member : call ∈ names.map .add) => by
      obtain ⟨name, -, rfl⟩ := List.mem_map.mp member
      exact trivial
  refine ⟨answers, t, ran, ?_⟩
  by_contra accepted
  obtain ⟨-, all⟩ := runs.names_kept accepted
  have inside : names ⊆ (List.range symCap).filterMap t.keys := by
    intro name member
    obtain ⟨⟨s, fields⟩, there⟩ := Option.ne_none_iff_exists'.mp (all name member)
    obtain ⟨small, here, -⟩ := (for_.stands.entry name s fields).mp there
    exact List.mem_filterMap.mpr ⟨s, List.mem_range.mpr small, here⟩
  have few := (distinct.subperm inside).length_le
  have size := List.length_filterMap_le t.keys (List.range symCap)
  rw [List.length_range] at size
  omega

def manyNames : List Bytes := (List.range 513).map fun n => List.replicate n 97

/-- A name is refused, and a field added under the refused slot is outside the array. -/
theorem refused_outside :
    (∃ answers t, SymTab.new.run 64 (manyNames.map .add) = some (answers, t) ∧
      .slot symCap ∈ answers) ∧
    ¬ SymRefines 64 (manyNames.map SymCall.add ++ [SymCall.addField symCap [120] [105]]) := by
  constructor
  · refine refused_of_many 64 ?_ ?_
    · refine List.Nodup.map (fun n k same => ?_) List.nodup_range
      have lengths := congrArg List.length same
      rwa [List.length_replicate, List.length_replicate] at lengths
    · rw [manyNames, List.length_map, List.length_range]
      decide
  · rintro ⟨answers, t, m, ran, -⟩
    have inRange := (SymTab.For.new 64).inRange ran (.addField symCap [120] [105])
      (List.mem_append_right _ List.mem_cons_self)
    exact Nat.lt_irrefl symCap inRange

end Metal.Jit.Rs
