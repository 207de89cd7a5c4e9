import Metal.Net.Asgi.Routes
import Metal.Lib.Slots
import Mathlib.Data.List.Forall2

namespace Metal.Net.Asgi.Routes

open Metal.Lib

/-! The table of routes is the list of what was registered, while streams go into clean
slots. -/

theorem text_cstrCopy {dlen : Nat} {src : CString} (short : src.bytes.length < dlen) :
    text (cstrCopy dlen src) = src.bytes := by
  have whole : src.bytes.take (dlen - 1) = src.bytes := List.take_of_length_le (by omega)
  obtain ⟨rest, zeros⟩ : ∃ rest, dlen - src.bytes.length = rest + 1 :=
    ⟨dlen - src.bytes.length - 1, by omega⟩
  rw [cstrCopy, whole, zeros, List.replicate_succ]
  exact congrArg CString.bytes (CString.ofBytes_append src (List.replicate rest 0))

theorem pathMatches_iff {pattern path : Bytes} :
    pathMatches pattern path = true ↔ Covers pattern path := by
  unfold pathMatches Covers
  split
  · rename_i wild
    rw [List.isPrefixOf_iff_prefix]
    have wild := List.isSuffixOf_iff_suffix.mp wild
    constructor
    · exact fun begins => .inr ⟨wild, begins⟩
    · rintro (rfl | ⟨_, begins⟩)
      · exact List.dropLast_prefix pattern
      · exact begins
  · rename_i plain
    have plain := fun wild => plain (List.isSuffixOf_iff_suffix.mpr wild)
    rw [beq_iff_eq]
    exact ⟨.inl, fun covers => covers.resolve_right fun wild => plain wild.1⟩

theorem take_pathQueryOff (path : Bytes) : path.take (pathQueryOff path) = unqueried path := by
  rw [pathQueryOff, unqueried]
  exact (List.prefix_iff_eq_take.mp (List.takeWhile_prefix _)).symm

theorem covers_take {pattern path : Bytes} {n : Nat} (short : pattern.length < n) :
    Covers pattern (unqueried (path.take n)) ↔ Covers pattern (unqueried path) := by
  have cut : unqueried (path.take n) = (unqueried path).take n := by
    rw [unqueried, unqueried, List.take_takeWhile]
  have base : pattern.dropLast.length ≤ n := by
    rw [List.length_dropLast]
    omega
  have same : pattern = (unqueried path).take n ↔ pattern = unqueried path := by
    constructor
    · intro equal
      have length := congrArg List.length equal
      rw [List.length_take] at length
      rwa [List.take_of_length_le (by omega)] at equal
    · rintro rfl
      exact (List.take_of_length_le (by omega)).symm
  rw [cut, Covers, Covers, same, List.prefix_take_iff]
  exact or_congr_right (and_congr_right fun _ => and_iff_left base)

structure Slot.Matches (r : Slot) (entry : Entry) : Prop where
  used : r.used = true
  method : text r.method = entry.method
  path : text r.path = entry.path
  service : (⟨r.ctype, r.source⟩ : Service) = entry.service

structure Lists (slots : List Slot) (taken free : List Slot) (entries : List Entry) : Prop where
  split_ : slots = taken ++ free
  matches_ : List.Forall₂ Slot.Matches taken entries
  free : ∀ r ∈ free, r.used = false

variable {s : State} {taken free : List Slot} {entries : List Entry}

theorem Lists.used (lists : Lists s.slots taken free entries) : ∀ r ∈ taken, r.used = true :=
  ((List.forall₂_and_left taken entries).mp
    (lists.matches_.imp fun _ _ same => ⟨same.used, same⟩)).1

theorem routesGrow_cases (granted : Bool) (s : State) :
    routesGrow granted (s.slots.length + 1) s = (0, s) ∨
      ∃ more, routesGrow granted (s.slots.length + 1) s =
        (doubleTo (s.slots.length + 1) 64 (max s.slots.length 1),
          { s with slots := s.slots ++ List.replicate more Slot.blank }) ∧
        more = doubleTo (s.slots.length + 1) 64 (max s.slots.length 1) - s.slots.length := by
  unfold routesGrow
  split
  · exact .inl rfl
  · rw [if_neg (by omega)]
    split
    · exact .inr ⟨_, rfl, rfl⟩
    · exact .inl rfl

theorem nextSlot_cases (granted : Bool) (lists : Lists s.slots taken free entries) :
    routesNextSlot granted s = (none, s) ∨
      ∃ r rest, routesNextSlot granted s =
          (some taken.length, { s with slots := taken ++ r :: rest }) ∧
        (∀ r' ∈ r :: rest, r'.used = false) ∧
        (s.slots.find? (fun r => !r.used) = some r ∨ r = Slot.blank) := by
  have before : ∀ r ∈ taken, ¬ (!r.used) = true := by
    intro r member
    rw [lists.used r member]
    decide
  cases free with
  | nil =>
      have whole : s.slots = taken := by rw [lists.split_, List.append_nil]
      have none_ : s.slots.findIdx? (fun r => !r.used) = none :=
        List.findIdx?_eq_none_iff.mpr fun r member =>
          Bool.eq_false_iff.mpr (before r (whole ▸ member))
      rw [routesNextSlot, none_]
      dsimp only
      obtain grown | ⟨more, grown, longer⟩ := routesGrow_cases granted s
      · rw [grown]
        exact .inl (if_neg (Nat.not_lt_zero _))
      · rw [grown]
        dsimp only
        cases more with
        | zero =>
            rw [if_neg (by omega), List.replicate_zero, List.append_nil]
            exact .inl rfl
        | succ more =>
            rw [if_pos (by omega), List.replicate_succ, whole]
            refine .inr ⟨Slot.blank, List.replicate more Slot.blank, rfl, ?_, .inr rfl⟩
            intro r member
            rw [← List.replicate_succ] at member
            rw [List.eq_of_mem_replicate member]
            rfl
  | cons r rest =>
      have unused : (!r.used) = true := by
        rw [lists.free r List.mem_cons_self]
        rfl
      have first_ : s.slots.find? (fun r => !r.used) = some r := by
        rw [lists.split_, List.find?_append, List.find?_eq_none.mpr before, Option.none_or]
        exact List.find?_cons_of_pos unused
      have index : s.slots.findIdx? (fun r => !r.used) = some taken.length := by
        rw [lists.split_, List.findIdx?_append, List.findIdx?_eq_none_iff.mpr
          fun r member => Bool.eq_false_iff.mpr (before r member), Option.none_or,
          List.findIdx?_cons, if_pos unused, Option.map_some, Nat.zero_add]
      rw [routesNextSlot, index]
      refine .inr ⟨r, rest, ?_, lists.free, .inl first_⟩
      rw [← lists.split_]

theorem modify_length (taken : List Slot) (r : Slot) (rest : List Slot) (fill : Slot → Slot) :
    (taken ++ r :: rest).modify taken.length fill = taken ++ fill r :: rest := by
  induction taken with
  | nil => rfl
  | cons head taken ih => exact congrArg (head :: ·) ih

theorem claim_cases (granted : Bool) {fill : Slot → Slot} {entry : Entry}
    (lists : Lists s.slots taken free entries)
    (proper : ∀ r, s.slots.find? (fun r => !r.used) = some r ∨ r = Slot.blank →
      (fill r).Matches entry) :
    claim granted fill s = (-1, s) ∨
      ∃ s' r rest, claim granted fill s = (0, s') ∧
        Lists s'.slots (taken ++ [r]) rest (entries ++ [entry]) := by
  obtain none_ | ⟨r, rest, some_, unused, origin⟩ := nextSlot_cases granted lists
  · left
    rw [claim, none_]
  · right
    refine ⟨{ s with slots := taken ++ fill r :: rest }, fill r, rest, ?_, ?_⟩
    · rw [claim, some_]
      dsimp only
      rw [modify_length]
    · exact {
        split_ := by rw [List.append_assoc, List.singleton_append]
        matches_ := List.rel_append lists.matches_ (.cons (proper r origin) .nil)
        free := fun r' member => unused r' (List.mem_cons_of_mem r member) }

theorem source_bytes {r : Slot} (plain : r.defer = false) (none_ : r.handler = none)
    (still : r.streamProd = none) :
    r.source = .bytes ((r.ext.getD r.body).take r.bodyLen.toNat) := by
  rw [Slot.source, plain, none_, still]
  cases r.ext <;> rfl

theorem source_stream {r : Slot} {producer : Address} (plain : r.defer = false)
    (none_ : r.handler = none) (some_ : r.streamProd = some producer) :
    r.source = .stream r.streamCtx r.streamSize producer := by
  rw [Slot.source, plain, none_, some_]
  rfl

theorem Span.take_bytes (span : Span) : span.bytes.take span.len.toNat = span.bytes := by
  refine List.take_of_length_le ?_
  rw [Span.bytes]
  cases here : span.block with
  | none => rw [Option.getD_none, List.length_replicate]
  | some bytes => rw [Option.getD_some, span.whole bytes here]

theorem Span.take_writeAt (span : Span) (small : span.len.toNat ≤ 256) :
    (writeAt 0 (if span.len ≠ 0 then span.block.getD [] else []) (List.replicate 256 0)).take
      span.len.toNat = span.bytes := by
  have zeros : (List.replicate 256 (0 : UInt8)).take span.len.toNat =
      List.replicate span.len.toNat 0 := by
    rw [List.take_replicate, Nat.min_eq_left small]
  rw [Span.bytes]
  cases here : span.block with
  | none =>
      rw [Option.getD_none, Option.getD_none, ite_self]
      exact zeros
  | some bytes =>
      have length := span.whole bytes here
      rw [Option.getD_some, Option.getD_some]
      split
      · rw [← length, ← Nat.zero_add bytes.length,
          Metal.Lib.take_writeAt bytes (Nat.zero_le _), List.take_zero, List.nil_append]
      · rename_i none_
        have none_ : span.len.toNat = 0 := congrArg UInt32.toNat (Decidable.not_not.mp none_)
        rw [none_] at length
        rw [none_, List.length_eq_zero_iff.mp length]
        rfl

inductive Registered (s : State) (taken : List Slot) (entries : List Entry) (entry : Option Entry) :
    Int32 × State → Prop
  | refused (s' : State) (free : List Slot) (lists : Lists s'.slots taken free entries) :
      Registered s taken entries entry (-1, s')
  | claimed (found : Entry) (s' : State) (r : Slot) (free : List Slot) (same : entry = some found)
      (lists : Lists s'.slots (taken ++ [r]) free (entries ++ [found])) :
      Registered s taken entries entry (0, s')

theorem Registered.of_claim (granted : Bool) {fill : Slot → Slot} {entry : Entry}
    (lists : Lists s.slots taken free entries)
    (proper : ∀ r, s.slots.find? (fun r => !r.used) = some r ∨ r = Slot.blank →
      (fill r).Matches entry) :
    Registered s taken entries (some entry) (claim granted fill s) := by
  obtain none_ | ⟨s', r, rest, some_, lists'⟩ := claim_cases granted lists proper
  · rw [none_]
    exact .refused s free lists
  · rw [some_]
    exact .claimed entry s' r rest rfl lists'

theorem Slot.matches_of {r : Slot} {method path : CString} {service : Service}
    (short : method.bytes.length < 8 ∧ path.bytes.length < 80)
    (used : r.used = true) (methodIs : r.method = cstrCopy 8 method)
    (pathIs : r.path = cstrCopy 80 path) (serves : (⟨r.ctype, r.source⟩ : Service) = service) :
    r.Matches ⟨method.bytes, path.bytes, service⟩ where
  used := used
  method := by rw [methodIs, text_cstrCopy short.1]
  path := by rw [pathIs, text_cstrCopy short.2]
  service := serves

section Calls

variable (supply : Supply) (lists : Lists s.slots taken free entries)

variable {path method : Option CString}

include lists in
theorem route_registered {body : Span} (short : (Registration.route method path body).Short) :
    Registered s taken entries (Registration.route method path body).entry
      (route supply method path body s) := by
  cases method with
  | none => exact .refused s free lists
  | some method =>
      cases path with
      | none => exact .refused s free lists
      | some path =>
          rw [route]
          split
          · exact .refused s free lists
          · rename_i small
            refine .of_claim supply.table lists fun r _ => ?_
            refine Slot.matches_of (short _ rfl) rfl rfl rfl ?_
            congr 1
            rw [source_bytes rfl rfl rfl]
            exact congrArg Source.bytes (body.take_writeAt (Nat.not_lt.mp small))

include lists in
theorem routeDeferM_registered {ctype : Option CString}
    (short : (Registration.routeDeferM method path ctype).Short) :
    Registered s taken entries (Registration.routeDeferM method path ctype).entry
      (routeDeferM supply method path ctype s) := by
  cases method with
  | none => exact .refused s free lists
  | some method =>
      cases path with
      | none => exact .refused s free lists
      | some path =>
          cases ctype with
          | none => exact .refused s free lists
          | some ctype =>
              exact .of_claim supply.table lists fun r _ =>
                Slot.matches_of (short _ rfl) rfl rfl rfl rfl

include lists in
theorem routeFnClaim_registered {method path : CString} {handler : Address}
    (ctype : Option CString) (short : method.bytes.length < 8 ∧ path.bytes.length < 80) :
    Registered s taken entries (some ⟨method.bytes, path.bytes, ctype, .handler handler⟩)
      (routeFnClaim supply (some method) (some path) (some handler) ctype s) :=
  .of_claim supply.table lists fun _ _ => Slot.matches_of short rfl rfl rfl rfl

include lists in
theorem routeStaticClaim_registered {url : CString} {body : Span} (ctype : Option CString)
    (short : get.bytes.length < 8 ∧ url.bytes.length < 80) :
    Registered s taken entries (some ⟨get.bytes, url.bytes, ctype, .bytes body.bytes⟩)
      (routeStaticClaim supply (some url) body ctype s) := by
  rw [routeStaticClaim]
  split
  · exact .refused s free lists
  · rename_i given
    refine .of_claim supply.table lists fun r _ => Slot.matches_of short rfl rfl rfl ?_
    congr 1
    rw [source_bytes rfl rfl rfl]
    congr 1
    change (body.block.getD (List.replicate 256 0)).take body.len.toNat = _
    cases here : body.block with
    | none =>
        have none_ : body.len = 0 := Decidable.not_not.mp fun some_ => given ⟨some_, here⟩
        rw [Span.bytes, here, none_]
        rfl
    | some bytes =>
        have whole := body.take_bytes
        rw [Span.bytes, here, Option.getD_some] at whole
        rw [Span.bytes, here]
        exact whole

include lists in
theorem routeStaticCopy_registered {url : Option CString} {body : Span}
    (short : (Registration.routeStaticCopy url body).Short) :
    Registered s taken entries (Registration.routeStaticCopy url body).entry
      (routeStaticCopy supply url body s) := by
  cases url with
  | none => exact .refused s free lists
  | some url =>
      unfold routeStaticCopy
      rcases here : body.block with _ | bytes
      · exact .refused s free lists
      · dsimp only
        split
        · exact .refused s free lists
        · split
          · obtain same | ⟨r, rest, some_, unused, _⟩ := nextSlot_cases supply.table lists
            · rw [same]
              exact .refused s free lists
            · rw [some_]
              exact .refused _ (r :: rest) ⟨rfl, lists.matches_, unused⟩
          · refine .of_claim supply.table lists fun r _ =>
              Slot.matches_of (short _ rfl) rfl rfl rfl ?_
            congr 1
            rw [source_bytes rfl rfl rfl]
            have whole := body.take_bytes
            rw [Span.bytes, here, Option.getD_some] at whole
            rw [Span.bytes, here]
            exact congrArg Source.bytes whole

include lists in
theorem routeStreamFn_registered {ctx size producer : Option Address}
    (short : (Registration.routeStreamFn method path ctx size producer).Short)
    (clean : (Registration.routeStreamFn method path ctx size producer).entry.isSome →
      streamTotal size supply ≠ 0 → s.Clean) :
    Registered s taken entries (Registration.routeStreamFn method path ctx size producer).entry
      (routeStreamFn supply method path ctx size producer s) := by
  cases method with
  | none => exact .refused s free lists
  | some method =>
      cases path with
      | none => exact .refused s free lists
      | some path =>
          cases producer with
          | none => exact .refused s free lists
          | some producer =>
              cases ctx with
              | none => exact .refused s free lists
              | some ctx =>
                  rw [routeStreamFn]
                  split
                  · exact .refused s free lists
                  · rename_i more
                    refine .of_claim supply.table lists fun r origin => ?_
                    have blank : r.ctype = none ∧ r.defer = false := by
                      obtain found | rfl := origin
                      · exact clean rfl more r found
                      · exact ⟨rfl, rfl⟩
                    refine Slot.matches_of (short _ rfl) rfl rfl rfl ?_
                    exact congr (congrArg Service.mk blank.1) (source_stream blank.2 rfl rfl)

end Calls

theorem register_registered {w : World} {registration : Registration} {supply : Supply}
    (lists : Lists w.s.slots taken free entries)
    (keeps : w.Keeps (.register registration supply)) :
    Registered w.s taken entries registration.entry (register supply registration w.s) := by
  obtain ⟨short, clean⟩ := keeps
  cases registration with
  | route method path body => exact route_registered supply lists short
  | routeDefer path ctype =>
      have whole : Registered w.s taken entries
          (Registration.routeDeferM (some get) path ctype).entry
            (routeDeferM supply (some get) path ctype w.s) := by
        refine routeDeferM_registered supply lists fun entry found => short entry ?_
        cases path <;> cases ctype <;> exact found
      cases path <;> cases ctype <;> exact whole
  | routeDeferM method path ctype => exact routeDeferM_registered supply lists short
  | routeFn method path handler =>
      cases method with
      | none => exact .refused w.s free lists
      | some method =>
          cases path with
          | none => exact .refused w.s free lists
          | some path =>
              cases handler with
              | none => exact .refused w.s free lists
              | some handler => exact routeFnClaim_registered supply lists none (short _ rfl)
  | routeFnCt method path handler ctype =>
      cases ctype with
      | none => 
          cases method <;> cases path <;> cases handler <;> exact .refused w.s free lists
      | some ctype =>
          cases method with
          | none => exact .refused w.s free lists
          | some method =>
              cases path with
              | none => exact .refused w.s free lists
              | some path =>
                  cases handler with
                  | none => exact .refused w.s free lists
                  | some handler =>
                      exact routeFnClaim_registered supply lists (some ctype) (short _ rfl)
  | routeStatic url body =>
      cases url with
      | none => exact .refused w.s free lists
      | some url => exact routeStaticClaim_registered supply lists none (short _ rfl)
  | routeStaticCt url body ctype =>
      cases ctype with
      | none => cases url <;> exact .refused w.s free lists
      | some ctype =>
          cases url with
          | none => exact .refused w.s free lists
          | some url => exact routeStaticClaim_registered supply lists (some ctype) (short _ rfl)
  | routeStaticCopy url body => exact routeStaticCopy_registered supply lists short
  | routeStreamFn method path ctx size producer =>
      exact routeStreamFn_registered supply lists short clean

structure World.Inv (w : World) : Prop where
  lists : ∃ taken free, Lists w.s.slots taken free w.entries
  short : ∀ entry ∈ w.entries, entry.method.length < 8 ∧ entry.path.length < 80

theorem World.Inv.step {w : World} (inv : w.Inv) (event : Event) (keeps : w.Keeps event) :
    (w.step event).Inv := by
  obtain ⟨taken, free, lists⟩ := inv.lists
  cases event with
  | init arena =>
      cases arena with
      | false => exact inv
      | true =>
          exact ⟨⟨[], w.s.slots.map fun r => { r with used := false }, rfl, .nil, fun r member => by
            obtain ⟨old, _, rfl⟩ := List.mem_map.mp member
            rfl⟩, nofun⟩
  | deinit => exact ⟨⟨[], [], rfl, .nil, nofun⟩, nofun⟩
  | register registration supply =>
      have registered := register_registered lists keeps
      rw [World.step]
      cases shape : register supply registration w.s with
      | mk status s =>
          rw [shape] at registered
          cases registered with
          | refused s free lists => exact ⟨⟨taken, free, lists⟩, inv.short⟩
          | claimed found s r free same lists =>
              dsimp only
              rw [if_pos rfl, same]
              refine ⟨⟨taken ++ [r], free, lists⟩, fun entry member => ?_⟩
              obtain old | new := List.mem_append.mp member
              · exact inv.short entry old
              · obtain rfl := List.mem_singleton.mp new
                exact keeps.1 entry same

theorem find?_service {p : Slot → Bool} {q : Entry → Bool}
    (all : List.Forall₂ (fun r entry => r.Matches entry ∧ p r = q entry) taken entries) :
    (taken.find? p).map (fun r => (⟨r.ctype, r.source⟩ : Service)) =
      (entries.find? q).map Entry.service := by
  induction all with
  | nil => rfl
  | cons both _ ih =>
      rw [List.find?_cons, List.find?_cons, both.2]
      split
      · exact congrArg some both.1.service
      · exact ih

theorem lookupInto_eq (s : State) (method path : Bytes) :
    lookupInto s method path = ((s.slots.find? (Slot.accepts method path)).map
      fun r => (⟨r.ctype, r.source⟩ : Service)).getD ⟨none, .bytes defaultBody⟩ := by
  rw [lookupInto]
  split <;> rename_i found <;> rw [found] <;> rfl

theorem resolve_eq (entries : List Entry) (method path : Bytes) :
    resolve entries method path = ((entries.find? fun entry =>
      entry.method = method ∧ Covers entry.path (unqueried path)).map
        Entry.service).getD ⟨none, .bytes defaultBody⟩ := by
  rw [resolve]
  split <;> rename_i found <;> rw [found] <;> rfl

theorem accepts_eq {r : Slot} {entry : Entry} (same : r.Matches entry)
    (short : entry.method.length < 8 ∧ entry.path.length < 80) {method path : Bytes}
    (tells : method.length < 8 ∨ entry.method ≠ method.take 7) :
    r.accepts (method.take 7) (path.take (pathMax - 1)) =
      decide (entry.method = method ∧ Covers entry.path (unqueried path)) := by
  have methods : entry.method = method.take 7 ↔ entry.method = method := by
    obtain small | apart := tells
    · rw [List.take_of_length_le (by omega)]
    · constructor
      · exact fun equal => absurd equal apart
      · rintro rfl
        rw [List.take_of_length_le (by omega)] at apart
        exact absurd rfl apart
  have paths : Covers entry.path (unqueried (path.take (pathMax - 1))) ↔
      Covers entry.path (unqueried path) := covers_take (by rw [pathMax]; omega)
  rw [Bool.eq_iff_iff, decide_eq_true_iff, Slot.accepts, same.used, Bool.true_and, cstrEq,
    same.method, same.path, Bool.and_eq_true, beq_iff_eq, take_pathQueryOff, pathMatches_iff,
    methods, paths]

theorem lookup_resolves {w : World} (inv : w.Inv) {method : Bytes} (path : Bytes)
    (tells : w.Tells method) :
    lookupInto w.s (method.take 7) (path.take (pathMax - 1)) =
      resolve w.entries method path := by
  obtain ⟨taken, free, lists⟩ := inv.lists
  have none_ : free.find? (Slot.accepts (method.take 7) (path.take (pathMax - 1))) = none := by
    refine List.find?_eq_none.mpr fun r member => ?_
    rw [Slot.accepts, lists.free r member]
    exact Bool.false_ne_true
  rw [lookupInto_eq, resolve_eq, lists.split_, List.find?_append, none_, Option.or_none]
  congr 1
  apply find?_service
  refine List.forall₂_iff_get.mpr ⟨lists.matches_.length_eq, fun i inside inside' => ?_⟩
  have same := (List.forall₂_iff_get.mp lists.matches_).2 i inside inside'
  have member : w.entries.get ⟨i, inside'⟩ ∈ w.entries := List.get_mem _ _
  exact ⟨same, accepts_eq same (inv.short _ member) (tells.imp_right fun apart => apart _ member)⟩

theorem answer_resolves (run : List Event) (along : Along World.step World.Keeps World.boot run)
    (rx : Bytes)
    (tells : ∀ request ∈ parseReq rx, (run.foldl World.step World.boot).Tells request.1) :
    answer (run.foldl World.step World.boot).s rx =
      (parseReq rx).map fun request =>
        resolve (run.foldl World.step World.boot).entries request.1 request.2 := by
  have inv : (run.foldl World.step World.boot).Inv :=
    along.invariant (fun w event => fun inv keeps => inv.step event keeps)
      ⟨⟨[], [], rfl, .nil, nofun⟩, nofun⟩
  rw [answer]
  cases parsed : parseReq rx with
  | none => rfl
  | some request => exact congrArg some (lookup_resolves inv request.2 (tells request parsed))

/-- `GET /s HTTP/1.0` and the end of the line. -/
def asks : Bytes :=
  [71, 69, 84, 32, 47, 115, 32, 72, 84, 84, 80, 47, 49, 46, 48, 13, 10, 13, 10]

/-- `/s` -/
def page : CString := ⟨[47, 115], by decide⟩

def json : CString := ⟨[106, 115, 111, 110], by decide⟩

def supply : Supply := ⟨true, true, 0⟩

def inTurn : List Event :=
  [.init true, .register (.routeFnCt (some get) (some page) (some 1) (some json)) supply,
    .register (.routeStreamFn (some get) (some page) (some 2) none (some 3)) supply]

theorem answer_inTurn :
    answer (inTurn.foldl World.step World.boot).s asks =
      (parseReq asks).map fun request =>
        resolve (inTurn.foldl World.step World.boot).entries request.1 request.2 :=
  answer_resolves inTurn (by decide) asks (by decide)

def again : List Event :=
  [.init true, .register (.routeFnCt (some get) (some page) (some 1) (some json)) supply,
    .init true, .register (.routeStreamFn (some get) (some page) (some 2) none (some 3)) supply]

theorem answer_fails :
    ¬ answer (again.foldl World.step World.boot).s asks =
      (parseReq asks).map fun request =>
        resolve (again.foldl World.step World.boot).entries request.1 request.2 := by
  decide

end Metal.Net.Asgi.Routes
