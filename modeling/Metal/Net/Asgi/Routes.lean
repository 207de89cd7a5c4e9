import Metal.Net.Asgi.Conn
import Metal.Lib.Run

namespace Metal.Net.Asgi.Routes

open Metal.Lib

/-! The route table of `net/http/asgi`: slots are filled by the calls that register a
route, and kept with what they held when the service is started again. -/

abbrev Address := Nat

/-- `ext` is the block that the pointer points at. -/
structure Slot where
  used : Bool
  method : Bytes
  path : Bytes
  body : Bytes
  bodyLen : UInt32
  handler : Option Address
  ext : Option Bytes
  ctype : Option CString
  streamCtx : Option Address
  streamSize : Option Address
  streamProd : Option Address
  defer : Bool

/-- What `route_reset_storage` leaves. -/
def Slot.blank : Slot where
  used := false
  method := List.replicate 8 0
  path := List.replicate 80 0
  body := List.replicate 256 0
  bodyLen := 0
  handler := none
  ext := none
  ctype := none
  streamCtx := none
  streamSize := none
  streamProd := none
  defer := false

def routeResetOpts (r : Slot) : Slot :=
  { r with streamCtx := none, streamSize := none, streamProd := none, ctype := none, defer := false }

/-- `cstr_copy` into an array of `dlen` bytes; the callers give a string. -/
def cstrCopy (dlen : Nat) (src : CString) : Bytes :=
  let text := src.bytes.take (dlen - 1)
  text ++ List.replicate (dlen - text.length) 0

def Slot.named (method path : CString) (r : Slot) : Slot :=
  { r with method := cstrCopy 8 method, path := cstrCopy 80 path }

structure State where
  arena : Bool
  slots : List Slot

/-- The doubling of `routes_grow`; 64 turns are enough for any `need`. -/
def doubleTo (need : Nat) : Nat → Nat → Nat
  | 0, n => n
  | turns + 1, n => if n < need then doubleTo need turns (min (n * 2) (2 ^ 64 - 1)) else n

/-- `granted` says whether there is memory for the new table. -/
def routesGrow (granted : Bool) (need : Nat) (s : State) : Nat × State :=
  if !s.arena then (0, s)
  else if need ≤ s.slots.length then (s.slots.length, s)
  else
    let n := doubleTo need 64 (max s.slots.length 1)
    if granted then
      (n, { s with slots := s.slots ++ List.replicate (n - s.slots.length) Slot.blank })
    else (0, s)

def routesNextSlot (granted : Bool) (s : State) : Option Nat × State :=
  match s.slots.findIdx? fun r => !r.used with
  | some i => (some i, s)
  | none =>
      let n := s.slots.length
      let (size, s) := routesGrow granted (n + 1) s
      if n < size then (some n, s) else (none, s)

def claim (granted : Bool) (fill : Slot → Slot) (s : State) : Int32 × State :=
  match routesNextSlot granted s with
  | (none, s) => (-1, s)
  | (some i, s) => (0, { s with slots := s.slots.modify i fill })

/-- `body` and `body_len`. -/
structure Span where
  block : Option Bytes
  len : UInt32
  whole : ∀ bytes, block = some bytes → bytes.length = len.toNat

def Span.bytes (span : Span) : Bytes := span.block.getD (List.replicate span.len.toNat 0)

/-- What the calls inside of a registration answer: whether there is memory for the table
and for a copy, and what the size callback says. -/
structure Supply where
  table : Bool
  copy : Bool
  size : UInt64

def get : CString := ⟨[71, 69, 84], by decide⟩

def route (supply : Supply) (method path : Option CString) (body : Span) (s : State) :
    Int32 × State :=
  match method, path with
  | some method, some path =>
      if 256 < body.len.toNat then (-1, s)
      else
        claim supply.table (fun r =>
          let r := r.named method path
          let r := { r with
            body := writeAt 0 (if body.len ≠ 0 then body.block.getD [] else [])
              (List.replicate 256 0)
            bodyLen := body.len
            handler := none
            ext := none }
          { routeResetOpts r with used := true }) s
  | _, _ => (-1, s)

def routeDeferM (supply : Supply) (method path ctype : Option CString) (s : State) :
    Int32 × State :=
  match method, path, ctype with
  | some method, some path, some ctype =>
      claim supply.table (fun r =>
        let r := r.named method path
        let r := { r with
          body := List.replicate 256 0
          bodyLen := 0
          handler := none
          ext := none }
        { routeResetOpts r with ctype := some ctype, defer := true, used := true }) s
  | _, _, _ => (-1, s)

def routeDefer (supply : Supply) (path ctype : Option CString) (s : State) : Int32 × State :=
  routeDeferM supply (some get) path ctype s

def routeFnClaim (supply : Supply) (method path : Option CString) (handler : Option Address)
    (ctype : Option CString) (s : State) : Int32 × State :=
  match method, path, handler with
  | some method, some path, some handler =>
      claim supply.table (fun r =>
        let r := r.named method path
        let r := { r with
          body := List.replicate 256 0
          bodyLen := 0
          handler := some handler
          ext := none }
        { routeResetOpts r with ctype := ctype, used := true }) s
  | _, _, _ => (-1, s)

def routeFn (supply : Supply) (method path : Option CString) (handler : Option Address)
    (s : State) : Int32 × State :=
  routeFnClaim supply method path handler none s

def routeFnCt (supply : Supply) (method path : Option CString) (handler : Option Address)
    (ctype : Option CString) (s : State) : Int32 × State :=
  match ctype with
  | none => (-1, s)
  | some ctype => routeFnClaim supply method path handler (some ctype) s

def routeStaticClaim (supply : Supply) (url : Option CString) (body : Span)
    (ctype : Option CString) (s : State) : Int32 × State :=
  match url with
  | none => (-1, s)
  | some url =>
      if body.len ≠ 0 ∧ body.block = none then (-1, s)
      else
        claim supply.table (fun r =>
          let r := r.named get url
          let r := { r with
            body := List.replicate 256 0
            bodyLen := body.len
            handler := none
            ext := body.block }
          { routeResetOpts r with ctype := ctype, used := true }) s

def routeStatic (supply : Supply) (url : Option CString) (body : Span) (s : State) :
    Int32 × State :=
  routeStaticClaim supply url body none s

def routeStaticCt (supply : Supply) (url : Option CString) (body : Span)
    (ctype : Option CString) (s : State) : Int32 × State :=
  match ctype with
  | none => (-1, s)
  | some ctype => routeStaticClaim supply url body (some ctype) s

def routeStaticCopy (supply : Supply) (url : Option CString) (body : Span) (s : State) :
    Int32 × State :=
  match url, body.block with
  | some url, some bytes =>
      if body.len = 0 ∨ !s.arena then (-1, s)
      else if !supply.copy then (-1, (routesNextSlot supply.table s).2)
      else
        claim supply.table (fun r =>
          let r := r.named get url
          let r := { r with
            body := List.replicate 256 0
            bodyLen := body.len
            handler := none
            ext := some bytes }
          { routeResetOpts r with used := true }) s
  | _, _ => (-1, s)

def streamTotal (size : Option Address) (supply : Supply) : Nat :=
  if size.isSome then min supply.size.toNat streamMax else streamMax

def routeStreamFn (supply : Supply) (method path : Option CString)
    (ctx size producer : Option Address) (s : State) : Int32 × State :=
  match method, path, producer, ctx with
  | some method, some path, some producer, some ctx =>
      if streamTotal size supply = 0 then (-1, s)
      else
        claim supply.table (fun r =>
          { r.named method path with
            body := List.replicate 256 0
            bodyLen := 0
            handler := none
            ext := none
            streamCtx := some ctx
            streamSize := size
            streamProd := some producer
            used := true }) s
  | _, _, _, _ => (-1, s)

inductive Registration
  | route (method path : Option CString) (body : Span)
  | routeDefer (path ctype : Option CString)
  | routeDeferM (method path ctype : Option CString)
  | routeFn (method path : Option CString) (handler : Option Address)
  | routeFnCt (method path : Option CString) (handler : Option Address) (ctype : Option CString)
  | routeStatic (url : Option CString) (body : Span)
  | routeStaticCt (url : Option CString) (body : Span) (ctype : Option CString)
  | routeStaticCopy (url : Option CString) (body : Span)
  | routeStreamFn (method path : Option CString) (ctx size producer : Option Address)

def register (supply : Supply) : Registration → State → Int32 × State
  | .route method path body => route supply method path body
  | .routeDefer path ctype => routeDefer supply path ctype
  | .routeDeferM method path ctype => routeDeferM supply method path ctype
  | .routeFn method path handler => routeFn supply method path handler
  | .routeFnCt method path handler ctype => routeFnCt supply method path handler ctype
  | .routeStatic url body => routeStatic supply url body
  | .routeStaticCt url body ctype => routeStaticCt supply url body ctype
  | .routeStaticCopy url body => routeStaticCopy supply url body
  | .routeStreamFn method path ctx size producer =>
      routeStreamFn supply method path ctx size producer

/-- The routes of `init`, and its arena. -/
def init (arena : Bool) (s : State) : Int32 × State :=
  if arena then (0, ⟨true, s.slots.map fun r => { r with used := false }⟩) else (-1, s)

/-- The routes of `deinit`, and its arena. -/
def deinit (_ : State) : State := ⟨false, []⟩

inductive Source
  | renderer
  | handler (handler : Address)
  | stream (ctx size : Option Address) (producer : Address)
  | bytes (body : Bytes)
  deriving DecidableEq

structure Service where
  ctype : Option CString
  source : Source
  deriving DecidableEq

/-- The branch of `lookup_into`. -/
def Slot.source (r : Slot) : Source :=
  if r.defer then .renderer
  else
    match r.handler, r.streamProd, r.ext with
    | some handler, _, _ => .handler handler
    | none, some producer, _ => .stream r.streamCtx r.streamSize producer
    | none, none, some ext => .bytes (ext.take r.bodyLen.toNat)
    | none, none, none => .bytes (r.body.take r.bodyLen.toNat)

def text (array : Bytes) : Bytes := array.takeWhile (· ≠ 0)

def cstrEq (stored got : Bytes) : Bool := text stored == got

def Slot.accepts (method path : Bytes) (r : Slot) : Bool :=
  r.used && cstrEq r.method method &&
    pathMatches (text r.path) (path.take (pathQueryOff path))

def lookupInto (s : State) (method path : Bytes) : Service :=
  match s.slots.find? (Slot.accepts method path) with
  | none => ⟨none, .bytes defaultBody⟩
  | some r => ⟨r.ctype, r.source⟩

/-- The route that the connections see in a slot. -/
structure Slot.Reads (r : Slot) (seen : Route) : Prop where
  used : seen.used = r.used
  method : seen.method.bytes = text r.method
  path : seen.path.bytes = text r.path
  body : seen.ext.getD seen.body = r.ext.getD r.body
  bodyLen : seen.bodyLen = r.bodyLen.toNat
  handler : seen.handler = r.handler.isSome
  ctype : seen.ctype = r.ctype
  stream : seen.stream = r.streamProd.isSome
  streamSize : seen.streamSize = r.streamSize.isSome
  defer : seen.defer = r.defer

/-- What becomes of a connection that gets this service. -/
def Service.Serves (service : Service) (arena : Bool) (callbacks : Callbacks) (c : Conn)
    (now : Bool × Conn) : Prop :=
  let c := { c with ctype := service.ctype }
  match service.source with
  | .renderer => now = (true, c)
  | .handler _ => now = (false, c.handle arena callbacks)
  | .stream _ size _ =>
      now = (false, { c with
        stream := true, streamSent := 0, chunk := []
        bodyLen := if size.isSome then min callbacks.size streamMax else streamMax })
  | .bytes body =>
      ∃ block len, now = (false, { c with body := block, bodyLen := len }) ∧ block.take len = body

theorem Slot.Reads.accepts {r : Slot} {seen : Route} (reads : r.Reads seen)
    (method path : Bytes) : seen.accepts method path = r.accepts method path := by
  rw [Route.accepts, Slot.accepts, cstrEq, reads.used, reads.method, reads.path]

theorem Slot.Reads.serves {r : Slot} {seen : Route} (reads : r.Reads seen) (arena : Bool)
    (callbacks : Callbacks) {method path : Bytes} {routes : List Route} (c : Conn)
    (found : routes.find? (·.accepts method path) = some seen) :
    Service.Serves ⟨r.ctype, r.source⟩ arena callbacks c
      (Asgi.lookupInto arena routes callbacks method path c) := by
  rw [Asgi.lookupInto, found, Slot.source, Service.Serves]
  dsimp only
  rw [reads.ctype, reads.defer, reads.handler, reads.stream, reads.streamSize]
  cases r.defer with
  | true => rfl
  | false =>
      cases r.handler with
      | some handler => rfl
      | none =>
          cases r.streamProd with
          | some producer => rfl
          | none =>
              cases ext : r.ext with
              | some block | none =>
                  refine ⟨_, _, rfl, ?_⟩
                  rw [reads.body, reads.bodyLen, ext]
                  rfl

theorem find_reads {slots : List Slot} {routes : List Route}
    (reads : List.Forall₂ Slot.Reads slots routes) (method path : Bytes) :
    (slots.find? (Slot.accepts method path) = none ∧
        routes.find? (·.accepts method path) = none) ∨
      ∃ r seen, slots.find? (Slot.accepts method path) = some r ∧
        routes.find? (·.accepts method path) = some seen ∧ r.Reads seen := by
  induction reads with
  | nil => exact .inl ⟨rfl, rfl⟩
  | @cons r seen slots routes head tail ih =>
      rw [List.find?_cons, List.find?_cons, head.accepts]
      cases r.accepts method path with
      | true => exact .inr ⟨r, seen, rfl, rfl, head⟩
      | false => exact ih

/-- The two models of `lookup_into` agree: a connection gets what the table serves. -/
theorem lookupInto_serves {s : State} {routes : List Route}
    (reads : List.Forall₂ Slot.Reads s.slots routes) (arena : Bool) (callbacks : Callbacks)
    (method path : Bytes) (c : Conn) :
    (lookupInto s method path).Serves arena callbacks c
      (Asgi.lookupInto arena routes callbacks method path c) := by
  unfold lookupInto
  rcases find_reads reads method path with ⟨missed, missed'⟩ | ⟨r, seen, found, found', same⟩
  · rw [missed, Asgi.lookupInto, missed']
    exact ⟨_, _, rfl, rfl⟩
  · rw [found]
    exact same.serves arena callbacks c found'

/-- The request in `rx`, as `conn_step` looks it up. -/
def answer (s : State) (rx : Bytes) : Option Service :=
  (parseReq rx).map fun request =>
    lookupInto s (request.1.take 7) (request.2.take (pathMax - 1))

structure Entry where
  method : Bytes
  path : Bytes
  service : Service

def Registration.entry : Registration → Option Entry
  | .route (some method) (some path) body =>
      some ⟨method.bytes, path.bytes, none, .bytes body.bytes⟩
  | .routeDefer (some path) (some ctype) =>
      some ⟨get.bytes, path.bytes, some ctype, .renderer⟩
  | .routeDeferM (some method) (some path) (some ctype) =>
      some ⟨method.bytes, path.bytes, some ctype, .renderer⟩
  | .routeFn (some method) (some path) (some handler) =>
      some ⟨method.bytes, path.bytes, none, .handler handler⟩
  | .routeFnCt (some method) (some path) (some handler) (some ctype) =>
      some ⟨method.bytes, path.bytes, some ctype, .handler handler⟩
  | .routeStatic (some url) body => some ⟨get.bytes, url.bytes, none, .bytes body.bytes⟩
  | .routeStaticCt (some url) body (some ctype) =>
      some ⟨get.bytes, url.bytes, some ctype, .bytes body.bytes⟩
  | .routeStaticCopy (some url) body => some ⟨get.bytes, url.bytes, none, .bytes body.bytes⟩
  | .routeStreamFn (some method) (some path) (some ctx) size (some producer) =>
      some ⟨method.bytes, path.bytes, none, .stream (some ctx) size producer⟩
  | _ => none

/-- The path is the pattern, or the pattern ends in `/*` and is a prefix of it up to there. -/
def Covers (pattern path : Bytes) : Prop :=
  pattern = path ∨ [47, 42] <:+ pattern ∧ pattern.dropLast <+: path

instance (pattern path : Bytes) : Decidable (Covers pattern path) :=
  inferInstanceAs (Decidable (_ ∨ _ ∧ _))

def unqueried (path : Bytes) : Bytes := path.takeWhile (· ≠ 63)

def resolve (entries : List Entry) (method path : Bytes) : Service :=
  match entries.find? fun entry => entry.method = method ∧ Covers entry.path (unqueried path) with
  | none => ⟨none, .bytes defaultBody⟩
  | some entry => entry.service

inductive Event
  | init (arena : Bool)
  | deinit
  | register (registration : Registration) (supply : Supply)

/-- The table, and on record the routes that were registered since the last `init` or
`deinit`. -/
structure World where
  s : State
  entries : List Entry

namespace World

def boot : World := ⟨⟨false, []⟩, []⟩

def step (w : World) : Event → World
  | .init arena =>
      let (status, s) := init arena w.s
      ⟨s, if status = 0 then [] else w.entries⟩
  | .deinit => ⟨deinit w.s, []⟩
  | .register registration supply =>
      let (status, s) := register supply registration w.s
      ⟨s, if status = 0 then w.entries ++ registration.entry.toList else w.entries⟩

end World

def Registration.Short (registration : Registration) : Prop :=
  ∀ entry ∈ registration.entry, entry.method.length < 8 ∧ entry.path.length < 80

instance (registration : Registration) : Decidable registration.Short :=
  inferInstanceAs (Decidable (∀ entry ∈ registration.entry,
    entry.method.length < 8 ∧ entry.path.length < 80))

/-- The slot that comes next holds no type and no mark of a deferred route. -/
def State.Clean (s : State) : Prop :=
  ∀ r ∈ s.slots.find? (fun r => !r.used), r.ctype = none ∧ r.defer = false

instance (s : State) : Decidable s.Clean :=
  inferInstanceAs (Decidable (∀ r ∈ s.slots.find? (fun r => !r.used),
    r.ctype = none ∧ r.defer = false))

def Registration.Fresh (supply : Supply) (s : State) : Registration → Prop
  | .routeStreamFn method path ctx size producer =>
      (Registration.routeStreamFn method path ctx size producer).entry.isSome = true →
        streamTotal size supply ≠ 0 → s.Clean
  | _ => True

instance (supply : Supply) (s : State) :
    ∀ registration : Registration, Decidable (registration.Fresh supply s)
  | .routeStreamFn _ _ _ _ _ => inferInstanceAs (Decidable (_ → _ → _))
  | .route _ _ _ | .routeDefer _ _ | .routeDeferM _ _ _ | .routeFn _ _ _ | .routeFnCt _ _ _ _
  | .routeStatic _ _ | .routeStaticCt _ _ _ | .routeStaticCopy _ _ => isTrue trivial

def World.Keeps (w : World) : Event → Prop
  | .init _ | .deinit => True
  | .register registration supply => registration.Short ∧ registration.Fresh supply w.s

instance (w : World) : ∀ event, Decidable (w.Keeps event)
  | .init _ | .deinit => isTrue trivial
  | .register _ _ => inferInstanceAs (Decidable (_ ∧ _))

/-- The method is told apart from those of the routes by its first 7 bytes. -/
def World.Tells (w : World) (method : Bytes) : Prop :=
  method.length < 8 ∨ ∀ entry ∈ w.entries, entry.method ≠ method.take 7

instance (w : World) (method : Bytes) : Decidable (w.Tells method) :=
  inferInstanceAs (Decidable (_ ∨ _))

end Metal.Net.Asgi.Routes
