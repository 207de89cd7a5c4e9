import Metal.Lib.Memory

namespace Metal.Net.Asgi

open Metal.Lib

/-! A connection of `net/http/asgi`: its request, the route that answers it, and the
header and body that it sends. -/

def rxMax : Nat := 4096

def hdrMax : Nat := 1024

def bodyMax : Nat := 1048576

def streamChunk : Nat := 16384

def streamMax : Nat := 2147483648

def pathMax : Nat := 512

def connIdleMaxWaits : Nat := 20

def connStallMaxWaits : Nat := 240

def deferMaxWaits : Nat := 5000

def findFrom (needle : Bytes) : Bytes → Option Nat
  | [] => if needle.isPrefixOf [] then some 0 else none
  | byte :: rest =>
      if needle.isPrefixOf (byte :: rest) then some 0
      else (findFrom needle rest).map (· + 1)

def findHeadersEnd (buf : Bytes) : Option Nat :=
  (findFrom [13, 10, 13, 10] buf).map (· + 4)

def parseReq (buf : Bytes) : Option (Bytes × Bytes) :=
  match findFrom [13, 10] buf with
  | none => none
  | some lineEnd =>
      let line := buf.take lineEnd
      let method := line.takeWhile (· ≠ 32)
      let rest := line.dropWhile (· ≠ 32)
      if method.isEmpty || rest.isEmpty then none
      else
        let rest := rest.dropWhile (· = 32)
        if rest.isEmpty then none else some (method, rest.takeWhile (· ≠ 32))

/-- The callbacks are there or not; what they answer comes with each call. -/
structure Route where
  used : Bool
  method : CString
  path : CString
  body : Bytes
  bodyLen : Nat
  handler : Bool
  ext : Option Bytes
  ctype : Option CString
  /-- `stream_prod` -/
  stream : Bool
  streamSize : Bool
  defer : Bool
  whole : bodyLen ≤ (ext.getD body).length
  small : bodyLen < 2 ^ 32

/-- The stored path ends in `/*`. -/
def pathMatches (stored got : Bytes) : Bool :=
  if [47, 42].isSuffixOf stored then stored.dropLast.isPrefixOf got
  else stored == got

def pathQueryOff (path : Bytes) : Nat := (path.takeWhile (· ≠ 63)).length

def Route.accepts (route : Route) (method path : Bytes) : Bool :=
  route.used && route.method.bytes == method &&
    pathMatches route.path.bytes (path.take (pathQueryOff path))

/-- The block of a slot.  `rx`, `hdr` and `chunk` are the first `rx_len`, `hdr_len` and
`stream_chunk_len` bytes of the arrays, `body` the block that the pointer points at; no
`fd` is -1.  From `id` on a record: the bytes that `send` accepted and that the producer
gave, whether that one ended early, whether the answer is `DEFER_BUSY_BODY`, whether a
`send` was shown more than the body, and how often the descriptor was closed and a buffer
for the body taken and freed. -/
structure Conn where
  step : Nat
  fd : Option Nat
  rx : Bytes
  sndOff : Nat
  hdr : Bytes
  bodyBuf : Bool
  body : Bytes
  bodyLen : Nat
  ctype : Option CString
  stream : Bool
  streamSent : Nat
  chunk : Bytes
  deferWaits : Nat
  deferReady : Bool
  stallWaits : Nat
  id : Nat
  sent : Bytes
  given : Bytes
  dry : Bool
  busy : Bool
  strays : Bool
  closes : Nat
  takes : Nat
  frees : Nat
  deriving DecidableEq

namespace Conn

/-- What `spawn_conn` writes. -/
def fresh (id fd : Nat) : Conn where
  step := 0
  fd := some fd
  rx := []
  sndOff := 0
  hdr := []
  bodyBuf := false
  body := []
  bodyLen := 0
  ctype := none
  stream := false
  streamSent := 0
  chunk := []
  deferWaits := 0
  deferReady := false
  stallWaits := 0
  id := id
  sent := []
  given := []
  dry := false
  busy := false
  strays := false
  closes := 0
  takes := 0
  frees := 0

/-- `release_conn`, with an arena. -/
def release (c : Conn) : Conn :=
  { c with
    fd := none
    closes := c.closes + c.fd.isSome.toNat
    bodyBuf := false
    frees := c.frees + c.bodyBuf.toNat }

end Conn

def defaultBody : Bytes := ascii "asgi"

def defaultBodyLen : Nat := 4

def deferBusyBody : Bytes := ascii "no renderer"

def deferBusyBodyLen : Nat := 12

/-- What the callbacks of a route answer: `room` is the buffer for a handler, `output`
what the handler writes there. -/
structure Callbacks where
  room : Bool
  output : Option Bytes
  size : Nat

def Conn.handle (arena : Bool) (callbacks : Callbacks) (c : Conn) : Conn :=
  if !arena || !callbacks.room then c
  else
    let c := { c with takes := c.takes + 1 }
    match callbacks.output with
    | none => { c with frees := c.frees + 1 }
    | some bytes =>
        if bytes.length ≤ bodyMax then
          { c with bodyBuf := true, body := bytes, bodyLen := bytes.length }
        else { c with frees := c.frees + 1 }

/-- Whether the route is a deferred one, and what the connection has become. -/
def lookupInto (arena : Bool) (routes : List Route) (callbacks : Callbacks)
    (method path : Bytes) (c : Conn) : Bool × Conn :=
  match routes.find? fun route => route.accepts method path with
  | none => (false, { c with ctype := none, body := defaultBody, bodyLen := defaultBodyLen })
  | some route =>
      let c := { c with ctype := route.ctype }
      if route.defer then (true, c)
      else if route.handler then (false, c.handle arena callbacks)
      else if route.stream then
        let total := if route.streamSize then min callbacks.size streamMax else streamMax
        (false, { c with stream := true, streamSent := 0, chunk := [], bodyLen := total })
      else (false, { c with body := route.ext.getD route.body, bodyLen := route.bodyLen })

def Conn.refuse (c : Conn) : Conn :=
  { c with ctype := none, body := deferBusyBody, bodyLen := deferBusyBodyLen, busy := true }

def typeOfExt (ext : Bytes) : Bytes :=
  if ext = ascii ".html" then ascii "text/html; charset=utf-8"
  else if ext = ascii ".htm" then ascii "text/html; charset=utf-8"
  else if ext = ascii ".css" then ascii "text/css"
  else if ext = ascii ".js" then ascii "application/javascript"
  else if ext = ascii ".json" then ascii "application/json"
  else if ext = ascii ".svg" then ascii "image/svg+xml"
  else if ext = ascii ".png" then ascii "image/png"
  else ascii "application/octet-stream"

def ctypeOf (path : Bytes) : Bytes :=
  let path := (path.reverse.dropWhile (· = 0)).reverse
  if path = [47] then ascii "text/html; charset=utf-8"
  else if 46 ∈ path then typeOfExt (46 :: (path.reverse.takeWhile (· ≠ 46)).reverse)
  else ascii "application/octet-stream"

/-- The loop of `put_u64` over `tmp`, whose 20 bytes are enough for 64 bits. -/
def putTmp : Nat → Nat → Bytes
  | 0, _ => []
  | room + 1, v => UInt8.ofNat (48 + v % 10) :: if v / 10 = 0 then [] else putTmp room (v / 10)

def putU64 (v : Nat) : Bytes := (putTmp 20 v).reverse

def statusText : Bytes := ascii "HTTP/1.0 200 OK" ++ [13, 10] ++ ascii "Content-Type: "

def lengthText : Bytes := [13, 10] ++ ascii "Content-Length: "

def tailText : Bytes := [13, 10, 13, 10]

def Conn.typeText (c : Conn) (path : Bytes) : Bytes :=
  match c.ctype with
  | some declared => declared.bytes.take (hdrMax - statusText.length - 1)
  | none => ctypeOf path

def Conn.header (c : Conn) (path : Bytes) : Bytes :=
  statusText ++ c.typeText path ++ lengthText ++ putU64 c.bodyLen ++ tailText

/-- `none` is a write outside of `hdr`. -/
def buildHdr (path : Bytes) (c : Conn) : Option Conn :=
  if (c.header path).length ≤ hdrMax then some { c with hdr := c.header path } else none

inductive Status
  | waiting
  | done
  | error
  deriving DecidableEq

/-- One pass of the loop over a stream: what the producer and `send` answer. -/
structure Turn where
  chunk : Option Bytes
  sent : Option Nat

/-- What the calls inside one step of a connection answer; `none` is a failure.  `beyond`
is what the memory behind a body holds. -/
structure Answers where
  recv : Option Bytes
  callbacks : Callbacks
  grown : Option Nat
  slept : Bool
  header : Option Nat
  body : Option Nat
  turns : List Turn
  beyond : Nat → UInt8

/-- What comes of a step: the status, and whether `release_conn` and `conn_drop` are
called.  `torn` has written outside of `hdr`. -/
inductive Outcome
  | stays (status : Status) (c : Conn)
  | closes (status : Status) (c : Conn)
  | torn

/-- The bytes that a `send` of this part of a block sees. -/
def peek (block : Bytes) (beyond : Nat → UInt8) (offset n : Nat) : Bytes :=
  (List.range n).map fun i => block.getD (offset + i) (beyond (offset + i))

def sendPlain (answers : Answers) (c : Conn) : Outcome :=
  let left := c.bodyLen - c.sndOff
  if left = 0 then .closes .done { c with step := 3 }
  else
    let c := { c with strays := c.strays || decide (c.body.length < c.sndOff + left) }
    match answers.body with
    | none => .closes .error c
    | some taken =>
        let n := min taken left
        if n = 0 then .stays .waiting c
        else
          let c := { c with
            sndOff := c.sndOff + n
            sent := c.sent ++ peek c.body answers.beyond c.sndOff n }
          if c.sndOff < c.bodyLen then .stays .waiting c
          else .closes .done { c with step := 3 }

/-- A chunk to send: the old one, or a new one; otherwise the step is over. -/
def pull (chunk : Option Bytes) (c : Conn) : Conn ⊕ Outcome :=
  if c.sndOff < c.chunk.length then .inl c
  else
    match chunk with
    | none => .inr (.closes .error c)
    | some bytes =>
        let bytes := bytes.take (min (c.bodyLen - c.streamSent) streamChunk)
        let c := { c with chunk := bytes, sndOff := 0, given := c.given ++ bytes }
        if bytes.isEmpty then
          .inr (.closes .done { c with streamSent := c.bodyLen, step := 3, dry := true })
        else .inl c

def sendChunk (sent : Option Nat) (c : Conn) : Conn ⊕ Outcome :=
  match sent with
  | none => .inr (.closes .error c)
  | some taken =>
      let n := min taken (c.chunk.length - c.sndOff)
      if n = 0 then .inr (.stays .waiting c)
      else
        let c := { c with
          sndOff := c.sndOff + n
          streamSent := c.streamSent + n
          sent := c.sent ++ (c.chunk.drop c.sndOff).take n }
        if c.sndOff < c.chunk.length then .inr (.stays .waiting c) else .inl c

def streamTurn (turn : Turn) (c : Conn) : Conn ⊕ Outcome :=
  if c.bodyLen ≤ c.streamSent then .inr (.closes .done { c with step := 3 })
  else
    match pull turn.chunk c with
    | .inr outcome => .inr outcome
    | .inl c => sendChunk turn.sent c

/-- When no more answers are told, the producer fails and `send` takes nothing. -/
def streamLoop : List Turn → Conn → Outcome
  | [], c =>
      match streamTurn ⟨none, some 0⟩ c with
      | .inr outcome => outcome
      | .inl c => .stays .waiting c
  | turn :: turns, c =>
      match streamTurn turn c with
      | .inr outcome => outcome
      | .inl c => streamLoop turns c

def sendBody (answers : Answers) (c : Conn) : Outcome :=
  if c.stream then streamLoop answers.turns c else sendPlain answers c

def sendHdr (answers : Answers) (c : Conn) : Outcome :=
  if c.step = 1 then
    match answers.header with
    | none => .closes .error c
    | some taken =>
        let n := min taken (c.hdr.length - c.sndOff)
        if n = 0 then .stays .waiting c
        else
          let c := { c with
            sndOff := c.sndOff + n, sent := c.sent ++ (c.hdr.drop c.sndOff).take n }
          if c.sndOff < c.hdr.length then .stays .waiting c
          else sendBody answers { c with sndOff := 0, step := 2 }
  else if c.step = 2 then sendBody answers c
  else .closes .done c

/-- `build_hdr`, and on. -/
def respond (answers : Answers) (path : Bytes) (c : Conn) : Outcome :=
  match buildHdr path c with
  | none => .torn
  | some c => sendHdr answers { c with sndOff := 0, step := 1 }

def connStall (answers : Answers) (budget : Nat) (c : Conn) : Outcome :=
  let c := { c with stallWaits := c.stallWaits + 1 }
  if budget < c.stallWaits then .closes .error c
  else if answers.slept then .stays .waiting c
  else .closes .error c

/-- What step 0 comes to: the step is over, the request is for a renderer, or there is an
answer to it. -/
inductive Received
  | over_ (outcome : Outcome)
  | park (c : Conn) (path : Bytes)
  | answer (c : Conn) (path : Bytes)

def receive (arena : Bool) (routes : List Route) (answers : Answers) (c : Conn) : Received :=
  if rxMax ≤ c.rx.length then .over_ (.closes .error c)
  else
    match answers.recv with
    | none => .over_ (.closes .error c)
    | some bytes =>
        let bytes := bytes.take (rxMax - c.rx.length)
        if bytes.isEmpty then
          let budget := if c.rx.isEmpty then connIdleMaxWaits else connStallMaxWaits
          .over_ (connStall answers budget c)
        else
          let c := { c with stallWaits := 0, rx := c.rx ++ bytes }
          match findHeadersEnd c.rx with
          | none => .over_ (connStall answers connStallMaxWaits c)
          | some end_ =>
              match parseReq (c.rx.take end_) with
              | none => .over_ (.closes .error c)
              | some (method, path) =>
                  let path := path.take (pathMax - 1)
                  match lookupInto arena routes answers.callbacks (method.take 7) path c with
                  | (true, c) => .park { c with deferWaits := 0, deferReady := false } path
                  | (false, c) => .answer c path

end Metal.Net.Asgi
