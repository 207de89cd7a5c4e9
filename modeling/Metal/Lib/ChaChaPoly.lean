import Metal.Lib.Endian

namespace Metal.Lib.ChaChaPoly

/-! RFC 8439: the ChaCha20 stream, the Poly1305 tag and the two together as
AEAD_CHACHA20_POLY1305, as the text defines them. -/

def rotateLeft (x : UInt32) (n : Nat) : UInt32 := ⟨x.toBitVec.rotateLeft n⟩

def quarterRound (a b c d : UInt32) : UInt32 × UInt32 × UInt32 × UInt32 :=
  let a := a + b
  let d := rotateLeft (d ^^^ a) 16
  let c := c + d
  let b := rotateLeft (b ^^^ c) 12
  let a := a + b
  let d := rotateLeft (d ^^^ a) 8
  let c := c + d
  let b := rotateLeft (b ^^^ c) 7
  (a, b, c, d)

abbrev Lane := Fin 16

/-- 2.2 `QUARTERROUND(x, y, z, w)` on a state. -/
def quarterRoundAt (x y z w : Lane) (state : Vector UInt32 16) : Vector UInt32 16 :=
  let (a, b, c, d) := quarterRound state[x] state[y] state[z] state[w]
  Vector.ofFn fun i : Lane =>
    if i = x then a else if i = y then b else if i = z then c else if i = w then d else state[i]

def innerBlock (state : Vector UInt32 16) : Vector UInt32 16 :=
  let state := quarterRoundAt 0 4 8 12 state
  let state := quarterRoundAt 1 5 9 13 state
  let state := quarterRoundAt 2 6 10 14 state
  let state := quarterRoundAt 3 7 11 15 state
  let state := quarterRoundAt 0 5 10 15 state
  let state := quarterRoundAt 1 6 11 12 state
  let state := quarterRoundAt 2 7 8 13 state
  quarterRoundAt 3 4 9 14 state

def wordOf (bytes : Bytes) (i : Nat) : UInt32 :=
  UInt32.ofNat (leNat ((bytes.drop (4 * i)).take 4))

/-- Four constants, eight words of key, the block counter and three words of
nonce. -/
def initial (key : Bytes) (counter : UInt32) (nonce : Bytes) : Vector UInt32 16 :=
  Vector.ofFn fun i =>
    if i.val < 4 then #v[0x61707865, 0x3320646e, 0x79622d32, 0x6b206574].getD i.val 0
    else if i.val < 12 then wordOf key (i.val - 4)
    else if i.val = 12 then counter
    else wordOf nonce (i.val - 13)

/-- 2.3 `chacha20_block(key, counter, nonce)` -/
def block (key : Bytes) (counter : UInt32) (nonce : Bytes) : Bytes :=
  let state := initial key counter nonce
  let working := Nat.iterate innerBlock 10 state
  (Vector.zipWith (· + ·) state working).toList.flatMap fun word => natLe 4 word.toNat

/-- 2.4 `chacha20_encrypt(key, counter, nonce, plaintext)`: byte `i` meets byte
`i % 64` of the block `i / 64` further on. -/
def encrypt (key : Bytes) (counter : UInt32) (nonce plaintext : Bytes) : Bytes :=
  plaintext.mapIdx fun i byte =>
    byte ^^^ (block key (counter + UInt32.ofNat (i / 64)) nonce).getD (i % 64) 0

def prime : Nat := 2 ^ 130 - 5

def clamp (r : Nat) : Nat := r &&& 0x0ffffffc0ffffffc0ffffffc0fffffff

/-- The number of block `i` of a message, with one bit beyond its bytes. -/
def blockNat (msg : Bytes) (i : Nat) : Nat := leNat ((msg.drop (16 * i)).take 16 ++ [1])

/-- One block more: `a = (r * (a + n)) % p`. -/
def absorb (r a n : Nat) : Nat := r * (a + n) % prime

def accumulate (r a : Nat) (msg : Bytes) : Nat :=
  (List.range ((msg.length + 15) / 16)).foldl (fun a i => absorb r a (blockNat msg i)) a

/-- 2.5.1 `poly1305_mac(msg, key)` -/
def poly1305 (msg key : Bytes) : Bytes :=
  let r := clamp (leNat (key.take 16))
  let s := leNat ((key.drop 16).take 16)
  natLe 16 (accumulate r 0 msg + s)

/-- 2.6 `poly1305_key_gen(key, nonce)` -/
def polyKeyGen (key nonce : Bytes) : Bytes := (block key 0 nonce).take 32

/-- 2.8 `pad16(x)` -/
def pad16 (x : Bytes) : Bytes :=
  if x.length % 16 = 0 then [] else List.replicate (16 - x.length % 16) 0

def macData (aad ciphertext : Bytes) : Bytes :=
  aad ++ pad16 aad ++ ciphertext ++ pad16 ciphertext ++ natLe 8 aad.length ++
    natLe 8 ciphertext.length

/-- 2.8 `chacha20_aead_encrypt(aad, key, iv, constant, plaintext)` -/
def aeadEncrypt (aad key nonce plaintext : Bytes) : Bytes × Bytes :=
  let oneTimeKey := polyKeyGen key nonce
  let ciphertext := encrypt key 1 nonce plaintext
  (ciphertext, poly1305 (macData aad ciphertext) oneTimeKey)

end Metal.Lib.ChaChaPoly
