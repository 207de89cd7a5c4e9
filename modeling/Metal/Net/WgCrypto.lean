import Metal.Lib.Words
import Metal.Net.Wg

namespace Metal.Net.Wg

open Metal.Lib

/-! The primitives of `net/wg/__crypto__`: BLAKE2s with its HMAC and HKDF, and
ChaCha20-Poly1305. X25519 stays a parameter. -/

def load32Le (p : Bytes) : UInt32 := leU32 p

def store32Le (v : UInt32) : Bytes := leBytes32 v

def store64Le (v : UInt64) : Bytes := leBytes64 v

def storeWords {n : Nat} (words : Vector UInt32 n) : Bytes :=
  words.toList.flatMap store32Le

theorem length_storeWords {n : Nat} (words : Vector UInt32 n) :
    (storeWords words).length = 4 * n := by
  simp [storeWords, store32Le, List.length_flatMap, Nat.mul_comm]

def blake2sIv : Vector UInt32 8 :=
  #v[0x6A09E667, 0xBB67AE85, 0x3C6EF372, 0xA54FF53A,
    0x510E527F, 0x9B05688C, 0x1F83D9AB, 0x5BE0CD19]

def rotr32 (x n : UInt32) : UInt32 := (x >>> n) ||| (x <<< (32 - n))

def blake2sSigma : List (Vector (Fin 16) 16) :=
  [#v[0, 1, 2, 3, 4, 5, 6, 7, 8, 9, 10, 11, 12, 13, 14, 15],
    #v[14, 10, 4, 8, 9, 15, 13, 6, 1, 12, 0, 2, 11, 7, 5, 3],
    #v[11, 8, 12, 0, 5, 2, 15, 13, 10, 14, 3, 6, 7, 1, 9, 4],
    #v[7, 9, 3, 1, 13, 12, 11, 14, 2, 6, 5, 10, 4, 0, 15, 8],
    #v[9, 0, 5, 7, 2, 4, 10, 15, 14, 1, 11, 12, 6, 8, 3, 13],
    #v[2, 12, 6, 10, 0, 11, 8, 3, 4, 13, 7, 5, 15, 14, 1, 9],
    #v[12, 5, 1, 15, 14, 13, 4, 10, 0, 7, 6, 3, 9, 2, 8, 11],
    #v[13, 11, 7, 14, 12, 1, 3, 9, 5, 0, 15, 4, 8, 6, 2, 10],
    #v[6, 15, 14, 9, 11, 3, 0, 8, 12, 2, 13, 7, 1, 4, 10, 5],
    #v[10, 2, 8, 4, 7, 6, 1, 5, 15, 11, 9, 14, 3, 12, 13, 0]]

def b2sG (a b c d : Fin 16) (x y : UInt32) (v : Vector UInt32 16) :
    Vector UInt32 16 :=
  let v := v.set a (v[a] + v[b] + x)
  let v := v.set d (rotr32 (v[d] ^^^ v[a]) 16)
  let v := v.set c (v[c] + v[d])
  let v := v.set b (rotr32 (v[b] ^^^ v[c]) 12)
  let v := v.set a (v[a] + v[b] + y)
  let v := v.set d (rotr32 (v[d] ^^^ v[a]) 8)
  let v := v.set c (v[c] + v[d])
  v.set b (rotr32 (v[b] ^^^ v[c]) 7)

def blake2sRound (m v : Vector UInt32 16) (s : Vector (Fin 16) 16) :
    Vector UInt32 16 :=
  let v := b2sG 0 4 8 12 m[s[0]] m[s[1]] v
  let v := b2sG 1 5 9 13 m[s[2]] m[s[3]] v
  let v := b2sG 2 6 10 14 m[s[4]] m[s[5]] v
  let v := b2sG 3 7 11 15 m[s[6]] m[s[7]] v
  let v := b2sG 0 5 10 15 m[s[8]] m[s[9]] v
  let v := b2sG 1 6 11 12 m[s[10]] m[s[11]] v
  let v := b2sG 2 7 8 13 m[s[12]] m[s[13]] v
  b2sG 3 4 9 14 m[s[14]] m[s[15]] v

def blake2sCompress (h : Vector UInt32 8) (block : Bytes) (t : UInt64)
    (last : Bool) : Vector UInt32 8 :=
  let m : Vector UInt32 16 := Vector.ofFn fun i => load32Le (block.drop (4 * i.val))
  let v : Vector UInt32 16 := h ++ blake2sIv
  let v := v.set 12 (blake2sIv[4] ^^^ t.toUInt32)
  let v := v.set 13 (blake2sIv[5] ^^^ (t >>> 32).toUInt32)
  let v := if last then v.set 14 (~~~ v[14]) else v
  let v := blake2sSigma.foldl (blake2sRound m) v
  Vector.ofFn fun i => h[i] ^^^ v[i.val] ^^^ v[i.val + 8]

def blake2sBlocks : Nat → Vector UInt32 8 → UInt64 → Bytes →
    Vector UInt32 8 × UInt64 × Bytes
  | 0, h, t, input => (h, t, input)
  | fuel + 1, h, t, input =>
      if input.length > 64 then
        blake2sBlocks fuel (blake2sCompress h (input.take 64) (t + 64) false) (t + 64)
          (input.drop 64)
      else
        (h, t, input)

def keyOf (bytes : Bytes) : Key := Vector.ofFn fun i => bytes.getD i 0

def blake2s (input : Bytes) : Key :=
  let h := blake2sIv.set 0 (blake2sIv[0] ^^^ 0x01010020)
  let (h, t, rest) := blake2sBlocks input.length h 0 input
  let t := t + UInt64.ofNat rest.length
  keyOf (storeWords (blake2sCompress h (padded rest 64) t true))

def hmacBlake2s (key input : Bytes) : Key :=
  let key := if key.length > 64 then (blake2s key).toList else key
  let kpad := padded key 64
  let inner := kpad.map (· ^^^ 0x36)
  let outer := kpad.map (· ^^^ 0x5c)
  blake2s (outer ++ (blake2s (inner ++ input.take 256)).toList)

/-- `out1` may be the buffer of `ck`: it is written after `ck` was last read. -/
def hkdf2 (ck : Key) (ikm : Bytes) : Key × Key :=
  let prk := hmacBlake2s ck.toList ikm
  let out1 := hmacBlake2s prk.toList [1]
  let out2 := hmacBlake2s prk.toList (out1.toList ++ [2])
  (out1, out2)

def rotl32 (x n : UInt32) : UInt32 := (x <<< n) ||| (x >>> (32 - n))

def chachaQr (a b c d : Fin 16) (w : Vector UInt32 16) : Vector UInt32 16 :=
  let w := w.set a (w[a] + w[b])
  let w := w.set d (rotl32 (w[d] ^^^ w[a]) 16)
  let w := w.set c (w[c] + w[d])
  let w := w.set b (rotl32 (w[b] ^^^ w[c]) 12)
  let w := w.set a (w[a] + w[b])
  let w := w.set d (rotl32 (w[d] ^^^ w[a]) 8)
  let w := w.set c (w[c] + w[d])
  w.set b (rotl32 (w[b] ^^^ w[c]) 7)

/-- Two words of the state, one after the other: a sum, and a word turned by it. -/
def addTurn (a b d : Fin 16) (n : UInt32) (w : Vector UInt32 16) : Vector UInt32 16 :=
  let w := w.set a (w[a] + w[b])
  w.set d (rotl32 (w[d] ^^^ w[a]) n)

theorem addTurn_get {a b d : Fin 16} (ad : a ≠ d) (n : UInt32) (w : Vector UInt32 16) (i : Fin 16) :
    (addTurn a b d n w)[i] =
      if i = a then w[a] + w[b] else if i = d then rotl32 (w[d] ^^^ (w[a] + w[b])) n else w[i] := by
  simp only [addTurn, Fin.getElem_fin, Vector.getElem_set, Fin.val_inj, ad, if_false, if_true]
  by_cases atD : i = d
  · subst atD
    simp only [ad.symm, if_false, if_true]
  · simp only [Ne.symm atD, atD, if_false]
    by_cases atA : i = a
    · simp only [atA, if_true]
    · simp only [Ne.symm atA, atA, if_false]

def chachaDoubleRound (w : Vector UInt32 16) : Vector UInt32 16 :=
  let w := chachaQr 0 4 8 12 w
  let w := chachaQr 1 5 9 13 w
  let w := chachaQr 2 6 10 14 w
  let w := chachaQr 3 7 11 15 w
  let w := chachaQr 0 5 10 15 w
  let w := chachaQr 1 6 11 12 w
  let w := chachaQr 2 7 8 13 w
  chachaQr 3 4 9 14 w

def chacha20Block (st : Vector UInt32 16) : Bytes :=
  let w := (List.range 10).foldl (fun w _ => chachaDoubleRound w) st
  storeWords (Vector.zipWith (· + ·) w st)

def chachaState (key nonce : Bytes) (counter : UInt32) : Vector UInt32 16 :=
  #v[0x61707865, 0x3320646e, 0x79622d32, 0x6b206574,
    load32Le key, load32Le (key.drop 4), load32Le (key.drop 8),
    load32Le (key.drop 12), load32Le (key.drop 16), load32Le (key.drop 20),
    load32Le (key.drop 24), load32Le (key.drop 28),
    counter, load32Le nonce, load32Le (nonce.drop 4), load32Le (nonce.drop 8)]

def chacha20XorFrom (key nonce : Bytes) : Nat → UInt32 → Bytes → Bytes
  | 0, _, _ => []
  | fuel + 1, counter, input =>
      if input = [] then []
      else
        let blk := chacha20Block (chachaState key nonce counter)
        List.zipWith (· ^^^ ·) (input.take 64) blk ++
          chacha20XorFrom key nonce fuel (counter + 1) (input.drop 64)

def chacha20Xor (key nonce : Bytes) (counter : UInt32) (input : Bytes) : Bytes :=
  chacha20XorFrom key nonce input.length counter input

/-! ### Poly1305, in five limbs of 26 bits -/

structure Limbs where
  l0 : UInt32
  l1 : UInt32
  l2 : UInt32
  l3 : UInt32
  l4 : UInt32

def low26 : UInt32 := 0x3ffffff

/-- One block added to `h`, and the product with `r`. -/
def polyBlock (r h : Limbs) (block : Bytes) (hibit : UInt32) : Limbs :=
  let h0 := h.l0 + (load32Le block &&& low26)
  let h1 := h.l1 + ((load32Le (block.drop 3) >>> 2) &&& low26)
  let h2 := h.l2 + ((load32Le (block.drop 6) >>> 4) &&& low26)
  let h3 := h.l3 + ((load32Le (block.drop 9) >>> 6) &&& low26)
  let h4 := h.l4 + ((load32Le (block.drop 12) >>> 8) ||| hibit)
  let r0 := r.l0.toUInt64
  let r1 := r.l1.toUInt64
  let r2 := r.l2.toUInt64
  let r3 := r.l3.toUInt64
  let r4 := r.l4.toUInt64
  let w0 := h0.toUInt64
  let w1 := h1.toUInt64
  let w2 := h2.toUInt64
  let w3 := h3.toUInt64
  let w4 := h4.toUInt64
  let d0 := w0 * r0 + w1 * 5 * r4 + w2 * 5 * r3 + w3 * 5 * r2 + w4 * 5 * r1
  let d1 := w0 * r1 + w1 * r0 + w2 * 5 * r4 + w3 * 5 * r3 + w4 * 5 * r2
  let d2 := w0 * r2 + w1 * r1 + w2 * r0 + w3 * 5 * r4 + w4 * 5 * r3
  let d3 := w0 * r3 + w1 * r2 + w2 * r1 + w3 * r0 + w4 * 5 * r4
  let d4 := w0 * r4 + w1 * r3 + w2 * r2 + w3 * r1 + w4 * r0
  let c := d0 >>> 26
  let h0 := d0.toUInt32 &&& low26
  let d1 := d1 + c
  let c := d1 >>> 26
  let h1 := d1.toUInt32 &&& low26
  let d2 := d2 + c
  let c := d2 >>> 26
  let h2 := d2.toUInt32 &&& low26
  let d3 := d3 + c
  let c := d3 >>> 26
  let h3 := d3.toUInt32 &&& low26
  let d4 := d4 + c
  let c := d4 >>> 26
  let h4 := d4.toUInt32 &&& low26
  let h0 := h0 + c.toUInt32 * 5
  let c := h0 >>> 26
  let h0 := h0 &&& low26
  let h1 := h1 + c
  ⟨h0, h1, h2, h3, h4⟩

/-- The blocks of one message; a short last block is marked by a 1 byte. -/
def polyAbsorb (r : Limbs) : Nat → Limbs → Bytes → Limbs
  | 0, h, _ => h
  | fuel + 1, h, msg =>
      if msg = [] then h
      else
        let chunk := msg.take 16
        let h :=
          if chunk.length < 16 then polyBlock r h (padded (chunk ++ [1]) 16) 0
          else polyBlock r h chunk ((1 : UInt32) <<< 24)
        polyAbsorb r fuel h (msg.drop 16)

def polyFinish (h : Limbs) (pad : Vector UInt32 4) : Bytes :=
  let h1 := h.l1 + (h.l0 >>> 26)
  let h0 := h.l0 &&& low26
  let h2 := h.l2 + (h1 >>> 26)
  let h1 := h1 &&& low26
  let h3 := h.l3 + (h2 >>> 26)
  let h2 := h2 &&& low26
  let h4 := h.l4 + (h3 >>> 26)
  let h3 := h3 &&& low26
  let h0 := h0 + (5 : UInt32) * (h4 >>> 26)
  let h4 := h4 &&& low26
  let h1 := h1 + (h0 >>> 26)
  let h0 := h0 &&& low26
  let g0 := h0 + 5
  let g1 := h1 + (g0 >>> 26)
  let g0 := g0 &&& low26
  let g2 := h2 + (g1 >>> 26)
  let g1 := g1 &&& low26
  let g3 := h3 + (g2 >>> 26)
  let g2 := g2 &&& low26
  let g4 := h4 + (g3 >>> 26)
  let g3 := g3 &&& low26
  let mask := (g4 >>> 26) - 1
  let g4 := g4 &&& low26
  let h0 := (h0 &&& mask) ||| (g0 &&& ~~~ mask)
  let h1 := (h1 &&& mask) ||| (g1 &&& ~~~ mask)
  let h2 := (h2 &&& mask) ||| (g2 &&& ~~~ mask)
  let h3 := (h3 &&& mask) ||| (g3 &&& ~~~ mask)
  let h4 := (h4 &&& mask) ||| (g4 &&& ~~~ mask)
  let s0 := h0 ||| (h1 <<< 26)
  let s1 := (h1 >>> 6) ||| (h2 <<< 20)
  let s2 := (h2 >>> 12) ||| (h3 <<< 14)
  let s3 := (h3 >>> 18) ||| (h4 <<< 8)
  let f0 := s0.toUInt64 + pad[0].toUInt64
  let f1 := s1.toUInt64 + pad[1].toUInt64 + (f0 >>> 32)
  let f2 := s2.toUInt64 + pad[2].toUInt64 + (f1 >>> 32)
  let f3 := s3.toUInt64 + pad[3].toUInt64 + (f2 >>> 32)
  store32Le f0.toUInt32 ++ store32Le f1.toUInt32 ++ store32Le f2.toUInt32 ++
    store32Le f3.toUInt32

/-- The end of `polyFinish`. -/
def output (h : Limbs) (pad : Vector UInt32 4) : Bytes :=
  let s0 := h.l0 ||| (h.l1 <<< 26)
  let s1 := (h.l1 >>> 6) ||| (h.l2 <<< 20)
  let s2 := (h.l2 >>> 12) ||| (h.l3 <<< 14)
  let s3 := (h.l3 >>> 18) ||| (h.l4 <<< 8)
  let f0 := s0.toUInt64 + pad[0].toUInt64
  let f1 := s1.toUInt64 + pad[1].toUInt64 + (f0 >>> 32)
  let f2 := s2.toUInt64 + pad[2].toUInt64 + (f1 >>> 32)
  let f3 := s3.toUInt64 + pad[3].toUInt64 + (f2 >>> 32)
  store32Le f0.toUInt32 ++ store32Le f1.toUInt32 ++ store32Le f2.toUInt32 ++
    store32Le f3.toUInt32

def padValue (pad : Vector UInt32 4) : Nat :=
  pad[0].toNat + 2 ^ 32 * pad[1].toNat + 2 ^ 64 * pad[2].toNat + 2 ^ 96 * pad[3].toNat

def padWords (pad : Vector UInt32 4) : UInt32 × UInt32 × UInt32 × UInt32 :=
  (pad[0], pad[1], pad[2], pad[3])

def poly1305Mac (key ad ct : Bytes) : Tag :=
  let r : Limbs :=
    { l0 := load32Le key &&& 0x3ffffff
      l1 := (load32Le (key.drop 3) >>> 2) &&& 0x3ffff03
      l2 := (load32Le (key.drop 6) >>> 4) &&& 0x3ffc0ff
      l3 := (load32Le (key.drop 9) >>> 6) &&& 0x3f03fff
      l4 := (load32Le (key.drop 12) >>> 8) &&& 0x00fffff }
  let pad : Vector UInt32 4 :=
    Vector.ofFn fun i => load32Le (key.drop (16 + 4 * i.val))
  let h := polyAbsorb r ad.length ⟨0, 0, 0, 0, 0⟩ ad
  let h := polyAbsorb r ct.length h ct
  let lens := store64Le (UInt64.ofNat ad.length) ++ store64Le (UInt64.ofNat ct.length)
  let h := polyBlock r h lens ((1 : UInt32) <<< 24)
  let bytes := polyFinish h pad
  Vector.ofFn fun i => bytes.getD i 0

def noiseNonce (n : UInt64) : Bytes := [0, 0, 0, 0] ++ store64Le n

def aeadEncrypt (key : Key) (nonce : UInt64) (ad pt : Bytes) : Bytes × Tag :=
  let n12 := noiseNonce nonce
  let polyKey := chacha20Block (chachaState key.toList n12 0)
  let ct := chacha20Xor key.toList n12 1 pt
  (ct, poly1305Mac polyKey ad ct)

def aeadDecrypt (key : Key) (nonce : UInt64) (ad ct : Bytes) (tag : Tag) :
    Option Bytes :=
  let n12 := noiseNonce nonce
  let polyKey := chacha20Block (chachaState key.toList n12 0)
  let expect := poly1305Mac polyKey ad ct
  if expect = tag then some (chacha20Xor key.toList n12 1 ct) else none

end Metal.Net.Wg
