import Metal.Net.WgPoly

namespace Metal.Net.Wg

open Metal.Lib

/-! `pm_metal_wg_aead_encrypt` and the AEAD of RFC 8439: the ciphertext is the
same for messages of any lengths, the tag where both end on a whole block. -/

theorem rotl32_16 (x : UInt32) : rotl32 x 16 = ChaChaPoly.rotateLeft x 16 := rfl
theorem rotl32_12 (x : UInt32) : rotl32 x 12 = ChaChaPoly.rotateLeft x 12 := rfl
theorem rotl32_8 (x : UInt32) : rotl32 x 8 = ChaChaPoly.rotateLeft x 8 := rfl
theorem rotl32_7 (x : UInt32) : rotl32 x 7 = ChaChaPoly.rotateLeft x 7 := rfl

theorem chachaQr_addTurn (a b c d : Fin 16) (w : Vector UInt32 16) :
    chachaQr a b c d w =
      addTurn c d b 7 (addTurn a b d 8 (addTurn c d b 12 (addTurn a b d 16 w))) := rfl

theorem chachaQr_eq {a b c d : Fin 16} (ab : a ≠ b) (ac : a ≠ c) (ad : a ≠ d) (bc : b ≠ c)
    (bd : b ≠ d) (cd : c ≠ d) (w : Vector UInt32 16) :
    chachaQr a b c d w = ChaChaPoly.quarterRoundAt a b c d w := by
  rw [chachaQr_addTurn]
  have first := addTurn_get ad (b := b) 16 w
  generalize addTurn a b d 16 w = w₁ at *
  have second := addTurn_get bc.symm (b := d) 12 w₁
  generalize addTurn c d b 12 w₁ = w₂ at *
  have third := addTurn_get ad (b := b) 8 w₂
  generalize addTurn a b d 8 w₂ = w₃ at *
  have fourth := addTurn_get bc.symm (b := d) 7 w₃
  generalize addTurn c d b 7 w₃ = w₄ at *
  suffices each : ∀ j : Fin 16, w₄[j] = (ChaChaPoly.quarterRoundAt a b c d w)[j] by
    apply Vector.ext
    intro i inside
    exact each ⟨i, inside⟩
  intro j
  simp only [ChaChaPoly.quarterRoundAt, ChaChaPoly.quarterRound, Fin.getElem_fin,
    Vector.getElem_ofFn, Fin.eta]
  simp only [Fin.getElem_fin] at first second third fourth
  simp only [fourth, third, second, first, ab, ac, ad, bc, bd, cd, ab.symm, ac.symm, ad.symm,
    bc.symm, bd.symm, cd.symm, if_false, if_true, rotl32_16, rotl32_12, rotl32_8, rotl32_7]
  by_cases atA : j = a
  · subst atA
    simp only [ab, ac, if_false, if_true]
  · simp only [atA, if_false]
    by_cases atB : j = b
    · subst atB
      simp only [bc, if_false, if_true]
    · simp only [atB, if_false]
      by_cases atC : j = c
      · simp only [atC, if_true]
      · simp only [atC, if_false]
        by_cases atD : j = d
        · simp only [atD, if_true]
        · simp only [atD, if_false]

theorem chachaDoubleRound_eq (w : Vector UInt32 16) :
    chachaDoubleRound w = ChaChaPoly.innerBlock w := by
  have quarter {a b c d : Fin 16} (different : [a, b, c, d].Nodup) (w : Vector UInt32 16) :
      chachaQr a b c d w = ChaChaPoly.quarterRoundAt a b c d w := by
    simp only [List.nodup_cons, List.mem_cons, List.not_mem_nil, or_false, not_or] at different
    obtain ⟨⟨ab, ac, ad⟩, ⟨bc, bd⟩, cd, -⟩ := different
    exact chachaQr_eq ab ac ad bc bd cd w
  rw [chachaDoubleRound, ChaChaPoly.innerBlock]
  rw [quarter (by decide), quarter (by decide), quarter (by decide), quarter (by decide),
    quarter (by decide), quarter (by decide), quarter (by decide), quarter (by decide)]

theorem wordOf_eq (bytes : Bytes) (i : Nat) :
    ChaChaPoly.wordOf bytes i = load32Le (bytes.drop (4 * i)) := by
  apply UInt32.toNat_inj.mp
  rw [ChaChaPoly.wordOf, leNat_take, load32Le, toNat_leU32, UInt32.toNat_ofNat']
  exact Nat.mod_mod _ _

theorem chachaState_eq (key nonce : Bytes) (counter : UInt32) :
    chachaState key nonce counter = ChaChaPoly.initial key counter nonce := by
  apply Vector.ext
  intro i inside
  rw [ChaChaPoly.initial, Vector.getElem_ofFn]
  simp only [wordOf_eq]
  interval_cases i <;> rfl

theorem chacha20Block_eq (key nonce : Bytes) (counter : UInt32) :
    chacha20Block (chachaState key nonce counter) = ChaChaPoly.block key counter nonce := by
  have rounds (st : Vector UInt32 16) :
      (List.range 10).foldl (fun w _ => chachaDoubleRound w) st =
        Nat.iterate ChaChaPoly.innerBlock 10 st := by
    simp only [chachaDoubleRound_eq]
    rfl
  have swapped (st w : Vector UInt32 16) :
      Vector.zipWith (· + ·) w st = Vector.zipWith (· + ·) st w := by
    apply Vector.ext
    intro i inside
    rw [Vector.getElem_zipWith, Vector.getElem_zipWith, UInt32.add_comm]
  have stored : store32Le = fun word => natLe 4 word.toNat := funext leBytes32_eq
  rw [chacha20Block, ChaChaPoly.block, chachaState_eq, rounds, storeWords, swapped, stored]

theorem chacha20Block_length (st : Vector UInt32 16) : (chacha20Block st).length = 64 := by
  rw [chacha20Block, length_storeWords]

theorem zipWith_block {piece blk : Bytes} (short : piece.length ≤ 64) (length : blk.length = 64) :
    List.zipWith (· ^^^ ·) piece blk = piece.mapIdx fun i byte => byte ^^^ blk.getD (i % 64) 0 := by
  apply List.ext_getElem
  · rw [List.length_zipWith, List.length_mapIdx, length]
    omega
  · intro i inside inside'
    rw [List.length_mapIdx] at inside'
    rw [List.getElem_zipWith, List.getElem_mapIdx, Nat.mod_eq_of_lt (by omega),
      List.getD_eq_getElem?_getD, List.getElem?_eq_getElem (by omega)]
    rfl

theorem mapIdx_blocks (blk : UInt32 → Bytes) (counter : UInt32) (input : Bytes) :
    (input.mapIdx fun i byte =>
        byte ^^^ (blk (counter + UInt32.ofNat (i / 64))).getD (i % 64) 0) =
      ((input.take 64).mapIdx fun i byte => byte ^^^ (blk counter).getD (i % 64) 0) ++
        (input.drop 64).mapIdx fun i byte =>
          byte ^^^ (blk (counter + 1 + UInt32.ofNat (i / 64))).getD (i % 64) 0 := by
  apply List.ext_getElem
  · rw [List.length_append, List.length_mapIdx, List.length_mapIdx, List.length_mapIdx,
      ← List.length_append, List.take_append_drop]
  · intro i inside inside'
    rw [List.length_mapIdx] at inside
    rw [List.getElem_mapIdx, List.getElem_append]
    split
    next before =>
      rw [List.length_mapIdx, List.length_take] at before
      rw [List.getElem_mapIdx, List.getElem_take, Nat.div_eq_of_lt (by omega),
        show UInt32.ofNat 0 = 0 from rfl, UInt32.add_zero]
    next after =>
      rw [List.length_mapIdx, List.length_take] at after
      have long : (input.take 64).length = 64 := by
        rw [List.length_take]
        omega
      have next : i = i - 64 + 64 := by omega
      have quotient : UInt32.ofNat (i / 64) = 1 + UInt32.ofNat ((i - 64) / 64) := by
        rw [show i / 64 = (i - 64) / 64 + 1 by omega, UInt32.ofNat_add, UInt32.add_comm]
        rfl
      have remainder : i % 64 = (i - 64) % 64 := by omega
      rw [List.getElem_mapIdx, List.getElem_drop]
      simp only [List.length_mapIdx, long]
      rw [quotient, remainder, ← UInt32.add_assoc]
      congr 2
      omega

theorem chacha20XorFrom_eq (key nonce : Bytes) (fuel : Nat) {input : Bytes}
    (enough : input.length ≤ fuel) (counter : UInt32) :
    chacha20XorFrom key nonce fuel counter input =
      ChaChaPoly.encrypt key counter nonce input := by
  induction fuel generalizing input counter with
  | zero =>
      rw [List.eq_nil_of_length_eq_zero (Nat.le_zero.mp enough)]
      rfl
  | succ fuel ih =>
      rw [chacha20XorFrom]
      split
      next none_ =>
        subst none_
        rfl
      next some_ =>
        have pos := List.length_pos_iff.mpr some_
        have rest : (input.drop 64).length ≤ fuel := by
          rw [List.length_drop]
          omega
        dsimp only
        rw [ih rest, zipWith_block (List.length_take_le 64 input) (chacha20Block_length _),
          chacha20Block_eq]
        exact (mapIdx_blocks (fun counter => ChaChaPoly.block key counter nonce) counter input).symm

theorem chacha20Xor_eq (key nonce : Bytes) (counter : UInt32) (input : Bytes) :
    chacha20Xor key nonce counter input = ChaChaPoly.encrypt key counter nonce input :=
  chacha20XorFrom_eq key nonce input.length (Nat.le_refl _) counter

theorem accumulate_append (r a : Nat) {front : Bytes} (whole : 16 ∣ front.length) (rest : Bytes) :
    ChaChaPoly.accumulate r a (front ++ rest) =
      ChaChaPoly.accumulate r (ChaChaPoly.accumulate r a front) rest := by
  obtain ⟨blocks, length⟩ := whole
  induction blocks generalizing a front with
  | zero =>
      rw [List.eq_nil_of_length_eq_zero length]
      rfl
  | succ blocks ih =>
      have some_ : front ≠ [] := by
        rintro rfl
        cases length
      have longer : front ++ rest ≠ [] := fun none_ => some_ (List.append_eq_nil_iff.mp none_).1
      have long : 16 ≤ front.length := by omega
      rw [accumulate_take longer, accumulate_take some_, List.take_append_of_le_length long,
        List.drop_append_of_le_length long]
      exact ih _ (by rw [List.length_drop]; omega)

theorem length_pad16 (x : Bytes) : 16 ∣ (x ++ ChaChaPoly.pad16 x).length := by
  rw [ChaChaPoly.pad16]
  split
  · rw [List.append_nil]
    omega
  · rw [List.length_append, List.length_replicate]
    omega

theorem pad16_whole {x : Bytes} (whole : 16 ∣ x.length) : ChaChaPoly.pad16 x = [] := by
  rw [ChaChaPoly.pad16, if_pos (Nat.mod_eq_zero_of_dvd whole)]

theorem poly1305_macData (key ad ct : Bytes) :
    ChaChaPoly.poly1305 (ChaChaPoly.macData ad ct) key =
      let r := ChaChaPoly.clamp (leNat (key.take 16))
      let a := ChaChaPoly.accumulate r (ChaChaPoly.accumulate r 0 (ad ++ ChaChaPoly.pad16 ad))
        (ct ++ ChaChaPoly.pad16 ct)
      natLe 16 (ChaChaPoly.accumulate r a (lengths ad ct) + leNat ((key.drop 16).take 16)) := by
  have split : ChaChaPoly.macData ad ct = (ad ++ ChaChaPoly.pad16 ad) ++
      ((ct ++ ChaChaPoly.pad16 ct) ++ lengths ad ct) := by
    rw [ChaChaPoly.macData, lengths]
    simp only [List.append_assoc]
  rw [ChaChaPoly.poly1305, split]
  dsimp only
  rw [accumulate_append _ _ (length_pad16 ad), accumulate_append _ _ (length_pad16 ct)]

theorem poly1305Mac_whole (key : Bytes) {ad ct : Bytes} (adFits : ad.length < 2 ^ 64)
    (ctFits : ct.length < 2 ^ 64) (adWhole : 16 ∣ ad.length) (ctWhole : 16 ∣ ct.length) :
    (poly1305Mac key ad ct).toList =
      ChaChaPoly.poly1305 (ChaChaPoly.macData ad ct) key := by
  rw [poly1305Mac_value key adFits ctFits, poly1305_macData, pad16_whole adWhole,
    pad16_whole ctWhole, List.append_nil, List.append_nil]

/-- The numbers of all blocks together: what a key with `r = 1` accumulates. -/
def total (msg : Bytes) : Nat :=
  ((List.range ((msg.length + 15) / 16)).map (ChaChaPoly.blockNat msg)).sum

theorem accumulate_one (a : Nat) (msg : Bytes) :
    ChaChaPoly.accumulate 1 a msg ≡ a + total msg [MOD ChaChaPoly.prime] := by
  rw [ChaChaPoly.accumulate, total]
  induction List.range ((msg.length + 15) / 16) generalizing a with
  | nil => exact Nat.ModEq.refl a
  | cons i rest ih =>
      rw [List.foldl_cons, List.map_cons, List.sum_cons, ← Nat.add_assoc]
      refine (ih _).trans (Nat.ModEq.add_right _ ?_)
      rw [ChaChaPoly.absorb, Nat.one_mul]
      exact Nat.mod_modEq _ _

theorem total_take {msg : Bytes} (some_ : msg ≠ []) :
    total msg = leNat (msg.take 16 ++ [1]) + total (msg.drop 16) := by
  have pos := List.length_pos_iff.mpr some_
  have count : (msg.length + 15) / 16 = ((msg.drop 16).length + 15) / 16 + 1 := by
    rw [List.length_drop]
    omega
  have later : ChaChaPoly.blockNat msg ∘ Nat.succ = ChaChaPoly.blockNat (msg.drop 16) :=
    funext (blockNat_succ msg)
  rw [total, total, count, List.range_succ_eq_map, List.map_cons, List.sum_cons, List.map_map,
    later]
  rfl

/-- How much the marking byte of a short block falls short of the bit behind a
padded one. -/
def shortfall (msg : Bytes) : Nat :=
  if msg.length % 16 = 0 then 0 else 2 ^ 128 - 2 ^ (8 * (msg.length % 16))

theorem total_short {msg : Bytes} (some_ : msg ≠ []) (short : msg.length < 16) :
    total (msg ++ ChaChaPoly.pad16 msg) = total msg + shortfall msg := by
  have pos := List.length_pos_iff.mpr some_
  have partial_ : msg.length % 16 = msg.length := Nat.mod_eq_of_lt short
  have below : 2 ^ (8 * msg.length) ≤ 2 ^ 128 := Nat.pow_le_pow_right (by decide) (by omega)
  have padded_ : ChaChaPoly.pad16 msg = List.replicate (16 - msg.length) 0 := by
    rw [ChaChaPoly.pad16, partial_, if_neg (by omega)]
  have length : (msg ++ List.replicate (16 - msg.length) (0 : UInt8)).length = 16 := by
    rw [List.length_append, List.length_replicate]
    omega
  have longer : msg ++ List.replicate (16 - msg.length) (0 : UInt8) ≠ [] :=
    fun none_ => some_ (List.append_eq_nil_iff.mp none_).1
  rw [padded_, total_take longer, total_take some_, shortfall, partial_, if_neg (by omega),
    List.take_of_length_le (Nat.le_of_eq length), List.drop_eq_nil_of_le (Nat.le_of_eq length),
    List.take_of_length_le (by omega), List.drop_eq_nil_of_le (by omega), leNat_mark, leNat_mark,
    length, leNat_append, leNat_zeros]
  omega

theorem total_pad16 (msg : Bytes) :
    total (msg ++ ChaChaPoly.pad16 msg) = total msg + shortfall msg := by
  induction length : msg.length using Nat.strong_induction_on generalizing msg with
  | h n ih =>
      by_cases none_ : msg = []
      · subst none_
        rfl
      · rcases Nat.lt_or_ge msg.length 16 with short | long
        · exact total_short none_ short
        · have longer : msg ++ ChaChaPoly.pad16 msg ≠ [] :=
            fun both => none_ (List.append_eq_nil_iff.mp both).1
          have rest : (msg.drop 16).length % 16 = msg.length % 16 := by
            rw [List.length_drop]
            omega
          have pad : ChaChaPoly.pad16 (msg.drop 16) = ChaChaPoly.pad16 msg := by
            rw [ChaChaPoly.pad16, ChaChaPoly.pad16, rest]
          have lacks : shortfall (msg.drop 16) = shortfall msg := by
            rw [shortfall, shortfall, rest]
          have induced := ih (msg.drop 16).length
            (by rw [List.length_drop]; omega) (msg.drop 16) rfl
          rw [pad, lacks] at induced
          rw [total_take longer, total_take none_, List.take_append_of_le_length long,
            List.drop_append_of_le_length long, induced, Nat.add_assoc]

theorem shortfall_bounds {msg : Bytes} (partial_ : ¬ 16 ∣ msg.length) :
    2 ^ 128 - 2 ^ 120 ≤ shortfall msg ∧ shortfall msg ≤ 2 ^ 128 - 2 ^ 8 := by
  have low : (2 : Nat) ^ 8 ≤ 2 ^ (8 * (msg.length % 16)) :=
    Nat.pow_le_pow_right (by decide) (by omega)
  have high : (2 : Nat) ^ (8 * (msg.length % 16)) ≤ 2 ^ 120 :=
    Nat.pow_le_pow_right (by decide) (by omega)
  rw [shortfall, if_neg (by omega)]
  omega

/-- The one-time key with `r = 1` and no pad. -/
def unitKey : Bytes := 1 :: List.replicate 31 0

theorem unitKey_clamp : ChaChaPoly.clamp (leNat (unitKey.take 16)) = 1 := by decide

theorem unitKey_pad : leNat ((unitKey.drop 16).take 16) = 0 := by decide

theorem accumulate_unit (first second : Bytes) {last : Bytes} (length : last.length = 16) :
    ChaChaPoly.accumulate 1
        (ChaChaPoly.accumulate 1 (ChaChaPoly.accumulate 1 0 first) second) last =
      (total first + total second + total last) % ChaChaPoly.prime := by
  have both := (accumulate_one (ChaChaPoly.accumulate 1 0 first) second).trans
    ((accumulate_one 0 first).add_right (total second))
  have all := (accumulate_one _ last).trans (both.add_right (total last))
  rw [Nat.zero_add] at all
  have reduced : ChaChaPoly.accumulate 1
      (ChaChaPoly.accumulate 1 (ChaChaPoly.accumulate 1 0 first) second) last <
      ChaChaPoly.prime := by
    rw [accumulate_block length, ChaChaPoly.absorb]
    exact Nat.mod_lt _ (by decide)
  rw [← Nat.mod_eq_of_lt reduced]
  exact all

theorem mod_apart {t d : Nat} (bounds : 2 ^ 128 - 2 ^ 120 ≤ d ∧ d ≤ 2 ^ 128 - 2 ^ 8 ∨
    2 ^ 129 - 2 ^ 121 ≤ d ∧ d ≤ 2 ^ 129 - 2 ^ 9) :
    t % ChaChaPoly.prime % 256 ^ 16 ≠ (t + d) % ChaChaPoly.prime % 256 ^ 16 := by
  have below : t % ChaChaPoly.prime < ChaChaPoly.prime := Nat.mod_lt _ (by decide)
  have less : d < ChaChaPoly.prime := by
    rw [ChaChaPoly.prime]
    omega
  rw [Nat.add_mod, Nat.mod_eq_of_lt less]
  generalize t % ChaChaPoly.prime = x at *
  rcases Nat.lt_or_ge (x + d) ChaChaPoly.prime with inside | wraps
  · rw [Nat.mod_eq_of_lt inside]
    omega
  · have once : x + d - ChaChaPoly.prime < ChaChaPoly.prime := by omega
    rw [Nat.mod_eq_sub_mod wraps, Nat.mod_eq_of_lt once]
    rw [ChaChaPoly.prime] at wraps ⊢
    omega

/-- Where a message ends on a short block, this key tells the two tags apart,
whatever the messages are. -/
theorem poly1305Mac_short {ad ct : Bytes} (adFits : ad.length < 2 ^ 64)
    (ctFits : ct.length < 2 ^ 64) (partial_ : ¬ (16 ∣ ad.length ∧ 16 ∣ ct.length)) :
    (poly1305Mac unitKey ad ct).toList ≠
      ChaChaPoly.poly1305 (ChaChaPoly.macData ad ct) unitKey := by
  intro same
  rw [poly1305Mac_value unitKey adFits ctFits, poly1305_macData] at same
  dsimp only at same
  have tags := congrArg leNat same
  have sum : total ad + shortfall ad + (total ct + shortfall ct) + total (lengths ad ct) =
      total ad + total ct + total (lengths ad ct) + (shortfall ad + shortfall ct) := by omega
  rw [unitKey_clamp, unitKey_pad, leNat_natLe, leNat_natLe, Nat.add_zero, Nat.add_zero,
    accumulate_unit ad ct (length_lengths ad ct), accumulate_unit _ _ (length_lengths ad ct),
    total_pad16, total_pad16, sum] at tags
  refine mod_apart ?_ tags
  have whole {msg : Bytes} (divides : 16 ∣ msg.length) : shortfall msg = 0 :=
    if_pos (Nat.mod_eq_zero_of_dvd divides)
  by_cases adWhole : 16 ∣ ad.length
  · rw [whole adWhole, Nat.zero_add]
    exact .inl (shortfall_bounds fun ctWhole => partial_ ⟨adWhole, ctWhole⟩)
  · have adShort := shortfall_bounds adWhole
    by_cases ctWhole : 16 ∣ ct.length
    · rw [whole ctWhole, Nat.add_zero]
      exact .inl adShort
    · have ctShort := shortfall_bounds ctWhole
      omega

theorem poly1305_keyGen (msg block : Bytes) :
    ChaChaPoly.poly1305 msg (block.take 32) = ChaChaPoly.poly1305 msg block := by
  rw [ChaChaPoly.poly1305, ChaChaPoly.poly1305, List.take_take, List.drop_take, List.take_take]
  rfl

/-- The ciphertext is the one of RFC 8439, always. The tag is, where both
messages end on a whole block; and as a function of the one-time key it is only
there. -/
theorem aeadEncrypt_rfc (key : Key) (nonce : UInt64) {ad pt : Bytes}
    (adFits : ad.length < 2 ^ 32) (ptFits : pt.length < 2 ^ 32) :
    let text := ChaChaPoly.aeadEncrypt ad key.toList (noiseNonce nonce) pt
    (aeadEncrypt key nonce ad pt).1 = text.1 ∧
    (16 ∣ ad.length ∧ 16 ∣ pt.length →
      (aeadEncrypt key nonce ad pt).2.toList = text.2) ∧
    ((∀ oneTimeKey : Bytes, (poly1305Mac oneTimeKey ad text.1).toList =
        ChaChaPoly.poly1305 (ChaChaPoly.macData ad text.1) oneTimeKey) ↔
      16 ∣ ad.length ∧ 16 ∣ pt.length) := by
  have ciphertext : (aeadEncrypt key nonce ad pt).1 =
      ChaChaPoly.encrypt key.toList 1 (noiseNonce nonce) pt := chacha20Xor_eq _ _ _ _
  have length : (ChaChaPoly.encrypt key.toList 1 (noiseNonce nonce) pt).length = pt.length :=
    List.length_mapIdx
  have adFits' : ad.length < 2 ^ 64 := by omega
  have ctFits : (ChaChaPoly.encrypt key.toList 1 (noiseNonce nonce) pt).length < 2 ^ 64 := by
    omega
  refine ⟨ciphertext, ?_, ?_⟩
  · rintro ⟨adWhole, ptWhole⟩
    rw [← length] at ptWhole
    change (poly1305Mac (chacha20Block (chachaState key.toList (noiseNonce nonce) 0)) ad
      (aeadEncrypt key nonce ad pt).1).toList = _
    rw [ciphertext, chacha20Block_eq, poly1305Mac_whole _ adFits' ctFits adWhole ptWhole,
      ← poly1305_keyGen]
    rfl
  · rw [← length]
    constructor
    · intro all
      by_contra partial_
      exact poly1305Mac_short adFits' ctFits partial_ (all unitKey)
    · rintro ⟨adWhole, ctWhole⟩ oneTimeKey
      exact poly1305Mac_whole oneTimeKey adFits' ctFits adWhole ctWhole

theorem aeadEncrypt_rfc_block :
    (aeadEncrypt zeroKey 0 [] (List.replicate 16 0)).2.toList =
      (ChaChaPoly.aeadEncrypt [] zeroKey.toList (noiseNonce 0) (List.replicate 16 0)).2 :=
  (aeadEncrypt_rfc zeroKey 0 (by decide) (by decide)).2.1 (by decide)

def zeroState : Vector UInt32 16 := chachaState zeroKey.toList (noiseNonce 0) 0

def zeroState4 : Vector UInt32 16 :=
  #v[3464398809, 2736782107, 1867918925, 914662315, 3272508460, 998218446, 2296453912, 505049583,
    1927367832, 1097802169, 1733510303, 425094469, 2739030577, 28346074, 3103619896, 1123945486]

def zeroState7 : Vector UInt32 16 :=
  #v[1843350424, 1608384784, 3655185970, 1947739403, 3718507033, 1188705781, 838547146, 1894081315,
    1188398960, 3234391270, 3125483095, 3295685470, 2940917475, 3868489986, 646047163, 674516562]

def zeroState10 : Vector UInt32 16 :=
  #v[1282424849, 1562217778, 1812475918, 3181191391, 3088700093, 451775904, 3438229160, 3339548555,
    2086224346, 2370328401, 1071654007, 927652024, 4105716586, 480319509, 1773569987, 2254827186]

theorem zeroState_rounds : chachaDoubleRound^[4] zeroState = zeroState4 := by decide +kernel

theorem zeroState4_rounds : chachaDoubleRound^[3] zeroState4 = zeroState7 := by decide +kernel

theorem zeroState7_rounds : chachaDoubleRound^[3] zeroState7 = zeroState10 := by decide +kernel

theorem zeroBlock : chacha20Block zeroState =
    storeWords (Vector.zipWith (· + ·) zeroState10 zeroState) := by
  have rounds : (List.range 10).foldl (fun w _ => chachaDoubleRound w) zeroState =
      chachaDoubleRound^[3 + (3 + 4)] zeroState := List.foldl_const _ _ _
  rw [chacha20Block, rounds, Function.iterate_add_apply, Function.iterate_add_apply,
    zeroState_rounds, zeroState4_rounds, zeroState7_rounds]

/-- One byte of associated data and nothing to encrypt. -/
theorem aeadEncrypt_differs : (aeadEncrypt zeroKey 0 [0] []).2.toList ≠
    (ChaChaPoly.aeadEncrypt [0] zeroKey.toList (noiseNonce 0) []).2 := by
  have empty : chacha20Xor zeroKey.toList (noiseNonce 0) 1 [] = [] := chacha20Xor_eq _ _ _ _
  have tag : (aeadEncrypt zeroKey 0 [0] []).2 = poly1305Mac (chacha20Block zeroState) [0] [] := by
    rw [← empty]
    rfl
  have text : (ChaChaPoly.aeadEncrypt [0] zeroKey.toList (noiseNonce 0) []).2 =
      ChaChaPoly.poly1305 (ChaChaPoly.macData [0] [])
        ((ChaChaPoly.block zeroKey.toList 0 (noiseNonce 0)).take 32) := by
    rw [ChaChaPoly.aeadEncrypt, ChaChaPoly.polyKeyGen, ChaChaPoly.encrypt, List.mapIdx_nil]
  rw [tag, text, poly1305_keyGen, ← chacha20Block_eq, ← zeroState, zeroBlock,
    poly1305Mac_value _ (by decide) (by decide), poly1305_macData]
  decide +kernel

end Metal.Net.Wg
