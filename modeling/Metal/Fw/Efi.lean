import Mathlib.Data.List.Induction
import Metal.Lib.Memory
import Metal.Lib.Ranges
import Metal.Fw.Memmap

namespace Metal.Fw.Memmap

open Metal.Lib

/-! The map that UEFI hands over: copied into records, sorted and merged in
place. -/

def blobMax : Nat := 4096

def efiConventionalMemory : UInt32 := 7

inductive Source
  | nothing
  | mb (magic : UInt32) (info : Option MbInfo)
  | mmap

structure Store where
  source : Source
  blob : Bytes
  blobLen : Nat

def Store.fed (store : Store) : Fed :=
  match store.source with
  | .nothing => .nothing
  | .mb magic info => .mb magic info
  | .mmap => .mmap (store.blob.take store.blobLen)

structure Descriptor where
  type : UInt32
  phys : UInt64
  pages : UInt64
  deriving DecidableEq

def readDescriptor (p : Bytes) : Descriptor :=
  ⟨mmapU32 p, mmapU64 (p.drop 8), mmapU64 (p.drop 24)⟩

def Descriptor.len (d : Descriptor) : UInt64 := d.pages <<< 12

def pack (record : Record) : Bytes :=
  leBytes32 record.size ++ leBytes64 record.base ++ leBytes64 record.len ++
    leBytes32 record.type

def Descriptor.record (d : Descriptor) : Record := ⟨20, d.phys, d.len, 1⟩

def Descriptor.Taken (d : Descriptor) : Prop :=
  d.type = efiConventionalMemory ∧ d.len ≥ 32 * 1024

instance (d : Descriptor) : Decidable d.Taken := inferInstanceAs (Decidable (_ ∧ _))

/-- The descriptors of the map that are taken, as records from `n` on; each turn
moves on by a descriptor, so the length of the map is fuel enough. -/
def gather (descSize : Nat) : (fuel : Nat) → (p : Bytes) → (n : Nat) → Bytes → Bytes × Nat
  | 0, _, n, blob => (blob, n)
  | fuel + 1, p, n, blob =>
      if descSize ≤ p.length ∧ n + 24 ≤ blobMax then
        let d := readDescriptor p
        if d.Taken then
          gather descSize fuel (p.drop descSize) (n + 24) (writeAt n (pack d.record) blob)
        else
          gather descSize fuel (p.drop descSize) n blob
      else
        (blob, n)

def recAt (blob : Bytes) (i : Nat) : Bytes := (blob.drop i).take 24

def recCopy (blob : Bytes) (dst : Nat) (src : Bytes) : Bytes := writeAt dst src blob

/-- The inner loop of the sort: records with a larger base move up by one, and
`tmp` is put where the last of them was. -/
def sift (tmp : Bytes) (j : Nat) (blob : Bytes) : Bytes :=
  if 24 ≤ j ∧ mmapU64 (blob.drop (j - 24 + 4)) > mmapU64 (tmp.drop 4) then
    sift tmp (j - 24) (recCopy blob j (recAt blob (j - 24)))
  else
    recCopy blob j tmp
  termination_by j

def sortFrom (n i : Nat) (blob : Bytes) : Bytes :=
  if i < n then sortFrom n (i + 24) (sift (recAt blob i) i blob) else blob
  termination_by n - i

/-- `tmp` is the record that is being extended, `w` where it goes. -/
def mergeFrom (n i w : Nat) (tmp blob : Bytes) : Bytes × Nat :=
  if i < n then
    let a0 := mmapU64 (tmp.drop 4)
    let a1 := a0 + mmapU64 (tmp.drop 12)
    let b0 := mmapU64 (blob.drop (i + 4))
    let b1 := b0 + mmapU64 (blob.drop (i + 12))
    if b0 ≤ a1 then
      mergeFrom n (i + 24) w (if b1 > a1 then writeAt 12 (leBytes64 (b1 - a0)) tmp else tmp) blob
    else
      -- the record at `i` is read after the write below it
      let blob := recCopy blob w tmp
      mergeFrom n (i + 24) (w + 24) (recAt blob i) blob
  else
    (recCopy blob w tmp, w + 24)
  termination_by n - i

def blobSortMerge (blob : Bytes) (n : Nat) : Bytes × Nat :=
  if n < 48 then (blob, n)
  else
    let blob := sortFrom n 24 blob
    mergeFrom n 24 0 (recAt blob 0) blob

def feedMmap (store : Store) (map : Option Bytes) : Int × Store :=
  match map with
  | none => (-1, store)
  | some map =>
      if map.length < 24 ∨ map.length > blobMax then (-1, store)
      else (0, ⟨.mmap, writeAt 0 map store.blob, map.length⟩)

/-- The result code and the state afterwards; `none` is the NULL map. -/
def feedEfi (store : Store) (map : Option Bytes) (descSize : Nat) : Int × Store :=
  match map with
  | none => (-1, store)
  | some map =>
      if descSize < 32 ∨ map.length < descSize then (-1, store)
      else
        let (blob, n) := gather descSize map.length map 0 store.blob
        if n < 24 then (-1, { store with blob := blob })
        else
          let (blob, n) := blobSortMerge blob n
          (0, ⟨.mmap, blob, n⟩)

def packAll (l : List Record) : Bytes := l.flatMap pack

@[simp] theorem length_pack (record : Record) : (pack record).length = 24 := rfl

@[simp] theorem length_packAll (l : List Record) : (packAll l).length = 24 * l.length := by
  induction l with
  | nil => rfl
  | cons record rest ih =>
      rw [packAll, List.flatMap_cons, List.length_append, ← packAll, ih, length_pack,
        List.length_cons]
      omega

@[simp] theorem packAll_nil : packAll [] = [] := rfl

theorem packAll_cons (record : Record) (rest : List Record) :
    packAll (record :: rest) = pack record ++ packAll rest := List.flatMap_cons

theorem packAll_append (l m : List Record) : packAll (l ++ m) = packAll l ++ packAll m :=
  List.flatMap_append

theorem packAll_snoc (l : List Record) (record : Record) :
    packAll (l ++ [record]) = packAll l ++ pack record := by
  rw [packAll_append, packAll_cons, packAll, packAll, List.flatMap_nil, List.append_nil]

theorem readRecord_pack (record : Record) (rest : Bytes) :
    readRecord (pack record ++ rest) = record := by
  obtain ⟨size, base, len, type⟩ := record
  simp only [pack, List.append_assoc]
  have here (n : Nat) (front back : Bytes) (long : front.length = n) :
      (front ++ back).drop n = back := List.drop_left' long
  rw [readRecord, mmapU32, leU32_leBytes32, mmapU64, here 4 _ _ rfl, leU64_leBytes64,
    ← List.append_assoc, mmapU64, here 12 _ _ rfl, leU64_leBytes64, ← List.append_assoc,
    mmapU32, here 20 _ _ rfl, leU32_leBytes32]

theorem base_pack (record : Record) : mmapU64 ((pack record).drop 4) = record.base := by
  have read := congrArg Record.base (readRecord_pack record [])
  rwa [List.append_nil] at read

theorem len_pack (record : Record) : mmapU64 ((pack record).drop 12) = record.len := by
  have read := congrArg Record.len (readRecord_pack record [])
  rwa [List.append_nil] at read

theorem reads_pack {front : Bytes} {i : Nat} (before : front.length = i) (record : Record)
    (rest : Bytes) :
    recAt (front ++ (pack record ++ rest)) i = pack record ∧
      mmapU64 ((front ++ (pack record ++ rest)).drop (i + 4)) = record.base ∧
      mmapU64 ((front ++ (pack record ++ rest)).drop (i + 12)) = record.len := by
  have here : (front ++ (pack record ++ rest)).drop i = pack record ++ rest :=
    List.drop_left' before
  have read := readRecord_pack record rest
  refine ⟨?_, ?_, ?_⟩
  · rw [recAt, here]
    exact List.take_left' (length_pack record)
  · rw [← List.drop_drop, here]
    exact congrArg Record.base read
  · rw [← List.drop_drop, here]
    exact congrArg Record.len read

theorem recCopy_packAll (front : List Record) {old new : Bytes} (rest : Bytes)
    (gap : old.length = 24) (wide : new.length = 24) :
    recCopy (packAll front ++ (old ++ rest)) (24 * front.length) new =
      packAll front ++ (new ++ rest) := by
  rw [recCopy, ← length_packAll, writeAt_append _ _ (wide.trans gap.symm)]

/-- The record in `tmp` is put before those of the front that have a larger
base, which move up into the hole. -/
theorem sift_packAll (record : Record) (front moved : List Record) {hole : Bytes} (rest : Bytes)
    (gap : hole.length = 24) :
    ∃ low high, front = low ++ high ∧ (∀ r ∈ high, record.base < r.base) ∧
      (∀ r ∈ low.getLast?, r.base ≤ record.base) ∧
      sift (pack record) (24 * front.length)
          (packAll front ++ (hole ++ (packAll moved ++ rest))) =
        packAll (low ++ record :: (high ++ moved)) ++ rest := by
  induction front using List.reverseRecOn generalizing moved hole with
  | nil =>
      refine ⟨[], [], rfl, by simp, by simp, ?_⟩
      rw [sift, if_neg (by simp)]
      exact (recCopy_packAll [] (packAll moved ++ rest) gap rfl).trans (by simp [packAll_cons])
  | append_singleton front last ih =>
      have index : 24 * (front ++ [last]).length - 24 = 24 * front.length := by
        rw [List.length_append, List.length_singleton]
        omega
      obtain ⟨copied, base, -⟩ :=
        reads_pack (length_packAll front) last (hole ++ (packAll moved ++ rest))
      rw [sift, index, packAll_snoc, List.append_assoc, copied, base, base_pack]
      split
      · rename_i above
        have filled : recCopy (packAll front ++ (pack last ++ (hole ++ (packAll moved ++ rest))))
            (24 * (front ++ [last]).length) (pack last) =
              packAll front ++ (pack last ++ (packAll (last :: moved) ++ rest)) := by
          have := recCopy_packAll (front ++ [last]) (packAll moved ++ rest) gap
            (length_pack last)
          rwa [packAll_snoc, List.append_assoc, List.append_assoc] at this
        obtain ⟨low, high, split_, larger, bound, sifted⟩ :=
          ih (last :: moved) (length_pack last)
        refine ⟨low, high ++ [last], by rw [split_, List.append_assoc], ?_, bound, ?_⟩
        · simpa [or_imp, forall_and] using ⟨larger, above.2⟩
        · rw [filled, sifted, List.append_assoc]
          rfl
      · rename_i stop
        refine ⟨front ++ [last], [], (List.append_nil _).symm, by simp, ?_, ?_⟩
        · have some_ : 24 ≤ 24 * (front ++ [last]).length := by
            rw [List.length_append, List.length_singleton]
            omega
          have notAbove : ¬ record.base < last.base := fun above => stop ⟨some_, above⟩
          simpa using UInt64.not_lt.mp notAbove
        · have := recCopy_packAll (front ++ [last]) (packAll moved ++ rest) gap
            (length_pack record)
          rw [packAll_snoc, List.append_assoc] at this
          rw [this, List.nil_append, packAll_append, packAll_snoc, packAll_cons]
          simp only [List.append_assoc]

def Sorted (l : List Record) : Prop := l.Pairwise fun r s => r.base ≤ s.base

theorem Sorted.insert {low high : List Record} {record : Record} (sorted : Sorted (low ++ high))
    (larger : ∀ r ∈ high, record.base < r.base)
    (bound : ∀ r ∈ low.getLast?, r.base ≤ record.base) : Sorted (low ++ record :: high) := by
  obtain ⟨first, second, across⟩ := List.pairwise_append.mp sorted
  have below : ∀ r ∈ low, r.base ≤ record.base := by
    induction low using List.reverseRecOn with
    | nil => simp
    | append_singleton low last _ =>
        have last_ := bound last (by simp)
        intro r member
        rcases List.mem_append.mp member with before | here
        · have order := (List.pairwise_append.mp first).2.2 r before last (by simp)
          exact UInt64.le_trans order last_
        · obtain rfl := List.mem_singleton.mp here
          exact last_
  refine List.pairwise_append.mpr ⟨first, List.pairwise_cons.mpr
    ⟨fun r member => UInt64.le_of_lt (larger r member), second⟩, fun r before s after => ?_⟩
  rcases List.mem_cons.mp after with rfl | after
  · exact below r before
  · exact across r before s after

theorem sortFrom_packAll (front todo : List Record) (rest : Bytes) (sorted : Sorted front) :
    ∃ l, l.Perm (front ++ todo) ∧ Sorted l ∧
      sortFrom (24 * (front.length + todo.length)) (24 * front.length)
          (packAll front ++ (packAll todo ++ rest)) = packAll l ++ rest := by
  induction todo generalizing front with
  | nil =>
      refine ⟨front, by simp, sorted, ?_⟩
      rw [sortFrom, if_neg (by simp)]
      rfl
  | cons record todo ih =>
      have inside : 24 * front.length < 24 * (front.length + (record :: todo).length) := by
        rw [List.length_cons]
        omega
      rw [sortFrom, if_pos inside, packAll_cons, List.append_assoc,
        (reads_pack (length_packAll front) _ _).1]
      obtain ⟨low, high, rfl, larger, bound, sifted⟩ :=
        sift_packAll record front [] (packAll todo ++ rest) (length_pack record)
      rw [packAll_nil, List.nil_append, List.append_nil] at sifted
      obtain ⟨l, same, order, done⟩ := ih _ (sorted.insert larger bound)
      refine ⟨l, same.trans ?_, order, ?_⟩
      · exact (List.perm_middle.append_right todo).trans List.perm_middle.symm
      · have count : (low ++ record :: high).length = (low ++ high).length + 1 := by
          simp only [List.length_append, List.length_cons]
          omega
        rw [count, Nat.add_right_comm, Nat.mul_add 24 (low ++ high).length 1] at done
        rw [sifted, List.length_cons, ← Nat.add_assoc]
        exact done

def Record.range (record : Record) : Range Nat :=
  ⟨record.base.toNat, record.base.toNat + record.len.toNat⟩

def Record.Unwrapped (record : Record) : Prop := record.range.hi ≤ 2 ^ 64

theorem Record.toNat_stop {record : Record} (below : record.range.hi < 2 ^ 64) :
    (record.base + record.len).toNat = record.base.toNat + record.len.toNat :=
  (UInt64.toNat_add ..).trans (Nat.mod_eq_of_lt below)

/-- The record that `mergeFrom` holds after it has read one that touches it. -/
def Record.join (last next : Record) : Record :=
  if next.base + next.len > last.base + last.len then
    { last with len := next.base + next.len - last.base }
  else last

def mergeRecords (last : Record) : List Record → List Record
  | [] => [last]
  | next :: rest =>
      if next.base ≤ last.base + last.len then mergeRecords (last.join next) rest
      else last :: mergeRecords next rest

theorem pack_join (last next : Record) :
    (if next.base + next.len > last.base + last.len then
      writeAt 12 (leBytes64 (next.base + next.len - last.base)) (pack last)
    else pack last) = pack (last.join next) := by
  rw [Record.join]
  split
  · rfl
  · rfl

/-- `w` trails `i` by a record or more, so that no record is overwritten before
it is read. -/
theorem mergeFrom_packAll (out : List Record) (last : Record) (todo : List Record) {stale : Bytes}
    (rest : Bytes) {i : Nat} (ahead : i = (packAll out ++ stale).length)
    (trails : 24 ≤ stale.length) :
    ∃ tail, mergeFrom (i + 24 * todo.length) i (24 * out.length) (pack last)
        (packAll out ++ (stale ++ (packAll todo ++ rest))) =
      (packAll (out ++ mergeRecords last todo) ++ tail,
        24 * (out ++ mergeRecords last todo).length) := by
  induction todo generalizing out last stale i with
  | nil =>
      have written := recCopy_packAll out (stale.drop 24 ++ rest)
        (List.length_take_of_le trails) (length_pack last)
      rw [← List.append_assoc (stale.take 24), List.take_append_drop] at written
      refine ⟨stale.drop 24 ++ rest, ?_⟩
      rw [mergeFrom, if_neg (by simp), packAll_nil, List.nil_append, written, mergeRecords,
        packAll_snoc, List.append_assoc, List.length_append]
      rfl
  | cons next todo ih =>
      have inside : i < i + 24 * (next :: todo).length := by
        rw [List.length_cons]
        omega
      have total : i + 24 * (next :: todo).length = i + 24 + 24 * todo.length := by
        rw [List.length_cons]
        omega
      have apart : packAll out ++ (stale ++ (packAll (next :: todo) ++ rest)) =
          (packAll out ++ stale) ++ (pack next ++ (packAll todo ++ rest)) := by
        simp only [packAll_cons, List.append_assoc]
      obtain ⟨copied, base, len⟩ := reads_pack ahead.symm next (packAll todo ++ rest)
      rw [mergeFrom, if_pos inside, apart]
      simp only [base, len, base_pack, len_pack]
      rw [mergeRecords, pack_join, total]
      split
      · have ahead' : i + 24 = (packAll out ++ (stale ++ pack next)).length := by
          rw [← List.append_assoc, List.length_append, ahead, length_pack]
        have next' := ih out (last.join next) ahead'
          (by rw [List.length_append]; omega)
        rwa [List.append_assoc, ← List.append_assoc (packAll out)] at next'
      · have written : recCopy (packAll out ++ stale ++ (pack next ++ (packAll todo ++ rest)))
            (24 * out.length) (pack last) =
              packAll out ++ (pack last ++ stale.drop 24) ++
                (pack next ++ (packAll todo ++ rest)) := by
          have copied := recCopy_packAll out
            (stale.drop 24 ++ (pack next ++ (packAll todo ++ rest)))
            (List.length_take_of_le trails) (length_pack last)
          rw [← List.append_assoc (stale.take 24), List.take_append_drop] at copied
          simpa only [List.append_assoc] using copied
        have kept : (packAll out ++ (pack last ++ stale.drop 24)).length = i := by
          simp only [List.length_append, length_pack, List.length_drop] at ahead ⊢
          omega
        have moved : packAll out ++ (pack last ++ stale.drop 24) ++
            (pack next ++ (packAll todo ++ rest)) =
              packAll (out ++ [last]) ++ (stale.drop 24 ++ pack next ++ (packAll todo ++ rest)) := by
          simp only [packAll_snoc, List.append_assoc]
        have ahead' : i + 24 = (packAll (out ++ [last]) ++ (stale.drop 24 ++ pack next)).length := by
          simp only [List.length_append, length_pack, length_packAll, List.length_drop,
            List.length_singleton] at ahead ⊢
          omega
        obtain ⟨tail, merged⟩ := ih (out ++ [last]) next ahead'
          (by rw [List.length_append, length_pack]; omega)
        refine ⟨tail, ?_⟩
        rw [written, (reads_pack kept next _).1, moved,
          List.append_cons out last (mergeRecords next todo), ← merged, List.length_append,
          List.length_singleton, Nat.mul_add]

theorem blobSortMerge_packAll (first : Record) (others : List Record) (rest : Bytes) :
    ∃ last todo tail, (last :: todo).Perm (first :: others) ∧ Sorted (last :: todo) ∧
      blobSortMerge (packAll (first :: others) ++ rest) (24 * (first :: others).length) =
        (packAll (mergeRecords last todo) ++ tail, 24 * (mergeRecords last todo).length) := by
  rw [blobSortMerge]
  split
  · rename_i one
    obtain rfl : others = [] := by
      apply List.eq_nil_of_length_eq_zero
      rw [List.length_cons] at one
      omega
    exact ⟨first, [], rest, .rfl, List.pairwise_singleton _ _, rfl⟩
  · obtain ⟨l, same, order, sorted⟩ :=
      sortFrom_packAll [first] others rest (List.pairwise_singleton _ _)
    obtain ⟨last, todo, rfl⟩ : ∃ last todo, l = last :: todo :=
      List.exists_cons_of_length_pos (by rw [same.length_eq]; exact Nat.zero_lt_succ _)
    have count : todo.length = others.length := by
      simpa using same.length_eq
    have read : recAt (packAll (last :: todo) ++ rest) 0 = pack last := by
      rw [packAll_cons, List.append_assoc]
      exact (reads_pack (length_packAll []) last _).1
    obtain ⟨tail, merged⟩ := mergeFrom_packAll [] last todo rest (i := 24)
      (length_pack last).symm Nat.le.refl
    refine ⟨last, todo, tail, same, order, ?_⟩
    have whole : sortFrom (24 * (first :: others).length) 24
        (packAll (first :: others) ++ rest) = packAll (last :: todo) ++ rest := by
      rewrite [← sorted, List.length_cons, List.length_singleton, Nat.add_comm others.length,
        packAll_cons first [], packAll_cons, packAll_nil, List.append_nil, List.append_assoc]
      rfl
    have size : 24 * (first :: others).length = 24 + 24 * todo.length := by
      rw [count, List.length_cons]
      omega
    dsimp only
    rw [whole, read, size, packAll_cons, List.append_assoc]
    exact merged

def descriptorAt (map : Bytes) (descSize k : Nat) : Descriptor :=
  readDescriptor (map.drop (descSize * k))

def descriptors (map : Bytes) (descSize : Nat) : List Descriptor :=
  (List.range (map.length / descSize)).map (descriptorAt map descSize)

/-- The records of the map, of which the blob has room for the first 170. -/
def takenRecords (map : Bytes) (descSize : Nat) : List Record :=
  ((descriptors map descSize).filter (·.Taken)).map Descriptor.record

theorem descriptors_of_le {map : Bytes} {descSize : Nat} (wide : 0 < descSize)
    (fits : descSize ≤ map.length) :
    descriptors map descSize = readDescriptor map :: descriptors (map.drop descSize) descSize := by
  have count : map.length / descSize = (map.drop descSize).length / descSize + 1 := by
    rw [List.length_drop, Nat.div_eq_sub_div wide fits]
  rw [descriptors, count, List.range_succ_eq_map, List.map_cons, List.map_map, descriptors]
  congr 1
  refine List.map_congr_left fun k _ => ?_
  rw [Function.comp_apply, descriptorAt, descriptorAt, List.drop_drop, Nat.mul_succ, Nat.add_comm]

theorem takenRecords_of_lt {map : Bytes} {descSize : Nat} (short : map.length < descSize) :
    takenRecords map descSize = [] := by
  rw [takenRecords, descriptors, Nat.div_eq_of_lt short]
  rfl

theorem takenRecords_of_le {map : Bytes} {descSize : Nat} (wide : 0 < descSize)
    (fits : descSize ≤ map.length) :
    takenRecords map descSize =
      if (readDescriptor map).Taken then
        (readDescriptor map).record :: takenRecords (map.drop descSize) descSize
      else takenRecords (map.drop descSize) descSize := by
  rw [takenRecords, descriptors_of_le wide fits, List.filter_cons]
  simp only [decide_eq_true_eq]
  split
  · rfl
  · rfl

/-- The blob holds what was gathered and as much of what is still to come as it
has room for. -/
theorem gather_packAll {descSize : Nat} (wide : 0 < descSize) (fuel : Nat) (map : Bytes)
    (enough : map.length ≤ fuel) (l : List Record) (rest : Bytes)
    (full : 24 * l.length + rest.length = blobMax) :
    ∃ more, more = (takenRecords map descSize).take (rest.length / 24) ∧
      gather descSize fuel map (24 * l.length) (packAll l ++ rest) =
        (packAll (l ++ more) ++ rest.drop (24 * more.length), 24 * (l ++ more).length) := by
  induction fuel generalizing map l rest with
  | zero =>
      have short : map.length < descSize := by omega
      refine ⟨[], ?_, ?_⟩
      · rw [takenRecords_of_lt short, List.take_nil]
      · rw [gather, List.append_nil]
        rfl
  | succ fuel ih =>
      rw [gather]
      split
      · rename_i inside
        have shorter : (map.drop descSize).length ≤ fuel := by
          rw [List.length_drop]
          omega
        have split_ := takenRecords_of_le wide inside.1
        dsimp only
        split
        · rename_i taken
          have written : writeAt (24 * l.length) (pack (readDescriptor map).record)
              (packAll l ++ rest) =
                packAll (l ++ [(readDescriptor map).record]) ++ rest.drop 24 := by
            have copied := recCopy_packAll l (rest.drop 24)
              (List.length_take_of_le (l := rest) (i := 24) (by omega))
              (length_pack (readDescriptor map).record)
            rwa [recCopy, List.take_append_drop, ← List.append_assoc, ← packAll_snoc] at copied
          obtain ⟨more, still, gathered⟩ := ih (map.drop descSize) shorter
            (l ++ [(readDescriptor map).record]) (rest.drop 24) (by
              rw [List.length_append, List.length_singleton, List.length_drop]
              omega)
          have room : rest.length / 24 = (rest.drop 24).length / 24 + 1 := by
            rw [List.length_drop]
            omega
          refine ⟨(readDescriptor map).record :: more, ?_, ?_⟩
          · rw [split_, if_pos taken, room, List.take_succ_cons, still]
          · rw [List.length_append, List.length_singleton, Nat.mul_add] at gathered
            rw [written, gathered, ← List.append_cons, List.drop_drop, List.length_cons,
              Nat.mul_succ, Nat.add_comm 24]
        · rename_i passed
          obtain ⟨more, still, gathered⟩ :=
            ih (map.drop descSize) shorter l rest full
          refine ⟨more, ?_, gathered⟩
          rw [split_, if_neg passed, still]
      · rename_i stop
        refine ⟨[], ?_, by rewrite [List.append_nil]; rfl⟩
        by_cases short : map.length < descSize
        · rw [takenRecords_of_lt short, List.take_nil]
        · have noRoom : rest.length / 24 = 0 := by omega
          rw [noRoom, List.take_zero]

/-- A record as `feedEfi` writes it. -/
structure Plain (record : Record) : Prop where
  size : record.size = 20
  type : record.type = 1
  unwrapped : record.Unwrapped
  filled : 0 < record.len.toNat

theorem Plain.join {last next : Record} (plain : Plain last) (below : last.range.hi < 2 ^ 64)
    (below' : next.range.hi < 2 ^ 64) :
    Plain (last.join next) ∧
      (last.join next).range = ⟨last.range.lo, max last.range.hi next.range.hi⟩ := by
  have stop := Record.toNat_stop below
  have stop' := Record.toNat_stop below'
  have low : last.base.toNat + last.len.toNat < 2 ^ 64 := below
  have low' : next.base.toNat + next.len.toNat < 2 ^ 64 := below'
  have filled := plain.filled
  rw [Record.join]
  split
  · rename_i longer
    rw [gt_iff_lt, UInt64.lt_iff_toNat_lt, stop, stop'] at longer
    have len : (next.base + next.len - last.base).toNat =
        next.base.toNat + next.len.toNat - last.base.toNat := by
      rw [UInt64.toNat_sub_of_le, stop']
      rw [UInt64.le_iff_toNat_le, stop']
      omega
    refine ⟨⟨plain.size, plain.type, ?_, ?_⟩, ?_⟩
    · rw [Record.Unwrapped, Record.range]
      dsimp only
      omega
    · dsimp only
      omega
    · rw [Record.range, Record.range, Record.range]
      dsimp only
      rw [Range.mk.injEq]
      omega
  · rename_i shorter
    rw [gt_iff_lt, UInt64.lt_iff_toNat_lt, stop, stop'] at shorter
    refine ⟨plain, ?_⟩
    rw [Record.range, Record.range]
    dsimp only
    rw [Range.mk.injEq]
    omega

/-- The first range ends below the end of the address space, and does not touch the second
where that one ends there. -/
def Ahead (r s : Range Nat) : Prop := r.hi < 2 ^ 64 ∧ (s.hi = 2 ^ 64 → r.hi < s.lo)

theorem Ahead.join {r s t : Range Nat} (first : Ahead r t) (second : Ahead s t) :
    Ahead ⟨r.lo, max r.hi s.hi⟩ t :=
  ⟨max_lt first.1 second.1, fun top => max_lt (first.2 top) (second.2 top)⟩

theorem mergeRecords_range {last : Record} {todo : List Record}
    (plain : ∀ record ∈ last :: todo, Plain record)
    (ahead : ((last :: todo).map Record.range).Pairwise Ahead) :
    (∀ record ∈ mergeRecords last todo, Plain record) ∧
      (mergeRecords last todo).map Record.range =
        Range.merge last.range (todo.map Record.range) := by
  induction todo generalizing last with
  | nil => exact ⟨plain, rfl⟩
  | cons next todo ih =>
      obtain ⟨first, others⟩ := List.forall_mem_cons.mp plain
      obtain ⟨second, others'⟩ := List.forall_mem_cons.mp others
      obtain ⟨before, apart⟩ := List.pairwise_cons.mp ahead
      obtain ⟨behind, apart'⟩ := List.pairwise_cons.mp apart
      obtain ⟨below, top⟩ := before next.range List.mem_cons_self
      have touches : next.base ≤ last.base + last.len ↔ next.range.lo ≤ last.range.hi := by
        rw [UInt64.le_iff_toNat_le, Record.toNat_stop below]
        rfl
      rw [mergeRecords, List.map_cons, Range.merge]
      by_cases here : next.base ≤ last.base + last.len
      · have within_ : next.range.hi ≤ 2 ^ 64 := second.unwrapped
        have touching := touches.mp here
        have below' : next.range.hi < 2 ^ 64 := by omega
        obtain ⟨joined, range⟩ := first.join below below'
        rw [if_pos here, if_pos touching, ← range]
        refine ih (List.forall_mem_cons.mpr ⟨joined, others'⟩)
          (List.pairwise_cons.mpr ⟨fun range' member => ?_, apart'⟩)
        rw [range]
        exact (before range' (List.mem_cons_of_mem _ member)).join (behind range' member)
      · obtain ⟨rest, ranges⟩ := ih others apart
        rw [if_neg here, if_neg (here ∘ touches.mpr)]
        exact ⟨List.forall_mem_cons.mpr ⟨first, rest⟩, by rw [List.map_cons, ranges]⟩

variable {l : List Record}

theorem walk_packAll (plain : ∀ record ∈ l, Plain record) (fuel : Nat) (enough : l.length ≤ fuel) :
    walk fuel (packAll l) = l := by
  induction l generalizing fuel with
  | nil =>
      cases fuel with
      | zero => rfl
      | succ fuel => rfl
  | cons record l ih =>
      obtain ⟨first, others⟩ := List.forall_mem_cons.mp plain
      obtain ⟨fuel, rfl⟩ : ∃ more, fuel = more + 1 :=
        Nat.exists_eq_succ_of_ne_zero (Nat.ne_of_gt (Nat.zero_lt_of_lt enough))
      have wide : 24 ≤ (packAll (record :: l)).length := by
        rw [length_packAll, List.length_cons]
        omega
      rw [walk, if_pos wide, packAll_cons, readRecord_pack]
      dsimp only
      rw [first.size, if_neg (by decide), show (20 + 4 : UInt32).toNat = 24 from rfl,
        List.drop_left' (length_pack record),
        ih others fuel (Nat.le_of_succ_le_succ enough)]

theorem records_packAll (plain : ∀ record ∈ l, Plain record) : records (packAll l) = l :=
  walk_packAll plain _ (by rw [length_packAll]; omega)

def conventional (map : Bytes) (descSize : Nat) : List (Range Nat) :=
  ((descriptors map descSize).filter fun d =>
      d.type = efiConventionalMemory ∧ 32 * 1024 ≤ 4096 * d.pages.toNat).map fun d =>
    ⟨d.phys.toNat, d.phys.toNat + 4096 * d.pages.toNat⟩

/-- No range of conventional memory goes past the end of the address space, nor is as long
as it. -/
def Unwrapped (map : Bytes) (descSize : Nat) : Prop :=
  ∀ d ∈ descriptors map descSize, d.type = efiConventionalMemory →
    4096 * d.pages.toNat < 2 ^ 64 ∧ d.phys.toNat + 4096 * d.pages.toNat ≤ 2 ^ 64

/-- Neither of two ranges that touch ends at the end of the address space. -/
def TopApart (r s : Range Nat) : Prop :=
  (r.hi = 2 ^ 64 → s.hi < r.lo) ∧ (s.hi = 2 ^ 64 → r.hi < s.lo)

instance (r s : Range Nat) : Decidable (TopApart r s) := inferInstanceAs (Decidable (_ ∧ _))

/-- The records are in order and apart, and cover the ranges and nothing else. -/
structure Normalises (l : List Record) (ranges : List (Range Nat)) : Prop where
  usable : ∀ record ∈ l, record.type = 1 ∧ record.Unwrapped
  sorted : l.Pairwise fun r s => r.base < s.base
  apart : (l.map Record.range).Pairwise Range.Before
  covers : Range.cover (l.map Record.range) = Range.cover ranges

theorem Descriptor.toNat_len {d : Descriptor} (below : 4096 * d.pages.toNat < 2 ^ 64) :
    d.len.toNat = 4096 * d.pages.toNat := by
  rw [Descriptor.len, UInt64.toNat_shiftLeft, Nat.shiftLeft_eq, Nat.mul_comm]
  exact Nat.mod_eq_of_lt below

theorem takenRecords_conventional {map : Bytes} {descSize : Nat}
    (unwrapped : Unwrapped map descSize) :
    (∀ record ∈ takenRecords map descSize, Plain record) ∧
      (takenRecords map descSize).map Record.range = conventional map descSize := by
  have len {d : Descriptor} (member : d ∈ descriptors map descSize)
      (type : d.type = efiConventionalMemory) : d.len.toNat = 4096 * d.pages.toNat :=
    Descriptor.toNat_len (unwrapped d member type).1
  have quota : (32 * 1024 : UInt64).toNat = 32 * 1024 := rfl
  constructor
  · intro record member
    obtain ⟨d, filtered, rfl⟩ := List.mem_map.mp member
    obtain ⟨among, taken⟩ := List.mem_filter.mp filtered
    obtain ⟨type, big⟩ := of_decide_eq_true taken
    rw [ge_iff_le, UInt64.le_iff_toNat_le, quota] at big
    refine ⟨rfl, rfl, ?_, Nat.lt_of_lt_of_le (by decide) big⟩
    change d.phys.toNat + d.len.toNat ≤ 2 ^ 64
    rw [len among type]
    exact (unwrapped d among type).2
  · have same : ∀ d ∈ descriptors map descSize, decide d.Taken =
        decide (d.type = efiConventionalMemory ∧ 32 * 1024 ≤ 4096 * d.pages.toNat) := by
      intro d member
      rw [decide_eq_decide]
      refine and_congr_right fun type => ?_
      rw [ge_iff_le, UInt64.le_iff_toNat_le, quota, len member type]
    rw [takenRecords, conventional, List.map_map, List.filter_congr same]
    refine List.map_congr_left fun d filtered => ?_
    obtain ⟨member, taken⟩ := List.mem_filter.mp filtered
    rw [← len member (of_decide_eq_true taken).1]
    rfl

/-- In a sorted list only the last record can end at the end of the address space. -/
theorem Sorted.ahead (sorted : Sorted l) (plain : ∀ record ∈ l, Plain record)
    (apart : (l.map Record.range).Pairwise TopApart) : (l.map Record.range).Pairwise Ahead := by
  rw [List.pairwise_map] at apart ⊢
  refine (sorted.and apart).imp_of_mem fun {r s} first _ both => ⟨?_, both.2.2⟩
  have within_ : r.range.hi ≤ 2 ^ 64 := (plain r first).unwrapped
  have order : r.range.lo ≤ s.range.lo := UInt64.le_iff_toNat_le.mp both.1
  have stop : s.range.lo ≤ s.range.hi := Nat.le_add_right ..
  have top := both.2.1
  omega

theorem Normalises.of_sorted {last : Record} {todo : List Record}
    (plain : ∀ record ∈ l, Plain record) (apart : (l.map Record.range).Pairwise TopApart)
    (same : (last :: todo).Perm l) (sorted : Sorted (last :: todo)) :
    Normalises (records (packAll (mergeRecords last todo))) (l.map Record.range) := by
  have plain' : ∀ record ∈ last :: todo, Plain record :=
    fun record member => plain record (same.mem_iff.mp member)
  have ahead := sorted.ahead plain'
    (((same.map Record.range).pairwise_iff fun {_ _} apart => And.symm apart).mpr apart)
  obtain ⟨merged, ranges⟩ := mergeRecords_range plain' ahead
  have ascending : Range.Ascending (last.range :: todo.map Record.range) := by
    rw [← List.map_cons]
    refine ⟨List.pairwise_map.mpr (sorted.imp fun le => UInt64.le_iff_toNat_le.mp le), ?_⟩
    intro range member
    obtain ⟨record, among, rfl⟩ := List.mem_map.mp member
    exact Nat.lt_add_of_pos_right (plain' record among).filled
  have apart := Range.merge_apart ascending
  rw [records_packAll merged]
  refine ⟨fun record member => ⟨(merged record member).type, (merged record member).unwrapped⟩,
    ?_, ranges ▸ apart, ?_⟩
  · rw [← ranges, List.pairwise_map] at apart
    refine apart.imp fun before => UInt64.lt_iff_toNat_lt.mpr ?_
    exact Nat.lt_of_le_of_lt (Nat.le_add_right ..) before
  · rw [ranges, Range.cover_merge ascending, ← List.map_cons]
    exact Range.cover_congr fun range => (same.map Record.range).mem_iff

section Feed

variable {store : Store} {map : Bytes} {descSize : Nat}

section Max

variable (full : store.blob.length = blobMax) (wide : 32 ≤ descSize)
include full wide

theorem feedEfi_eq (fits : descSize ≤ map.length) :
    ∃ more, more = (takenRecords map descSize).take 170 ∧
      feedEfi store (some map) descSize =
        if more = [] then (-1, store)
        else
          let merged := blobSortMerge (packAll more ++ store.blob.drop (24 * more.length))
            (24 * more.length)
          (0, ⟨.mmap, merged.1, merged.2⟩) := by
  have room : store.blob.length / 24 = 170 := by rw [full]; rfl
  obtain ⟨more, taken, gathered⟩ := gather_packAll (Nat.lt_of_lt_of_le (by decide) wide)
    map.length map Nat.le.refl [] store.blob (by rw [full]; rfl)
  rw [room] at taken
  rw [packAll_nil, List.nil_append, List.nil_append, List.length_nil, Nat.mul_zero] at gathered
  refine ⟨more, taken, ?_⟩
  rw [feedEfi, if_neg (by omega), gathered]
  dsimp only
  cases more with
  | nil => rfl
  | cons first others =>
      rw [if_neg, if_neg (List.cons_ne_nil first others)]
      rw [List.length_cons]
      omega

theorem feedEfi_none (none_ : takenRecords map descSize = []) :
    feedEfi store (some map) descSize = (-1, store) := by
  by_cases short : map.length < descSize
  · rw [feedEfi, if_pos (.inr short)]
  · obtain ⟨more, taken, result⟩ := feedEfi_eq full wide (Nat.le_of_not_lt short)
    rw [none_, List.take_nil] at taken
    rw [result, if_pos taken]

theorem feedEfi_some (some_ : takenRecords map descSize ≠ [])
    (plain : ∀ record ∈ takenRecords map descSize, Plain record)
    (apart : (((takenRecords map descSize).take 170).map Record.range).Pairwise TopApart) :
    ∃ store' blob, feedEfi store (some map) descSize = (0, store') ∧ store'.fed = .mmap blob ∧
      Normalises (records blob) (((takenRecords map descSize).take 170).map Record.range) := by
  have fits : descSize ≤ map.length :=
    Nat.le_of_not_lt fun short => some_ (takenRecords_of_lt short)
  obtain ⟨more, taken, result⟩ := feedEfi_eq full wide fits
  cases more with
  | nil =>
      rcases List.take_eq_nil_iff.mp taken.symm with zero | empty
      · cases zero
      · exact absurd empty some_
  | cons first others =>
      obtain ⟨last, todo, tail, same, sorted, merged⟩ :=
        blobSortMerge_packAll first others (store.blob.drop (24 * (first :: others).length))
      rw [if_neg (List.cons_ne_nil first others), merged] at result
      refine ⟨_, packAll (mergeRecords last todo), result, ?_, ?_⟩
      · exact congrArg Fed.mmap (List.take_left' (length_packAll _))
      · rw [← taken]
        refine Normalises.of_sorted (fun record member => plain record ?_) (taken ▸ apart) same
          sorted
        rw [taken] at member
        exact List.mem_of_mem_take member

end Max

end Feed

/-- Conventional memory in the map is fed in order and merged, as far as there is
room for 170 ranges of it; a map without any is refused. -/
theorem feedEfi_normalises (store : Store) (map : Bytes) (descSize : Nat)
    (full : store.blob.length = blobMax) (wide : 32 ≤ descSize)
    (unwrapped : Unwrapped map descSize)
    (apart : ((conventional map descSize).take 170).Pairwise TopApart) :
    (conventional map descSize = [] → feedEfi store (some map) descSize = (-1, store)) ∧
      (conventional map descSize ≠ [] →
        ∃ store' blob, feedEfi store (some map) descSize = (0, store') ∧
          store'.fed = .mmap blob ∧
          Normalises (records blob) ((conventional map descSize).take 170)) := by
  obtain ⟨plain, ranges⟩ := takenRecords_conventional unwrapped
  rw [← ranges, ← List.map_take] at apart
  rw [← ranges, ← List.map_take, ne_eq, List.map_eq_nil_iff]
  exact ⟨feedEfi_none full wide, fun some_ => feedEfi_some full wide some_ plain apart⟩

def packDescriptor (d : Descriptor) : Bytes :=
  leBytes32 d.type ++ leBytes32 0 ++ leBytes64 d.phys ++ leBytes64 0 ++ leBytes64 d.pages

/-- The last range ends at the end of the address space. -/
def upperFirst : Bytes :=
  packDescriptor ⟨7, 0x110000, 16⟩ ++ packDescriptor ⟨7, 0x100000, 16⟩ ++
    packDescriptor ⟨7, 0xffffffffffff0000, 16⟩

def noStore : Store := ⟨.nothing, List.replicate blobMax 0, 0⟩

theorem noFull : noStore.blob.length = blobMax := List.length_replicate ..

theorem upperFirst_normalises :
    ∃ store' blob, feedEfi noStore (some upperFirst) 32 = (0, store') ∧
      store'.fed = .mmap blob ∧
      Normalises (records blob) ((conventional upperFirst 32).take 170) := by
  have listed : descriptors upperFirst 32 =
      [⟨7, 0x110000, 16⟩, ⟨7, 0x100000, 16⟩, ⟨7, 0xffffffffffff0000, 16⟩] := by decide
  refine (feedEfi_normalises noStore upperFirst 32 noFull (by decide) ?_ ?_).2 ?_
  · intro d member _
    rw [listed] at member
    simp only [List.mem_cons, List.not_mem_nil, or_false] at member
    rcases member with rfl | rfl | rfl
    · decide
    · decide
    · decide
  · rw [conventional, listed]
    decide
  · rw [conventional, listed]
    decide

def oneRecord : Record := ⟨20, 0x100000, 0x10000, 1⟩

def bootServices : Bytes := packDescriptor ⟨4, 0x200000, 16⟩

theorem feedMmap_fed {store : Store} (map : Bytes) (full : store.blob.length = blobMax)
    (long : 24 ≤ map.length) (fits : map.length ≤ blobMax) :
    ∃ store', feedMmap store (some map) = (0, store') ∧ store'.blob.length = blobMax ∧
      store'.fed = .mmap map := by
  refine ⟨_, if_neg (by omega), ?_, congrArg Fed.mmap (List.take_left' rfl)⟩
  exact (length_writeAt (by omega)).trans full

/-- The call fails, and the map that was fed before it stays. -/
theorem feedEfi_keeps :
    ∃ store, feedMmap noStore (some (pack oneRecord)) = (0, store) ∧
      Unwrapped bootServices 32 ∧ (conventional bootServices 32).length ≤ 170 ∧
      ∃ blob, (feedEfi store (some bootServices) 32).2.fed = .mmap blob ∧
        ¬ Normalises (records blob) (conventional bootServices 32) := by
  have listed : descriptors bootServices 32 = [⟨4, 0x200000, 16⟩] := by decide
  have unwrapped : Unwrapped bootServices 32 := by
    intro d member type
    rw [listed] at member
    obtain rfl := List.mem_singleton.mp member
    cases type
  have none_ : takenRecords bootServices 32 = [] := by
    rw [takenRecords, listed]
    rfl
  have empty : conventional bootServices 32 = [] := by
    rw [conventional, listed]
    rfl
  obtain ⟨store, fed, full, kept⟩ := feedMmap_fed (pack oneRecord)
    noFull Nat.le.refl (by decide)
  refine ⟨store, fed, unwrapped, by rw [empty]; decide, pack oneRecord, ?_, ?_⟩
  · rw [feedEfi_none full (by decide) none_, kept]
  · have visited : records (pack oneRecord) = [oneRecord] := by decide
    rw [empty, visited]
    intro normal
    have covered : 0x100000 ∈ Range.cover [oneRecord.range] :=
      ⟨_, List.mem_singleton_self _, by decide, by decide⟩
    rw [show [oneRecord.range] = [oneRecord].map Record.range from rfl, normal.covers] at covered
    obtain ⟨range, member, -⟩ := covered
    cases member

end Metal.Fw.Memmap
