import Mathlib.Data.List.Dedup
import Mathlib.Data.List.GetD
import Mathlib.Data.List.Nodup
import Mathlib.Data.List.Sort
import Jumbo.Lib.Bitmap
import Jumbo.Ordering.Input

/-
  Members as bitmaps.

  What a bitmap names after members have been written into
  it: each of them once, whatever their order and number of
  occurrences.

  Main declarations:
    * `mem_bytes2int32s`
    * `bytes2int32s_sorted`
    * `mem_written` and `written_sorted`
    * `int32s2bytes_perm`
    * `int32s2bytesLoop_eq`
    * `bytes2int32s_int32s2bytes`
-/

------------------------------------------------------------
-- Bits of a Byte
------------------------------------------------------------

namespace Jumbo

namespace Ordering

open Crypto (Bytes)
open Protocol

section Bitmaps

/- The bit is set. -/
def bit (b : UInt8) (j : Nat) : Prop :=
  b >>> UInt8.ofNat j &&& 1 = 1

/- The bits of a byte are the ones that have been set. -/
theorem bit_foldl
    (p : Nat → Bool) {j : Nat} (hLt : j < 8) :
    bit
        ((List.range 8).foldl
          (fun (b : UInt8) (j : Nat) =>
            if p j then b ||| (1 <<< UInt8.ofNat j) else b)
          0)
        j ↔
      p j = true := by
  have hFold :=
    Bitmap.bit_foldl_setBit p (Nat.le_refl 8) hLt
  rw [decide_eq_true hLt, Bool.true_and] at hFold
  rw [← hFold]
  unfold bit Bitmap.bit
  exact decide_eq_true_iff.symm

/- The members that a bitmap names. -/
theorem mem_bytes2int32s
    {aggids : Bytes} {max : Nat} {mem : Int32} :
    mem ∈ bytes2int32s aggids max ↔
      ∃ i b j, aggids[i]? = some b ∧ j < 8 ∧
        i * 8 + j < max ∧ bit b j ∧
          mem = Int32.ofNat (i * 8 + j + 1) := by
  unfold bytes2int32s
  rw [List.mem_flatMap]
  constructor
  · rintro ⟨⟨b, i⟩, hByte, hMem⟩
    rcases List.mem_filterMap.mp hMem with ⟨j, hj, hSome⟩
    rcases Option.ite_none_right_eq_some.mp hSome with
      ⟨⟨hLt, hBit⟩, hEq⟩
    exact
      ⟨i, b, j, List.mem_zipIdx_iff_getElem?.mp hByte,
        List.mem_range.mp hj, hLt, hBit,
        (Option.some.inj hEq).symm⟩
  · rintro ⟨i, b, j, hByte, hj, hLt, hBit, rfl⟩
    refine
      ⟨(b, i), List.mem_zipIdx_iff_getElem?.mpr hByte,
        List.mem_filterMap.mpr
          ⟨j, List.mem_range.mpr hj, ?_⟩⟩
    exact if_pos ⟨hLt, hBit⟩

/- Numbers that do not wrap are named in order. -/
theorem bytes2int32s_sorted
    {aggids : Bytes} {max : Nat}
    (hFits :
      ∀ i b j, aggids[i]? = some b → j < 8 →
        i * 8 + j < max → bit b j →
          (Int32.ofNat (i * 8 + j + 1)).toInt =
            i * 8 + j + 1) :
    (bytes2int32s aggids max).Pairwise fun x y =>
      x.toInt < y.toInt := by
  have hNumber :
      ∀ b i, (b, i) ∈ aggids.zipIdx → ∀ j ∈ List.range 8,
        ∀ mem,
          (if i * 8 + j < max ∧
              b >>> UInt8.ofNat j &&& 1 = 1 then
            some (Int32.ofNat (i * 8 + j + 1))
          else none) = some mem →
            mem.toInt = i * 8 + j + 1 := by
    intro b i hByte j hj mem hSome
    rcases Option.ite_none_right_eq_some.mp hSome with
      ⟨⟨hLt, hBit⟩, hEq⟩
    rw [← Option.some.inj hEq]
    exact
      hFits i b j (List.mem_zipIdx_iff_getElem?.mp hByte)
        (List.mem_range.mp hj) hLt hBit
  unfold bytes2int32s
  rw [List.pairwise_flatMap]
  constructor
  · rintro ⟨b, i⟩ hByte
    dsimp only
    rw [List.pairwise_filterMap]
    refine List.pairwise_lt_range.imp_of_mem ?_
    intro j j' hj hj' hLt mem hMem mem' hMem'
    rw [hNumber b i hByte j hj mem hMem,
      hNumber b i hByte j' hj' mem' hMem']
    omega
  · have hIndex :
        aggids.zipIdx.Pairwise fun p p' => p.2 < p'.2 := by
      rw [← List.pairwise_map, List.zipIdx_map_snd]
      exact List.pairwise_lt_range'
    refine hIndex.imp_of_mem ?_
    rintro ⟨b, i⟩ ⟨b', i'⟩ hByte hByte' hLt
    intro mem hMem mem' hMem'
    rcases List.mem_filterMap.mp hMem with ⟨j, hj, hSome⟩
    rcases List.mem_filterMap.mp hMem' with
      ⟨j', hj', hSome'⟩
    rw [hNumber b i hByte j hj mem hSome,
      hNumber b' i' hByte' j' hj' mem' hSome']
    rw [List.mem_range] at hj hj'
    dsimp only at hLt
    omega

------------------------------------------------------------
-- What Has Been Written
------------------------------------------------------------

section Written

variable {ids : List Int32} {max : Nat} {aggids : Bytes}

/- Only numbers from 1 to `max` can be written. -/
theorem int32s2bytes_range
    (hWritten : int32s2bytes ids max = some aggids)
    {id : Int32} (hMem : id ∈ ids) :
    1 ≤ id.toInt ∧ id.toInt ≤ max := by
  unfold int32s2bytes at hWritten
  have hRange := (Option.ite_none_right_eq_some.mp hWritten).1
  rw [List.all_eq_true] at hRange
  exact of_decide_eq_true (hRange id hMem)

/- Members in range are written. -/
theorem int32s2bytes_isSome
    (hRange : ∀ id ∈ ids, 1 ≤ id.toInt ∧ id.toInt ≤ max) :
    ∃ aggids, int32s2bytes ids max = some aggids := by
  unfold int32s2bytes
  rw [if_pos]
  · exact ⟨_, rfl⟩
  · rw [List.all_eq_true]
    exact fun id hMem => decide_eq_true (hRange id hMem)

/- The bits that have been set. -/
theorem int32s2bytes_bit
    (hWritten : int32s2bytes ids max = some aggids)
    {i : Nat} {b : UInt8} {j : Nat}
    (hAt : aggids[i]? = some b) (hj : j < 8) :
    bit b j ↔ ∃ id ∈ ids, id.toInt = i * 8 + j + 1 := by
  unfold int32s2bytes at hWritten
  have hEq := (Option.ite_none_right_eq_some.mp hWritten).2
  injection hEq with hEq
  rw [← hEq, List.getElem?_map] at hAt
  rcases Option.map_eq_some_iff.mp hAt with ⟨i', hIndex, rfl⟩
  rcases List.getElem?_eq_some_iff.mp hIndex with ⟨_, hIndex⟩
  rw [List.getElem_range] at hIndex
  subst hIndex
  rw [bit_foldl _ hj, List.any_eq_true]
  simp only [decide_eq_true_eq]

/- There are as many bytes as `max` bits need. -/
theorem length_int32s2bytes
    (hWritten : int32s2bytes ids max = some aggids) :
    aggids.length = (max + 7) / 8 := by
  unfold int32s2bytes at hWritten
  have hEq := (Option.ite_none_right_eq_some.mp hWritten).2
  injection hEq with hEq
  rw [← hEq, List.length_map, List.length_range]

/- The members that have been written are named. -/
theorem mem_written
    (hWritten : int32s2bytes ids max = some aggids)
    (mem : Int32) :
    mem ∈ bytes2int32s aggids max ↔ mem ∈ ids := by
  rw [mem_bytes2int32s]
  constructor
  · rintro ⟨i, b, j, hAt, hj, hLt, hBit, rfl⟩
    rcases (int32s2bytes_bit hWritten hAt hj).mp hBit with
      ⟨id, hId, hNumber⟩
    rw [Struct.int32_ofNat_of_toInt (by rw [hNumber]; simp)]
    exact hId
  · intro hMem
    rcases int32s2bytes_range hWritten hMem with ⟨hPos, hLe⟩
    let m := (mem.toInt - 1).toNat
    have hm : mem.toInt = m + 1 := by omega
    have hSplit : m / 8 * 8 + m % 8 = m :=
      Nat.div_add_mod' m 8
    have hByte : m / 8 < aggids.length := by
      rw [length_int32s2bytes hWritten]
      omega
    have hAt := List.getElem?_eq_getElem hByte
    have hj : m % 8 < 8 := Nat.mod_lt m (by decide)
    refine
      ⟨m / 8, _, m % 8, hAt, hj, by omega,
        (int32s2bytes_bit hWritten hAt hj).mpr
          ⟨mem, hMem, by omega⟩, ?_⟩
    rw [hSplit]
    exact (Struct.int32_ofNat_of_toInt hm).symm

/- Numbers are read in order and once. -/
theorem written_sorted
    (hWritten : int32s2bytes ids max = some aggids) :
    (bytes2int32s aggids max).Pairwise fun x y =>
      x.toInt < y.toInt := by
  apply bytes2int32s_sorted
  intro i b j hAt hj _ hBit
  rcases (int32s2bytes_bit hWritten hAt hj).mp hBit with
    ⟨id, _, hNumber⟩
  rw [Struct.int32_ofNat_of_toInt (by rw [hNumber]; simp)]
  exact hNumber

/- What has been written, without the repetitions. -/
theorem int32s2bytes_perm
    (hWritten : int32s2bytes ids max = some aggids) :
    (bytes2int32s aggids max).Perm ids.dedup := by
  have hNodup : (bytes2int32s aggids max).Nodup :=
    (written_sorted hWritten).imp fun hLt hEq => by
      rw [hEq] at hLt
      exact lt_irrefl _ hLt
  apply (List.perm_ext_iff_of_nodup hNodup ids.nodup_dedup).mpr
  intro mem
  rw [mem_written hWritten, List.mem_dedup]

end Written

end Bitmaps

------------------------------------------------------------
-- The Loops
------------------------------------------------------------

/- The tags set by the numbers; one out of range panics. -/
def tagsFrom (max : Nat) :
    List Bool → List Int32 → Option (List Bool)
| tags, [] => some tags
| tags, id :: ids =>
    let index := (id - 1).toInt
    if 0 ≤ index ∧ index < max then
      tagsFrom max (tags.set index.toNat true) ids
    else none

/- The numbers as booleans, packed. -/
def int32s2bytesLoop (ids : List Int32) (max : Nat) :
    Option Bytes :=
  (tagsFrom max (List.replicate max false) ids).map
    Bitmap.pack

/- A positive number minus one does not wrap around. -/
theorem toInt_sub_one
    {id : Int32} (hPos : 1 ≤ id.toInt) :
    (id - 1).toInt = id.toInt - 1 := by
  have hLt := id.toInt_lt
  rw [Int32.toInt_sub, show (1 : Int32).toInt = 1 from rfl]
  exact Int.bmod_eq_of_le (by omega) (by omega)

section Tags

variable {max : Nat} {tags : List Bool} {ids : List Int32}

/- A tag is set when its number is among the ids. -/
theorem tagsFrom_eq
    (hLength : tags.length = max)
    (hRange : ∀ id ∈ ids, 1 ≤ id.toInt ∧ id.toInt ≤ max) :
    ∃ tags', tagsFrom max tags ids = some tags' ∧
      tags'.length = max ∧
        ∀ k : Nat, tags'.getD k false =
          (tags.getD k false ||
            ids.any fun id => decide (id.toInt = k + 1)) := by
  induction ids generalizing tags with
  | nil => exact ⟨tags, rfl, hLength, fun k => by simp⟩
  | cons id ids ih =>
      have hId := hRange id List.mem_cons_self
      have hIndex := toInt_sub_one hId.1
      have hSetLength :
          (tags.set (id - 1).toInt.toNat true).length = max := by
        rw [List.length_set]
        exact hLength
      rcases ih hSetLength fun other hMem =>
        hRange other (List.mem_cons_of_mem _ hMem) with
        ⟨tags', hTags, hLength', hEntries⟩
      refine ⟨tags', ?_, hLength', ?_⟩
      · unfold tagsFrom
        dsimp only
        rw [if_pos (by omega)]
        exact hTags
      · intro k
        rw [hEntries, List.any_cons, ← Bool.or_assoc]
        congr 1
        rw [List.getD_eq_getElem?_getD, List.getElem?_set,
          List.getD_eq_getElem?_getD]
        by_cases hHere : id.toInt = k + 1
        · rw [if_pos (by omega), if_pos (by omega),
            decide_eq_true hHere, Bool.or_true]
          rfl
        · rw [if_neg (by omega), decide_eq_false hHere,
            Bool.or_false]

/- The loops write what is written byte by byte. -/
theorem int32s2bytesLoop_eq
    (hRange : ∀ id ∈ ids, 1 ≤ id.toInt ∧ id.toInt ≤ max) :
    int32s2bytesLoop ids max = int32s2bytes ids max := by
  rcases tagsFrom_eq (List.length_replicate (a := false))
    hRange with
    ⟨tags, hTags, hLength, hEntries⟩
  have hAll :
      (ids.all fun id =>
        decide (1 ≤ id.toInt ∧ id.toInt ≤ max)) = true := by
    rw [List.all_eq_true]
    exact fun id hMem => decide_eq_true (hRange id hMem)
  have hTag (k : Nat) :
      tags.getD k false =
        ids.any fun id => decide (id.toInt = k + 1) := by
    rw [hEntries, List.getD_eq_getElem?_getD,
      List.getElem?_getD_replicate_default_eq, Bool.false_or]
  unfold int32s2bytesLoop int32s2bytes
  rw [hTags, if_pos hAll, Option.map_some, Bitmap.pack_eq,
    hLength]
  simp only [hTag]
  push_cast
  rfl

end Tags

/- The order of the numbers that are written. -/
def IdLe (x y : Int32) : Prop :=
  x.toInt ≤ y.toInt

instance : DecidableRel IdLe :=
  fun x y => inferInstanceAs (Decidable (x.toInt ≤ y.toInt))

instance : Std.Total IdLe :=
  ⟨fun x y => le_total x.toInt y.toInt⟩

instance : IsTrans Int32 IdLe :=
  ⟨fun _ _ _ hxy hyz => Int.le_trans hxy hyz⟩

/- What is read is the distinct numbers in order. -/
theorem bytes2int32s_int32s2bytes
    {max : Nat} {ids : List Int32} {aggids : Bytes}
    (hWritten : int32s2bytes ids max = some aggids) :
    bytes2int32s aggids max =
      ids.dedup.insertionSort IdLe := by
  have hSorted : (bytes2int32s aggids max).Pairwise IdLe :=
    (written_sorted hWritten).imp fun hLt => hLt.le
  have hPerm :
      (bytes2int32s aggids max).Perm
        (ids.dedup.insertionSort IdLe) :=
    (int32s2bytes_perm hWritten).trans
      (List.perm_insertionSort IdLe ids.dedup).symm
  refine
    hPerm.eq_of_pairwise ?_ hSorted
      (List.pairwise_insertionSort IdLe ids.dedup)
  intro x y _ _ hxy hyx
  exact Int32.toInt_inj.mp (le_antisymm hxy hyx)

end Ordering

end Jumbo
