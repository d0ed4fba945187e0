import Jumbo.CommonSubset.Basic

/-
  The bitmap codecs of the ordering and of FIN.

  The ordering packs numbers from one on, FIN packs slices of
  Booleans; both set the same bits. FIN decodes in three
  places, with the same loop in each.

  Main declarations:
    * `checkInputRbcResult` and `waitRbcDoneResult`
    * `codecs_agree`
-/

------------------------------------------------------------
-- The Decoders of FIN
------------------------------------------------------------

namespace Jumbo

namespace CommonSubset

open Protocol
open ReliableBroadcast (Bytes)

/- The decoder written into `check_input_rbc`. -/
def checkInputRbcResult
    (input : Bytes) (mine : List Bool) : List Bool :=
  Bitmap.unpack input mine.length

/- The decoder written into `wait_rbc_done`. -/
def waitRbcDoneResult
    (input : Bytes) (mine : List Bool) : List Bool :=
  Bitmap.unpack input mine.length

/-
  Numbers come back in order and once each, slices come back
  as they are, and every decoder of FIN reads the same bits
  of any byte string, none from position `n` on.
-/
theorem codecs_agree :
    (∀ (n : Nat) (ids : List Int32),
      (∀ id ∈ ids, 1 ≤ id.toInt ∧ id.toInt ≤ n) →
        ∃ aggids,
          Ordering.int32s2bytesLoop ids n = some aggids ∧
            Ordering.int32s2bytes ids n = some aggids ∧
            Ordering.bytes2int32s aggids n =
              ids.dedup.insertionSort Ordering.IdLe) ∧
      (∀ arr : List Bool,
        Bitmap.pack arr = boolArrayToByteArray arr ∧
          Bitmap.unpack (boolArrayToByteArray arr) arr.length =
            arr) ∧
      (∀ (input : Bytes) (mine : List Bool),
        Bitmap.unpack input mine.length =
            byteArrayToBoolArray input mine.length ∧
          checkInputRbcResult input mine =
            byteArrayToBoolArray input mine.length ∧
          waitRbcDoneResult input mine =
            byteArrayToBoolArray input mine.length) ∧
      ∀ (input input' : Bytes) (n : Nat),
        (∀ k < n,
          Bitmap.bitAt input k = Bitmap.bitAt input' k) ↔
          byteArrayToBoolArray input n =
            byteArrayToBoolArray input' n := by
  refine ⟨?_, ?_, ?_, ?_⟩
  · intro n ids hRange
    rcases Ordering.int32s2bytes_isSome hRange with
      ⟨aggids, hWritten⟩
    exact
      ⟨aggids,
        (Ordering.int32s2bytesLoop_eq hRange).trans hWritten,
        hWritten,
        Ordering.bytes2int32s_int32s2bytes hWritten⟩
  · intro arr
    rw [← pack_eq_boolArrayToByteArray]
    exact ⟨rfl, Bitmap.unpack_pack arr⟩
  · intro input mine
    have hLoop :=
      unpack_eq_byteArrayToBoolArray input mine.length
    exact ⟨hLoop, hLoop, hLoop⟩
  · intro input input' n
    rw [← unpack_eq_byteArrayToBoolArray,
      ← unpack_eq_byteArrayToBoolArray, Bitmap.unpack_eq,
      Bitmap.unpack_eq, List.map_inj_left]
    simp only [List.mem_range]

/- Both codecs agree on four numbers, one of them twice. -/
theorem codecs_agree_ten :
    ∃ aggids,
      Ordering.int32s2bytesLoop [3, 10, 1, 3] 10 =
          some aggids ∧
        Ordering.int32s2bytes [3, 10, 1, 3] 10 = some aggids ∧
        Ordering.bytes2int32s aggids 10 = [1, 3, 10] := by
  have hRange :
      ∀ id ∈ ([3, 10, 1, 3] : List Int32),
        1 ≤ id.toInt ∧ id.toInt ≤ (10 : Nat) := by
    simp
  rcases codecs_agree.1 10 [3, 10, 1, 3] hRange with
    ⟨aggids, hLoop, hWritten, hRead⟩
  exact ⟨aggids, hLoop, hWritten, hRead.trans rfl⟩

end CommonSubset

end Jumbo
