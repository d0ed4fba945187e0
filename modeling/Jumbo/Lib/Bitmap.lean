import Mathlib.Data.List.Basic
import Mathlib.Data.Nat.Bitwise

/-
  Booleans packed into bytes, the lowest bit first.

  The encoder visits the entries and sets bits; the decoder
  visits bytes and bits, and leaves a byte at the first index
  past the entries. What either does is said bit by bit.

  Main declarations:
    * `bitAt`
    * `pack` and `bitAt_pack`
    * `unpack` and `unpack_eq`
    * `unpack_pack`
    * `eq_of_bitAt`
-/

------------------------------------------------------------
-- Bits of a Byte
------------------------------------------------------------

namespace Protocol

namespace Bitmap

/- Bit `j` of a byte. -/
def bit (b : UInt8) (j : Nat) : Bool :=
  decide (b >>> UInt8.ofNat j &&& 1 = 1)

/- Set one bit of a byte. -/
def setBit (b : UInt8) (j : Nat) : UInt8 :=
  b ||| (1 <<< UInt8.ofNat j)

/- Small positions survive the conversion to a byte. -/
theorem toNat_ofNat_lt {j : Nat} (hLt : j < 8) :
    (UInt8.ofNat j).toNat % 8 = j := by
  rw [UInt8.toNat_ofNat']
  omega

/- The bit that is read is the one the number has there. -/
theorem bit_eq_testBit
    (b : UInt8) {j : Nat} (hLt : j < 8) :
    bit b j = b.toNat.testBit j := by
  unfold bit
  rw [Nat.testBit_eq_decide_div_mod_eq, decide_eq_decide,
    ← UInt8.toNat_inj, UInt8.toNat_and, UInt8.toNat_shiftRight,
    toNat_ofNat_lt hLt, UInt8.toNat_one, Nat.and_one_is_mod,
    Nat.shiftRight_eq_div_pow]

/- Setting a bit leaves the other bits as they are. -/
theorem bit_setBit
    (b : UInt8) {j k : Nat} (hj : j < 8) (hk : k < 8) :
    bit (setBit b k) j = (bit b j || decide (k = j)) := by
  have hPow : (2 : Nat) ^ k < 2 ^ 8 :=
    Nat.pow_lt_pow_right (by decide) hk
  unfold setBit
  rw [bit_eq_testBit _ hj, bit_eq_testBit _ hj, UInt8.toNat_or,
    UInt8.toNat_shiftLeft, toNat_ofNat_lt hk, UInt8.toNat_one,
    Nat.testBit_or, Nat.shiftLeft_eq, Nat.one_mul,
    Nat.mod_eq_of_lt hPow, Nat.testBit_two_pow]

/- Bytes with the same eight bits are equal. -/
theorem eq_of_bits {b c : UInt8}
    (hBits : ∀ j < 8, bit b j = bit c j) : b = c := by
  apply UInt8.toNat_inj.mp
  apply Nat.eq_of_testBit_eq
  intro j
  by_cases hLt : j < 8
  · rw [← bit_eq_testBit _ hLt, ← bit_eq_testBit _ hLt]
    exact hBits j hLt
  · have hPow (b : UInt8) : b.toNat < 2 ^ j :=
      lt_of_lt_of_le b.toNat_lt
        (Nat.pow_le_pow_right (by decide) (by omega))
    rw [Nat.testBit_lt_two_pow (hPow b),
      Nat.testBit_lt_two_pow (hPow c)]


/- Bits set one after the other are the bits that are set. -/
theorem bit_foldl_setBit
    (p : Nat → Bool) {m k : Nat} (hm : m ≤ 8) (hk : k < 8) :
    bit
        ((List.range m).foldl
          (fun b j => if p j then setBit b j else b) 0)
        k =
      (decide (k < m) && p k) := by
  induction m with
  | zero =>
      rw [bit_eq_testBit _ hk]
      exact Nat.zero_testBit _
  | succ m ih =>
      rw [List.range_succ, List.foldl_append]
      have hBefore := ih (Nat.le_of_succ_le hm)
      have hLast (hNe : m ≠ k) :
          decide (k < m + 1) = decide (k < m) := by
        rw [decide_eq_decide]
        omega
      rw [List.foldl_cons, List.foldl_nil]
      by_cases hEq : m = k
      · subst hEq
        cases hp : p m with
        | true =>
            rw [if_pos rfl, bit_setBit _ hk hk]
            simp
        | false =>
            rw [if_neg Bool.false_ne_true, hBefore, hp]
            simp
      · cases hp : p m with
        | true =>
            rw [if_pos rfl, bit_setBit _ hk hm, hBefore,
              hLast hEq, decide_eq_false hEq, Bool.or_false]
        | false =>
            rw [if_neg Bool.false_ne_true, hBefore, hLast hEq]

------------------------------------------------------------
-- Packing and Unpacking
------------------------------------------------------------

/- The bit at an index of the packed bytes. -/
def bitAt (bytes : List UInt8) (index : Nat) : Bool :=
  (bytes[index / 8]?).elim false fun b => bit b (index % 8)

/- The encoder: a true entry sets its bit. -/
def packFrom (bytes : List UInt8) :
    Nat → List Bool → List UInt8
| _, [] => bytes
| i, v :: vs =>
    packFrom
      (if v then
        bytes.modify (i / 8) fun b => setBit b (i % 8)
      else bytes)
      (i + 1) vs

/- One bit for each boolean, in as few bytes as they need. -/
def pack (bits : List Bool) : List UInt8 :=
  packFrom (List.replicate ((bits.length + 7) / 8) 0) 0 bits

/- A decoder on one byte, which stops past the last entry. -/
def readByte (b : UInt8) (i : Nat) :
    List Nat → List Bool → List Bool
| [], result => result
| j :: js, result =>
    let index := i * 8 + j
    if result.length ≤ index then result
    else readByte b i js (result.set index (bit b j))

/- Read the bytes from byte `i` on into the result. -/
def readFrom (result : List Bool) :
    Nat → List UInt8 → List Bool
| _, [] => result
| i, b :: bytes =>
    readFrom (readByte b i (List.range 8) result) (i + 1) bytes

/- Read as many bits as the caller expects. -/
def unpack (bytes : List UInt8) (size : Nat) : List Bool :=
  readFrom (List.replicate size false) 0 bytes

------------------------------------------------------------
-- Bits of What Is Packed
------------------------------------------------------------

/- Bytes are determined by their bits. -/
theorem eq_of_bitAt {bytes bytes' : List UInt8}
    (hLength : bytes.length = bytes'.length)
    (hBits : ∀ k, bitAt bytes k = bitAt bytes' k) :
    bytes = bytes' := by
  apply List.ext_getElem hLength
  intro i hi hi'
  apply eq_of_bits
  intro j hj
  have hByte : (i * 8 + j) / 8 = i := by omega
  have hBit : (i * 8 + j) % 8 = j := by omega
  have hSame := hBits (i * 8 + j)
  unfold bitAt at hSame
  rw [hByte, hBit, List.getElem?_eq_getElem hi,
    List.getElem?_eq_getElem hi'] at hSame
  exact hSame

/- Bytes that are written one at a time. -/
theorem bitAt_map_range
    (p : Nat → Bool) (m k : Nat) :
    bitAt
        ((List.range m).map fun i =>
          (List.range 8).foldl
            (fun b j =>
              if p (i * 8 + j) then setBit b j else b)
            0)
        k =
      (decide (k < m * 8) && p k) := by
  have hMod : k % 8 < 8 := Nat.mod_lt k (by decide)
  have hSplit : k / 8 * 8 + k % 8 = k := Nat.div_add_mod' k 8
  unfold bitAt
  rw [List.getElem?_map]
  by_cases hIn : k < m * 8
  · rw [List.getElem?_range (by omega), Option.map_some,
      Option.elim_some, decide_eq_true hIn,
      bit_foldl_setBit (fun j => p (k / 8 * 8 + j))
        (Nat.le_refl 8) hMod,
      hSplit, decide_eq_true hMod]
  · rw [decide_eq_false hIn, List.getElem?_eq_none]
    · rfl
    · rw [List.length_range]
      omega

/- A write into one byte adds one bit. -/
theorem bitAt_modify
    {bytes : List UInt8} {i : Nat}
    (hRoom : i / 8 < bytes.length) (k : Nat) :
    bitAt (bytes.modify (i / 8) fun b => setBit b (i % 8)) k =
      (bitAt bytes k || decide (i = k)) := by
  have hMod (m : Nat) : m % 8 < 8 := Nat.mod_lt m (by decide)
  unfold bitAt
  rw [List.getElem?_modify]
  by_cases hByte : i / 8 = k / 8
  · have hIndex : (i % 8 = k % 8) = (i = k) := by
      apply propext
      omega
    rw [← hByte, List.getElem?_eq_getElem hRoom]
    simp only [if_true, Option.map_eq_map, Option.map_some,
      Option.elim_some, bit_setBit _ (hMod k) (hMod i), hIndex]
  · have hNe : i ≠ k := fun hEq => hByte (by rw [hEq])
    simp only [if_neg hByte, decide_eq_false hNe, Bool.or_false,
      Option.map_eq_map, Option.map_id']

/- Packing from `i` on adds the bits that are true. -/
theorem bitAt_packFrom
    {bytes : List UInt8} {i : Nat} {vs : List Bool}
    (hRoom : i + vs.length ≤ bytes.length * 8) (k : Nat) :
    bitAt (packFrom bytes i vs) k =
      (bitAt bytes k ||
        (decide (i ≤ k) && vs.getD (k - i) false)) := by
  induction vs generalizing bytes i with
  | nil => simp [packFrom]
  | cons v vs ih =>
      rw [List.length_cons] at hRoom
      have hTail (hLe : i ≤ k) (hNe : i ≠ k) :
          (v :: vs).getD (k - i) false =
            vs.getD (k - (i + 1)) false := by
        have hSub : k - i = (k - (i + 1)) + 1 := by omega
        rw [hSub, List.getD_cons_succ]
      have hRest :
          (decide (i ≤ k) && (v :: vs).getD (k - i) false) =
            ((v && decide (i = k)) ||
              (decide (i + 1 ≤ k) &&
                vs.getD (k - (i + 1)) false)) := by
        by_cases hEq : i = k
        · subst hEq
          simp
        · by_cases hLe : i ≤ k
          · rw [hTail hLe hEq, decide_eq_true hLe,
              decide_eq_false hEq,
              decide_eq_true (by omega : i + 1 ≤ k)]
            simp
          · rw [decide_eq_false hLe, decide_eq_false hEq,
              decide_eq_false (by omega : ¬ i + 1 ≤ k)]
            simp
      rw [hRest]
      unfold packFrom
      cases v with
      | true =>
          have hLength :
              i + 1 + vs.length ≤
                (bytes.modify (i / 8) fun b =>
                  setBit b (i % 8)).length * 8 := by
            rw [List.length_modify]
            omega
          rw [if_pos rfl, ih hLength,
            bitAt_modify (by omega), Bool.true_and,
            Bool.or_assoc]
      | false =>
          rw [if_neg Bool.false_ne_true, ih (by omega),
            Bool.false_and, Bool.false_or]

/- Every boolean is found at its own index. -/
theorem bitAt_pack (bits : List Bool) (k : Nat) :
    bitAt (pack bits) k = bits.getD k false := by
  have hZero :
      bitAt (List.replicate ((bits.length + 7) / 8) 0) k =
        false := by
    unfold bitAt
    rw [List.getElem?_replicate]
    split
    · rw [Option.elim_some,
        bit_eq_testBit _ (Nat.mod_lt k (by decide))]
      exact Nat.zero_testBit _
    · rfl
  unfold pack
  rw [bitAt_packFrom, hZero]
  · simp
  · rw [List.length_replicate]
    omega

/- Packing writes into bytes that are there already. -/
theorem length_packFrom
    (bytes : List UInt8) (i : Nat) (vs : List Bool) :
    (packFrom bytes i vs).length = bytes.length := by
  induction vs generalizing bytes i with
  | nil => rfl
  | cons v vs ih =>
      unfold packFrom
      rw [ih]
      cases v with
      | true => exact List.length_modify _ _ _
      | false => rfl

theorem length_pack (bits : List Bool) :
    (pack bits).length = (bits.length + 7) / 8 := by
  unfold pack
  rw [length_packFrom, List.length_replicate]

/- The encoder writes byte after byte. -/
theorem pack_eq (bits : List Bool) :
    pack bits =
      (List.range ((bits.length + 7) / 8)).map fun i =>
        (List.range 8).foldl
          (fun b j =>
            if bits.getD (i * 8 + j) false then setBit b j
            else b)
          0 := by
  apply eq_of_bitAt
  · rw [length_pack, List.length_map, List.length_range]
  · intro k
    rw [bitAt_pack,
      bitAt_map_range fun k => bits.getD k false]
    by_cases hIn : k < (bits.length + 7) / 8 * 8
    · rw [decide_eq_true hIn, Bool.true_and]
    · rw [decide_eq_false hIn, List.getD_eq_default _ _ (by omega),
        Bool.false_and]

------------------------------------------------------------
-- Bits That Are Read
------------------------------------------------------------

theorem length_readByte
    (b : UInt8) (i : Nat) (js : List Nat)
    (result : List Bool) :
    (readByte b i js result).length = result.length := by
  induction js generalizing result with
  | nil => rfl
  | cons j js ih =>
      unfold readByte
      dsimp only
      split
      · rfl
      · rw [ih, List.length_set]

/- The entries of a byte from bit `j` on are read. -/
theorem getElem?_readByte
    (b : UInt8) (i j m k : Nat) (result : List Bool) :
    (readByte b i (List.range' j m) result)[k]? =
      if k < result.length ∧ i * 8 + j ≤ k ∧
          k < i * 8 + j + m then
        some (bit b (k - i * 8))
      else result[k]? := by
  induction m generalizing j result with
  | zero =>
      rw [if_neg (by omega)]
      rfl
  | succ m ih =>
      rw [List.range'_succ]
      unfold readByte
      dsimp only
      split
      · rename_i hPast
        rw [if_neg (by omega)]
      · rename_i hInside
        rw [ih, List.length_set, List.getElem?_set]
        by_cases hHere : i * 8 + j = k
        · rw [if_neg (by omega), if_pos hHere,
            if_pos (by omega), if_pos (by omega)]
          have hBit : k - i * 8 = j := by omega
          rw [hBit]
        · rw [if_neg hHere]
          have hSame :
              (k < result.length ∧ i * 8 + (j + 1) ≤ k ∧
                k < i * 8 + (j + 1) + m) =
                (k < result.length ∧ i * 8 + j ≤ k ∧
                  k < i * 8 + j + (m + 1)) := by
            apply propext
            omega
          simp only [hSame]

/- What each place of the result holds after reading. -/
theorem getElem?_readFrom
    (result : List Bool) (i k : Nat) (bytes : List UInt8) :
    (readFrom result i bytes)[k]? =
      if k < result.length ∧ i * 8 ≤ k ∧
          k < (i + bytes.length) * 8 then
        some (bitAt bytes (k - i * 8))
      else result[k]? := by
  induction bytes generalizing result i with
  | nil =>
      rw [if_neg (by rw [List.length_nil]; omega)]
      rfl
  | cons b bytes ih =>
      unfold readFrom
      rw [ih, length_readByte, List.range_eq_range',
        getElem?_readByte, List.length_cons]
      by_cases hHere : i * 8 ≤ k ∧ k < i * 8 + 8
      · have hFirst : (k - i * 8) / 8 = 0 := by omega
        have hBit : (k - i * 8) % 8 = k - i * 8 := by omega
        rw [if_neg (by omega)]
        unfold bitAt
        rw [hFirst, hBit]
        simp only [List.getElem?_cons_zero, Option.elim_some]
        by_cases hIn : k < result.length
        · rw [if_pos (by omega), if_pos (by omega)]
        · rw [if_neg (by omega), if_neg (by omega)]
      · rw [if_neg (by omega : ¬ (k < result.length ∧
          i * 8 + 0 ≤ k ∧ k < i * 8 + 0 + 8))]
        have hSame :
            (k < result.length ∧ (i + 1) * 8 ≤ k ∧
              k < (i + 1 + bytes.length) * 8) =
              (k < result.length ∧ i * 8 ≤ k ∧
                k < (i + (bytes.length + 1)) * 8) := by
          apply propext
          omega
        simp only [hSame]
        split
        · rename_i hIn
          have hNext : (k - i * 8) / 8 =
              (k - (i + 1) * 8) / 8 + 1 := by omega
          have hBit : (k - i * 8) % 8 =
              (k - (i + 1) * 8) % 8 := by omega
          unfold bitAt
          rw [hNext, hBit, List.getElem?_cons_succ]
        · rfl

/- A decoder gives bit after bit, and false past the bytes. -/
theorem unpack_eq (bytes : List UInt8) (size : Nat) :
    unpack bytes size = (List.range size).map (bitAt bytes) := by
  apply List.ext_getElem?
  intro k
  unfold unpack
  rw [getElem?_readFrom, List.length_replicate,
    List.getElem?_replicate, List.getElem?_map]
  by_cases hIn : k < size
  · rw [if_pos hIn, List.getElem?_range hIn, Option.map_some]
    split
    · simp
    · have hNone : bytes[k / 8]? = none := by
        apply List.getElem?_eq_none
        omega
      unfold bitAt
      rw [hNone]
      rfl
  · rw [if_neg (fun h => hIn h.1), if_neg hIn,
      List.getElem?_eq_none (by simpa using hIn)]
    rfl

/- Packed bits are unpacked as they were. -/
theorem unpack_pack (bits : List Bool) :
    unpack (pack bits) bits.length = bits := by
  rw [unpack_eq]
  apply List.ext_getElem (by simp)
  intro k hk hk'
  rw [List.getElem_map, List.getElem_range, bitAt_pack]
  exact List.getD_eq_getElem _ _ hk'

end Bitmap
end Protocol
