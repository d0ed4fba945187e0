import Jumbo.Crypto.Signature

/-
  Messages shared by the packages.

  Fields that no modelled function reads are left out. A
  pointer that may be nil is an option; a nil byte slice and
  an empty one are the same on the wire and here.

  Main declarations:
    * `RawBC`
    * `BCBlock`
    * `intToBytes`
    * `signbyte`
    * `signbyte_inj`
-/

------------------------------------------------------------
-- Messages
------------------------------------------------------------

namespace Jumbo

namespace Struct

open Crypto (Bytes)

/- A signature with the number of the party. -/
structure Signature where
  id : Int32
  content : Bytes
deriving DecidableEq, Repr

/- Signatures with the numbers of their parties. -/
structure BatchSignature where
  signs : Bytes
  mems : List Int32
deriving DecidableEq, Repr

/- The header of a block. -/
structure RawBC where
  lastblkid : Bytes
  height : Int32
  root : Bytes
  leader : Int32
  k : Int32
  timestamp : Int64
  txcount : Int32
deriving DecidableEq

/-
  A block with the leader's signature and the certificate of
  the block before.
-/
structure BCBlock where
  rawBC : RawBC
  sign : Option Signature
  batchSigns : Option BatchSignature
deriving DecidableEq

end Struct

end Jumbo

------------------------------------------------------------
-- Bytes to Sign
------------------------------------------------------------

namespace Jumbo

namespace Struct

open Crypto (Bytes)

/- `IntToBytes`: four bytes, the most significant first. -/
def intToBytes (x : Int32) : Bytes :=
  let u := x.toUInt32
  [(u >>> 24).toUInt8, (u >>> 16).toUInt8, (u >>> 8).toUInt8,
    u.toUInt8]

/- What a party signs for a block of a broadcast instance. -/
def signbyte (blkID : Bytes) (height lid sid : Int32) :
    Bytes :=
  blkID ++ intToBytes height ++ intToBytes lid ++
    intToBytes sid

/- Numbers that fit 32 bits are not mixed up. -/
theorem int32_ofNat_inj
    {a b : Nat} (hFits : a < 2 ^ 32) (hFits' : b < 2 ^ 32)
    (hEq : Int32.ofNat a = Int32.ofNat b) :
    a = b := by
  have hNat := congrArg (fun x => x.toUInt32.toNat) hEq
  simp at hNat
  omega

/- A number that a value of 32 bits stands for. -/
theorem int32_ofNat_of_toInt
    {m : Nat} {x : Int32} (hInt : x.toInt = m) :
    Int32.ofNat m = x := by
  rw [← Int32.ofInt_toInt x, hInt]
  rfl

/- A number is determined by its bits. -/
theorem int32_eq_of_toNat
    {x y : Int32}
    (hEq : x.toUInt32.toNat = y.toUInt32.toNat) :
    x = y := by
  have hSame := congrArg UInt32.toInt32 (UInt32.toNat.inj hEq)
  simpa using hSame

/- Equal bytes at one position, as numbers. -/
theorem shiftRight_byte_eq
    {a b : UInt32} (k : UInt32)
    (hEq : (a >>> k).toUInt8 = (b >>> k).toUInt8) :
    (a.toNat >>> (k.toNat % 32)) % 256 =
      (b.toNat >>> (k.toNat % 32)) % 256 := by
  have hNat := congrArg UInt8.toNat hEq
  simpa using hNat

/- Four bytes determine the number. -/
theorem intToBytes_inj {x y : Int32}
    (hEq : intToBytes x = intToBytes y) :
    x = y := by
  unfold intToBytes at hEq
  simp only [List.cons.injEq, and_true] at hEq
  rcases hEq with ⟨hFirst, hSecond, hThird, hFourth⟩
  have hFirst := shiftRight_byte_eq _ hFirst
  have hSecond := shiftRight_byte_eq _ hSecond
  have hThird := shiftRight_byte_eq _ hThird
  have hFourth := congrArg UInt8.toNat hFourth
  simp only [UInt32.toNat_toUInt8, Nat.reducePow,
    UInt32.reduceToNat, Nat.reduceMod,
    Nat.shiftRight_eq_div_pow]
    at hFirst hSecond hThird hFourth
  have hx := x.toUInt32.toNat_lt
  have hy := y.toUInt32.toNat_lt
  exact int32_eq_of_toNat (by omega)

/- The three numbers can be read off the end. -/
theorem signbyte_inj
    {blkID blkID' : Bytes} {height lid sid : Int32}
    {height' lid' sid' : Int32}
    (hEq :
      signbyte blkID height lid sid =
        signbyte blkID' height' lid' sid') :
    blkID = blkID' ∧ height = height' ∧ lid = lid' ∧
      sid = sid' := by
  unfold signbyte at hEq
  rcases List.append_inj' hEq rfl with ⟨hEq, hSid⟩
  rcases List.append_inj' hEq rfl with ⟨hEq, hLid⟩
  rcases List.append_inj' hEq rfl with ⟨hEq, hHeight⟩
  exact
    ⟨hEq, intToBytes_inj hHeight, intToBytes_inj hLid,
      intToBytes_inj hSid⟩

end Struct

end Jumbo
