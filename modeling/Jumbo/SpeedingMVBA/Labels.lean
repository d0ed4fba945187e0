import Jumbo.SpeedingMVBA.Basic

/-
  The strings that are signed in a loop, as far as they tell
  rounds, loops, MVBA rounds and tags apart.

  A string is three decimal numbers without a separator and a
  tag. The tag can be read off, for it has no digits. The
  numbers can only when it is known where they end.

  Main declarations:
    * `Label` and `Label.bytes`
    * `Shifted`
    * `separated_iff`
-/

------------------------------------------------------------
-- Decimal Numbers
------------------------------------------------------------

namespace Jumbo

namespace SpeedingMVBA

open Crypto (Bytes)

/- A map that is injective on both lists. -/
theorem map_inj_on
    {α β : Type} {f : α → β} {xs ys : List α}
    (hInj :
      ∀ x ∈ xs, ∀ y ∈ ys, f x = f y → x = y)
    (hEq : xs.map f = ys.map f) : xs = ys := by
  induction xs generalizing ys with
  | nil =>
      exact (List.map_eq_nil_iff.mp hEq.symm).symm
  | cons x xs ih =>
      cases ys with
      | nil => cases hEq
      | cons y ys =>
          injection hEq with hHead hTail
          have hFirst : x = y :=
            hInj x List.mem_cons_self y List.mem_cons_self
              hHead
          have hRest : xs = ys :=
            ih (fun a hA b hB =>
                hInj a (List.mem_cons_of_mem _ hA) b
                  (List.mem_cons_of_mem _ hB))
              hTail
          rw [hFirst, hRest]

/- A digit is one of the bytes 48 to 57. -/
theorem digit_toNat
    {c : Char} (hDigit : c.isDigit) :
    48 ≤ c.toNat ∧ c.toNat ≤ 57 := by
  simp only [Char.isDigit, ge_iff_le, Bool.and_eq_true,
    decide_eq_true_eq] at hDigit
  exact hDigit

/- A digit is one byte. -/
theorem toNat_of_digit
    {c : Char} (hDigit : c.isDigit) :
    (UInt8.ofNat c.toNat).toNat = c.toNat := by
  have hRange := digit_toNat hDigit
  simp only [UInt8.toNat_ofNat']
  omega

/- Decimals are digits. -/
theorem isDigit_of_mem
    {k : Nat} {c : Char} (hMem : c ∈ Nat.toDigits 10 k) :
    c.isDigit :=
  Nat.isDigit_of_mem_toDigits (by decide) (by decide) hMem

/- Decimal numbers determine the number. -/
theorem digits_inj
    {k k' : Nat} (hEq : digits k = digits k') : k = k' := by
  have hChars : Nat.toDigits 10 k = Nat.toDigits 10 k' := by
    refine map_inj_on ?_ hEq
    intro c hC c' hC' hByte
    have hNat := congrArg UInt8.toNat hByte
    rw [toNat_of_digit (isDigit_of_mem hC),
      toNat_of_digit (isDigit_of_mem hC')] at hNat
    exact Char.toNat_inj.mp hNat
  calc
    k = Nat.ofDigitChars 10 (Nat.toDigits 10 k) 0 :=
      Nat.ofDigitChars_ten_toDigits.symm
    _ = Nat.ofDigitChars 10 (Nat.toDigits 10 k') 0 := by
      rw [hChars]
    _ = k' := Nat.ofDigitChars_ten_toDigits

/- Whether a byte is a decimal digit. -/
def isDigit (b : UInt8) : Bool :=
  b.toNat ≤ 57

/- So are their bytes. -/
theorem isDigit_digits
    {k : Nat} {b : UInt8} (hMem : b ∈ digits k) :
    isDigit b = true := by
  rcases List.mem_map.mp hMem with ⟨c, hC, rfl⟩
  have hDigit := isDigit_of_mem hC
  have hRange := digit_toNat hDigit
  simp only [isDigit, toNat_of_digit hDigit,
    decide_eq_true_eq]
  exact hRange.2

end SpeedingMVBA

end Jumbo

------------------------------------------------------------
-- Labels
------------------------------------------------------------

namespace Jumbo

namespace SpeedingMVBA

open Crypto (Bytes)

/- What a string is signed for. -/
structure Label where
  round : Nat
  loop : Nat
  mvbaRound : Nat
  tag : Tag
deriving DecidableEq

namespace Label

/- The three numbers without a separator. -/
def number (x : Label) : Bytes :=
  digits x.round ++ digits x.loop ++ digits x.mvbaRound

/- The string that is signed: numbers and a tag. -/
def bytes (x : Label) : Bytes :=
  x.number ++ x.tag.bytes

end Label

/-
  The numbers of two labels run together to the same digits,
  but digits have moved from one number to the next.
-/
structure Shifted (x y : Label) : Prop where
  tag : x.tag = y.tag
  number : x.number = y.number
  width :
    (digits x.loop).length ≠ (digits y.loop).length ∨
      (digits x.mvbaRound).length ≠
        (digits y.mvbaRound).length

/- The numbers are digits. -/
theorem isDigit_number
    {x : Label} {b : UInt8} (hMem : b ∈ x.number) :
    isDigit b = true := by
  unfold Label.number at hMem
  rcases List.mem_append.mp hMem with hMem | hMem
  · rcases List.mem_append.mp hMem with hMem | hMem
    · exact isDigit_digits hMem
    · exact isDigit_digits hMem
  · exact isDigit_digits hMem

/- No byte of a tag is a digit. -/
theorem takeWhile_tag (tag : Tag) :
    tag.bytes.takeWhile isDigit = [] := by
  cases tag <;> rfl

/- No tag has a digit. -/
theorem dropWhile_tag (tag : Tag) :
    tag.bytes.dropWhile isDigit = tag.bytes := by
  cases tag <;> rfl

/- So the digits at the front are the numbers. -/
theorem Label.takeWhile_bytes (x : Label) :
    x.bytes.takeWhile isDigit = x.number := by
  unfold Label.bytes
  rw [List.takeWhile_append_of_pos
      (fun b hB => isDigit_number hB),
    takeWhile_tag, List.append_nil]

/- And the rest is the tag. -/
theorem Label.dropWhile_bytes (x : Label) :
    x.bytes.dropWhile isDigit = x.tag.bytes := by
  unfold Label.bytes
  rw [List.dropWhile_append_of_pos
      (fun b hB => isDigit_number hB),
    dropWhile_tag]

/- Different tags have different bytes. -/
theorem Tag.bytes_inj
    {tag tag' : Tag} (hEq : tag.bytes = tag'.bytes) :
    tag = tag' := by
  cases tag <;> cases tag' <;>
    first | rfl | exact absurd hEq (by decide)

/- A string gives the tag and the digits of the numbers. -/
theorem Label.bytes_eq_iff {x y : Label} :
    x.bytes = y.bytes ↔
      x.tag = y.tag ∧ x.number = y.number := by
  constructor
  · intro hEq
    constructor
    · apply Tag.bytes_inj
      rw [← x.dropWhile_bytes, ← y.dropWhile_bytes, hEq]
    · rw [← x.takeWhile_bytes, ← y.takeWhile_bytes, hEq]
  · intro hEq
    unfold Label.bytes
    rw [hEq.1, hEq.2]

/- Where the last two numbers end, all of them can be read. -/
theorem eq_of_widths
    {x y : Label}
    (hTag : x.tag = y.tag)
    (hNumber : x.number = y.number)
    (hLoop :
      (digits x.loop).length = (digits y.loop).length)
    (hMvba :
      (digits x.mvbaRound).length =
        (digits y.mvbaRound).length) :
    x = y := by
  unfold Label.number at hNumber
  rcases List.append_inj' hNumber hMvba with
    ⟨hFirst, hThird⟩
  rcases List.append_inj' hFirst hLoop with
    ⟨hRound, hSecond⟩
  cases x
  cases y
  simp only [Label.mk.injEq]
  exact
    ⟨digits_inj hRound, digits_inj hSecond,
      digits_inj hThird, hTag⟩

end SpeedingMVBA

end Jumbo

------------------------------------------------------------
-- Domain Separation
------------------------------------------------------------

namespace Jumbo

namespace SpeedingMVBA

open Crypto (Bytes)
open Struct

/- Signatures that were all made for one string. -/
def MadeFor
    {n : Nat} (cfg : Config n) (signs msg : Bytes) : Prop :=
  Crypto.Genuine cfg.prim (fun _ signed => signed = msg)
    signs

/-
  A certificate or a signature that was made for one string
  verifies for another only when it is the same string.
-/
structure Unreplayed
    {n : Nat} (cfg : Config n) (msg msg' : Bytes)
    (P : Prop) : Prop where
  batch :
    ∀ batch : BatchSignature,
      batch.mems ≠ [] → MadeFor cfg batch.signs msg →
        verifySigns cfg msg' batch = some true → P
  sign :
    ∀ sign : Signature,
      MadeFor cfg sign.content msg →
        verifySign cfg msg' sign = some true → P

/-
  Strings that are equal are for the same label, and what was
  signed for one label is not taken for another: neither the
  strings, nor their hashes where these differ.
-/
structure Separated (x y : Label) : Prop where
  bytes : x.bytes = y.bytes → x = y
  signed :
    ∀ {n : Nat} (cfg : Config n),
      Unreplayed cfg x.bytes y.bytes (x = y)
  hashed :
    ∀ {n : Nat} (cfg : Config n),
      (cfg.sha x.bytes = cfg.sha y.bytes →
          x.bytes = y.bytes) →
        Unreplayed cfg (cfg.sha x.bytes) (cfg.sha y.bytes)
          (x = y)

/- Signatures verify for the string that they were made for. -/
theorem unreplayed
    {n : Nat} {cfg : Config n} {msg msg' : Bytes} {P : Prop}
    (hSame : msg = msg' → P) :
    Unreplayed cfg msg msg' P where
  batch := by
    intro batch hMems hMade hVerify
    rcases List.exists_mem_of_ne_nil _ hMems with
      ⟨mem, hMem⟩
    rcases hMade.batch hVerify hMem with ⟨id, -, hEq⟩
    exact hSame hEq.symm
  sign := by
    intro sign hMade hVerify
    rcases Option.bind_eq_some_iff.mp hVerify with
      ⟨id, -, hSign⟩
    exact hSame (hMade.single hSign).symm

/-
  Labels are kept apart exactly when no digits have moved
  between their numbers.
-/
theorem separated_iff (x y : Label) :
    Separated x y ↔ ¬Shifted x y := by
  constructor
  · intro hSeparated hShifted
    have hEq : x = y :=
      hSeparated.bytes
        (Label.bytes_eq_iff.mpr
          ⟨hShifted.tag, hShifted.number⟩)
    subst hEq
    rcases hShifted.width with hWidth | hWidth
    · exact hWidth rfl
    · exact hWidth rfl
  · intro hNot
    have hBytes : x.bytes = y.bytes → x = y := by
      intro hEq
      rcases Label.bytes_eq_iff.mp hEq with ⟨hTag, hNumber⟩
      by_contra hNe
      apply hNot
      refine ⟨hTag, hNumber, ?_⟩
      by_contra hWidths
      rcases not_or.mp hWidths with ⟨hLoop, hMvba⟩
      exact hNe
        (eq_of_widths hTag hNumber (not_not.mp hLoop)
          (not_not.mp hMvba))
    exact
      ⟨hBytes, fun cfg => unreplayed hBytes,
        fun cfg hSha =>
          unreplayed fun hEq => hBytes (hSha hEq)⟩

/- Loop 11 of round 1 and loop 1 of round 11. -/
theorem not_separated :
    ¬∀ x y : Label, Separated x y := by
  intro hAll
  have hEq :
      (⟨1, 11, 0, .share⟩ : Label) = ⟨11, 1, 0, .share⟩ :=
    (hAll _ _).bytes (by decide)
  exact absurd hEq (by decide)

end SpeedingMVBA

end Jumbo
