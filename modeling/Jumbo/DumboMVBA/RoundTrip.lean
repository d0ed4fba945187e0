import Mathlib.Data.Finset.Powerset
import Jumbo.DumboMVBA.Reconstruction

/-
  A message, encoded and put together again.

  The coding library splits a message into shards, adds the
  parity, and fills in shards that have been dropped. It is
  a parameter. The bytes of the message are in front of the
  padding, and every shard has some, so that the loop which
  takes them out is over when it has passed as many shards as
  there are bytes.

  Main declarations:
    * `Encoder` and `ReedSolomon`
    * `encode` and `reconstruct`
    * `Separable`
    * `reconstruct_encode`
-/

------------------------------------------------------------
-- The Coder
------------------------------------------------------------

namespace Jumbo

namespace DumboMVBA

open Crypto (Bytes)

/- The library's coder; no value where it has an error. -/
structure Encoder where
  split : Bytes → Option (List Bytes)
  encode : List Bytes → Option (List Bytes)
  reconstruct : List Bytes → Option (List Bytes)
  verify : List Bytes → Bool

/- The wrapper around the coding library. -/
structure ReedSolomon where
  rs : Encoder

namespace ReedSolomon

/- `New`, with the library's own. -/
def new
    (create : Nat → Nat → Option Encoder)
    (threshold all : Nat) : Option ReedSolomon :=
  if all < threshold then none
  else (create threshold (all - threshold)).map fun enc => ⟨enc⟩

variable (reed : ReedSolomon)

/- Split, encode and verify. -/
def encode (msg : Bytes) : Option (List Bytes) := do
  let shards ← reed.rs.split msg
  let shards ← reed.rs.encode shards
  if reed.rs.verify shards then some shards else none

/- Fill in what is missing, verify and cut to length. -/
def reconstruct
    (shards : List Bytes) (msglen : Int) : Option Bytes := do
  let shards ← reed.rs.reconstruct shards
  if reed.rs.verify shards then takeOut msglen shards 0 []
  else none

end ReedSolomon

/- The shards that are kept; the others are nil. -/
def keepOnly (kept : Finset Nat) (shards : List Bytes) :
    List Bytes :=
  shards.mapIdx fun i shard => if i ∈ kept then shard else []

/-
  A code of `all` shards, any `threshold` of which determine
  the others. The message is split in order into the first of
  them, all of one size and padded with zeros.
-/
structure Separable
    (rs : Encoder) (threshold all : Nat) : Prop where
  split :
    ∀ msg, msg ≠ [] →
      ∃ shards size zeros, rs.split msg = some shards ∧
        shards.length = all ∧ 0 < size ∧
          (∀ shard ∈ shards, shard.length = size) ∧
            (shards.take threshold).flatten =
              msg ++ List.replicate zeros 0
  encode :
    ∀ msg shards, rs.split msg = some shards →
      ∃ coded, rs.encode shards = some coded ∧
        coded.map List.length = shards.map List.length ∧
          coded.take threshold = shards.take threshold ∧
            rs.verify coded = true
  reconstruct :
    ∀ msg shards coded, rs.split msg = some shards →
      rs.encode shards = some coded →
        ∀ kept : Finset Nat, (∀ i ∈ kept, i < all) →
          threshold ≤ kept.card →
            rs.reconstruct (keepOnly kept coded) = some coded

end DumboMVBA

end Jumbo

------------------------------------------------------------
-- The Round Trip
------------------------------------------------------------

namespace Jumbo

namespace DumboMVBA

open Crypto (Bytes)

/- The loop has enough turns when no shard is empty. -/
theorem takeOut_isSome
    {m i : Nat} {shards : List Bytes} {out : Bytes}
    (hTurns : i ≤ out.length) (hShort : out.length < m)
    (hSome : ∀ shard ∈ shards, shard ≠ [])
    (hEnough : m ≤ out.length + shards.flatten.length) :
    (takeOut m shards i out).isSome := by
  induction shards generalizing i out with
  | nil =>
      rw [List.flatten_nil, List.length_nil] at hEnough
      omega
  | cons shard shards ih =>
      rw [List.forall_mem_cons] at hSome
      rw [List.flatten_cons, List.length_append] at hEnough
      unfold takeOut
      rw [if_pos (by omega), Int.toNat_natCast]
      dsimp only
      split
      · rfl
      · rename_i hMore
        have hPos := List.length_pos_iff.mpr hSome.1
        rw [List.length_append, List.length_take] at hMore
        apply ih
        · rw [List.length_append, List.length_take]
          omega
        · rw [List.length_append, List.length_take]
          omega
        · exact hSome.2
        · rw [List.length_append, List.length_take]
          omega

section RoundTrip

variable {create : Nat → Nat → Option Encoder}
variable {threshold all : Nat} {reed : ReedSolomon}

/-
  Whatever shards are kept, as long as there are enough, the
  message is put together again.
-/
theorem reconstruct_encode
    (hCreate :
      ∀ data parity rs, create data parity = some rs →
        Separable rs data (data + parity))
    (hNew : ReedSolomon.new create threshold all = some reed)
    {msg : Bytes} (hSome : msg ≠ []) {kept : Finset Nat}
    (hKept : ∀ i ∈ kept, i < all)
    (hEnough : threshold ≤ kept.card) :
    ∃ shards, reed.encode msg = some shards ∧
      reed.reconstruct (keepOnly kept shards) msg.length =
        some msg := by
  rcases Option.ite_none_left_eq_some.mp hNew with
    ⟨hLe, hMade⟩
  rcases Option.map_eq_some_iff.mp hMade with ⟨rs, hRs, rfl⟩
  have hCode := hCreate _ _ _ hRs
  rw [show threshold + (all - threshold) = all by omega]
    at hCode
  rcases hCode.split msg hSome with
    ⟨shards, size, zeros, hSplit, _, hSize, hEqual, hFlat⟩
  rcases hCode.encode msg shards hSplit with
    ⟨coded, hEncode, hSizes, hData, hVerify⟩
  have hRecover :=
    hCode.reconstruct msg shards coded hSplit hEncode kept hKept
      hEnough
  -- the message is in front of the shards
  have hFront : msg <+: coded.flatten := by
    have hTake :
        (coded.take threshold).flatten <+: coded.flatten :=
      List.IsPrefix.flatten (List.take_prefix threshold coded)
    rw [hData, hFlat] at hTake
    exact (List.prefix_append msg _).trans hTake
  have hPos := List.length_pos_iff.mpr hSome
  have hTaken :
      (takeOut msg.length coded 0 []).isSome := by
    apply takeOut_isSome
    · exact Nat.zero_le _
    · exact hPos
    · intro shard hMem hNil
      have hLen : shard.length ∈ shards.map List.length := by
        rw [← hSizes]
        exact List.mem_map_of_mem hMem
      rcases List.mem_map.mp hLen with ⟨other, hOther, hSame⟩
      rw [hEqual other hOther, hNil, List.length_nil] at hSame
      omega
    · rw [List.length_nil, Nat.zero_add]
      exact hFront.length_le
  rcases Option.isSome_iff_exists.mp hTaken with ⟨res, hRes⟩
  have hValue := takeOut_start hRes
  rw [Int.toNat_natCast, ← List.prefix_iff_eq_take.mp hFront] at hValue
  refine ⟨coded, ?_, ?_⟩
  · simp [ReedSolomon.encode, hSplit, hEncode, hVerify]
  · simp [ReedSolomon.reconstruct, hRecover, hVerify, hRes,
      hValue]

end RoundTrip

end DumboMVBA

end Jumbo

------------------------------------------------------------
-- Two Shards of Three
------------------------------------------------------------

namespace Jumbo

namespace DumboMVBA

open Crypto (Bytes)

/- Divided by two and by three. -/
def half (b : UInt8) : UInt8 :=
  (b >>> 1) ^^^ (if b % 2 = 1 then 142 else 0)

/- Divided by three. -/
def third (b : UInt8) : UInt8 :=
  let b4 := double (double b)
  let b16 := double (double b4)
  b4 ^^^ b16 ^^^ double b16 ^^^ double (double b16) ^^^
    double (double (double b16))

/- A property of all bytes is one of 256 numbers. -/
theorem forall_byte
    {P : UInt8 → Prop}
    (hAll : ∀ k : Fin 256, P (UInt8.ofNat k.val))
    (b : UInt8) : P b := by
  have hByte := hAll ⟨b.toNat, b.toNat_lt⟩
  rwa [UInt8.ofNat_toNat] at hByte

/- Half of the double. -/
theorem half_double : ∀ b, half (double b) = b :=
  forall_byte (by decide +kernel)

/- A third of the threefold. -/
theorem third_triple : ∀ b, third (triple b) = b :=
  forall_byte (by decide +kernel)

/- The parity of two shards, as the library computes it. -/
def parity (a b : Bytes) : Bytes :=
  List.zipWith (fun x y => triple x ^^^ double y) a b

/- The library for two shards with data and one of parity. -/
def pairCoder : Encoder where
  split := fun msg =>
    if msg = [] then none
    else
      let size := (msg.length + 1) / 2
      let zeros : Bytes := List.replicate (msg.length % 2) 0
      some
        [(msg ++ zeros).take size, (msg ++ zeros).drop size,
          List.replicate size 0]
  encode := fun shards =>
    match shards with
    | [a, b, _] => some [a, b, parity a b]
    | _ => none
  reconstruct := fun shards =>
    match shards with
    | [a, b, c] =>
        if a ≠ [] ∧ b ≠ [] then
          some [a, b, if c = [] then parity a b else c]
        else if b ≠ [] ∧ c ≠ [] then
          some
            [List.zipWith (fun p y => third (p ^^^ double y))
              c b, b, c]
        else if a ≠ [] ∧ c ≠ [] then
          some
            [a, List.zipWith (fun p x => half (p ^^^ triple x))
              c a, c]
        else none
    | _ => none
  verify := fun shards =>
    match shards with
    | [a, b, c] => a ≠ [] ∧ a.length = b.length ∧ c = parity a b
    | _ => false

/- The first shard from the parity and the second. -/
theorem recover_first
    {a b : Bytes} (hLength : a.length = b.length) :
    List.zipWith (fun p y => third (p ^^^ double y))
      (parity a b) b = a := by
  induction a generalizing b with
  | nil => rfl
  | cons x a ih =>
      cases b with
      | nil => cases hLength
      | cons y b =>
          have hByte :
              third (triple x ^^^ double y ^^^ double y) = x := by
            rw [UInt8.xor_assoc, UInt8.xor_self, UInt8.xor_zero]
            exact third_triple x
          exact congrArg₂ List.cons hByte
            (ih (Nat.succ.inj hLength))

/- The second shard from the parity and the first. -/
theorem recover_second
    {a b : Bytes} (hLength : a.length = b.length) :
    List.zipWith (fun p x => half (p ^^^ triple x))
      (parity a b) a = b := by
  induction a generalizing b with
  | nil => exact (List.length_eq_zero_iff.mp hLength.symm).symm
  | cons x a ih =>
      cases b with
      | nil => cases hLength
      | cons y b =>
          have hByte :
              half (triple x ^^^ double y ^^^ triple x) = y := by
            rw [UInt8.xor_comm (triple x), UInt8.xor_assoc,
              UInt8.xor_self, UInt8.xor_zero]
            exact half_double y
          exact congrArg₂ List.cons hByte
            (ih (Nat.succ.inj hLength))

/- What the shards of a message are. -/
theorem pairCoder_split
    {msg : Bytes} {shards : List Bytes}
    (hSplit : pairCoder.split msg = some shards) :
    ∃ a b c zeros, shards = [a, b, c] ∧
      a.length = (msg.length + 1) / 2 ∧
        b.length = (msg.length + 1) / 2 ∧
          c.length = (msg.length + 1) / 2 ∧ a ≠ [] ∧
            a ++ b = msg ++ List.replicate zeros 0 := by
  rcases Option.ite_none_left_eq_some.mp hSplit with
    ⟨hSome, hEq⟩
  cases hEq
  have hPos := List.length_pos_iff.mpr hSome
  have hTake :
      ((msg ++ List.replicate (msg.length % 2) 0).take
          ((msg.length + 1) / 2)).length =
        (msg.length + 1) / 2 := by
    rw [List.length_take, List.length_append,
      List.length_replicate]
    omega
  refine
    ⟨_, _, _, _, rfl, hTake, ?_, List.length_replicate, ?_,
      List.take_append_drop _ _⟩
  · rw [List.length_drop, List.length_append,
      List.length_replicate]
    omega
  · intro hNil
    rw [hNil, List.length_nil] at hTake
    omega

/- Which two shards a message is put together from. -/
theorem kept_cases :
    ∀ kept ∈ (Finset.range 3).powerset, 2 ≤ kept.card →
      0 ∈ kept ∧ 1 ∈ kept ∨
        0 ∉ kept ∧ 1 ∈ kept ∧ 2 ∈ kept ∨
          0 ∈ kept ∧ 1 ∉ kept ∧ 2 ∈ kept := by
  decide

/- What is encoded is recovered from any two shards. -/
theorem pairCoder_separable : Separable pairCoder 2 3 where
  split := by
    intro msg hSome
    have hPos := List.length_pos_iff.mpr hSome
    have hSplit :
        pairCoder.split msg = some _ := if_neg hSome
    rcases pairCoder_split hSplit with
      ⟨a, b, c, zeros, hEq, ha, hb, hc, _, hFlat⟩
    refine
      ⟨_, (msg.length + 1) / 2, zeros, hSplit, rfl, by omega,
        ?_, ?_⟩
    · rw [hEq]
      simp [ha, hb, hc]
    · rw [hEq]
      simpa using hFlat
  encode := by
    intro msg shards hSplit
    rcases pairCoder_split hSplit with
      ⟨a, b, c, zeros, rfl, ha, hb, hc, hSome, _⟩
    refine ⟨[a, b, parity a b], rfl, ?_, rfl, ?_⟩
    · simp [parity, ha, hb, hc]
    · simp [pairCoder, hSome, ha, hb]
  reconstruct := by
    intro msg shards coded hSplit hEncode kept hKept hEnough
    rcases pairCoder_split hSplit with
      ⟨a, b, c, zeros, rfl, ha, hb, hc, hSome, _⟩
    cases hEncode
    have hLength : a.length = b.length := ha.trans hb.symm
    have hPos := List.length_pos_iff.mpr hSome
    have hSecond : b ≠ [] :=
      List.length_pos_iff.mp (by omega)
    have hParity : parity a b ≠ [] := by
      apply List.length_pos_iff.mp
      unfold parity
      rw [List.length_zipWith]
      omega
    have hRange : kept ∈ (Finset.range 3).powerset :=
      Finset.mem_powerset.mpr fun i hi =>
        Finset.mem_range.mpr (hKept i hi)
    rcases kept_cases kept hRange hEnough with
      ⟨h0, h1⟩ | ⟨h0, h1, h2⟩ | ⟨h0, h1, h2⟩
    · by_cases h2 : 2 ∈ kept
      · simp [pairCoder, keepOnly, h0, h1, h2, hSome, hSecond,
          hParity]
      · simp [pairCoder, keepOnly, h0, h1, h2, hSome, hSecond]
    · simp [pairCoder, keepOnly, h0, h1, h2, hSecond, hParity,
        recover_first hLength]
    · simp [pairCoder, keepOnly, h0, h1, h2, hSome, hParity,
        recover_second hLength]

/- Five bytes, with the first shard dropped. -/
theorem reconstruct_encode_first :
    ∃ shards,
      ReedSolomon.encode ⟨pairCoder⟩ [1, 2, 3, 4, 5] =
          some shards ∧
        ReedSolomon.reconstruct ⟨pairCoder⟩
            (keepOnly {1, 2} shards) 5 =
          some [1, 2, 3, 4, 5] := by
  have hCreate :
      ∀ data parity rs,
        (if data = 2 ∧ parity = 1 then some pairCoder
          else none) = some rs →
          Separable rs data (data + parity) := by
    intro data parity rs hRs
    rcases Option.ite_none_right_eq_some.mp hRs with
      ⟨⟨rfl, rfl⟩, hEq⟩
    cases hEq
    exact pairCoder_separable
  have hNew :
      ReedSolomon.new
          (fun data parity =>
            if data = 2 ∧ parity = 1 then some pairCoder
            else none) 2 3 = some ⟨pairCoder⟩ :=
    rfl
  exact
    reconstruct_encode hCreate hNew (by decide) (by decide)
      (by decide)

end DumboMVBA

end Jumbo
