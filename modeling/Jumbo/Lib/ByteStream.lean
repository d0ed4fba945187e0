import Mathlib.Data.List.Basic

/-
  A stream that is read in pieces.

  A read into a buffer gives the piece that has arrived, or as
  much of it as the buffer takes, and nothing from the pieces
  behind it. Any way a stream can be cut into reads is some
  list of pieces, and what is read does not depend on it.

  Main declarations:
    * `read` and `readFull`
    * `read_eq_some`
    * `readFull_eq_some`
    * `readFull_append`
-/

------------------------------------------------------------
-- Reads
------------------------------------------------------------

namespace Protocol

namespace ByteStream

variable {α : Type*}

/- A read into a buffer; it fails where the stream ends. -/
def read (k : Nat) (pieces : List (List α)) :
    Option (List α × List (List α)) :=
  if k = 0 then some ([], pieces)
  else
    match pieces with
    | [] => none
    | piece :: rest =>
        if piece.length ≤ k then some (piece, rest)
        else some (piece.take k, piece.drop k :: rest)

section Read

variable {k : Nat} {pieces left : List (List α)}
variable {got : List α}

/- A read that leaves room in the buffer has used a piece up. -/
theorem read_eq_some
    (hRead : read k pieces = some (got, left)) :
    got ++ left.flatten = pieces.flatten ∧
      got.length ≤ k ∧
        (got.length < k → left.length < pieces.length) := by
  unfold read at hRead
  split at hRead
  · rename_i hZero
    cases hRead
    exact ⟨rfl, Nat.zero_le k, fun hLt => by omega⟩
  · cases pieces with
    | nil => cases hRead
    | cons piece rest =>
        dsimp only at hRead
        split at hRead
        · rename_i hFits
          cases hRead
          exact ⟨rfl, hFits, fun _ => Nat.lt_succ_self _⟩
        · cases hRead
          refine ⟨?_, ?_, fun hLt => ?_⟩
          · rw [List.flatten_cons, List.flatten_cons,
              ← List.append_assoc, List.take_append_drop]
          · exact List.length_take_le k piece
          · rw [List.length_take] at hLt
            omega

/- Only a read of some bytes fails, and only at the end. -/
theorem read_eq_none
    (hRead : read k pieces = none) :
    k ≠ 0 ∧ pieces = [] := by
  unfold read at hRead
  split at hRead
  · cases hRead
  · rename_i hPos
    refine ⟨hPos, ?_⟩
    cases pieces with
    | nil => rfl
    | cons piece rest =>
        dsimp only at hRead
        split at hRead
        · cases hRead
        · cases hRead

end Read

/- Reads until the buffer is full. -/
def readFull (k : Nat) (pieces : List (List α)) :
    Option (List α × List (List α)) :=
  match _ : read k pieces with
  | none => none
  | some (got, left) =>
      if _ : got.length < k then
        (readFull (k - got.length) left).map
          fun (more, left) => (got ++ more, left)
      else some (got, left)
termination_by pieces.length
decreasing_by exact (read_eq_some ‹_›).2.2 ‹_›

section ReadFull

variable {k : Nat} {pieces left : List (List α)}
variable {got : List α}

/- A failed read ends the loop. -/
theorem readFull_of_none
    (hRead : read k pieces = none) :
    readFull k pieces = none := by
  unfold readFull
  split
  · rfl
  · rename_i hSome
    rw [hRead] at hSome
    cases hSome

/- A short read is followed by a read of the rest. -/
theorem readFull_of_some
    (hRead : read k pieces = some (got, left)) :
    readFull k pieces =
      if got.length < k then
        (readFull (k - got.length) left).map
          fun (more, left) => (got ++ more, left)
      else some (got, left) := by
  conv_lhs => unfold readFull
  split
  · rename_i hNone
    rw [hRead] at hNone
    cases hNone
  · rename_i hSome
    rw [hRead] at hSome
    cases hSome
    split
    · rfl
    · rfl

/-
  What is read is the beginning of the stream, in order, and
  as long as asked for, however the stream is cut.
-/
theorem readFull_eq_some
    (hRead : readFull k pieces = some (got, left)) :
    got ++ left.flatten = pieces.flatten ∧
      got.length = k := by
  induction k, pieces using readFull.induct
    generalizing got left with
  | case1 k pieces hNone =>
      rw [readFull_of_none hNone] at hRead
      cases hRead
  | case2 k pieces first rest hFirst hLt ih =>
      rw [readFull_of_some hFirst, if_pos hLt] at hRead
      rcases Option.map_eq_some_iff.mp hRead with
        ⟨⟨more, _⟩, hMore, hEq⟩
      cases hEq
      rcases ih hMore with ⟨hFlat, hLength⟩
      refine ⟨?_, ?_⟩
      · rw [List.append_assoc, hFlat]
        exact (read_eq_some hFirst).1
      · rw [List.length_append, hLength]
        omega
  | case3 k pieces first rest hFirst hFull =>
      rw [readFull_of_some hFirst, if_neg hFull] at hRead
      cases hRead
      rcases read_eq_some hFirst with ⟨hFlat, hLe, _⟩
      exact ⟨hFlat, by omega⟩

/- A full read succeeds where the stream is long enough. -/
theorem readFull_isSome
    (hLong : k ≤ pieces.flatten.length) :
    (readFull k pieces).isSome := by
  induction k, pieces using readFull.induct with
  | case1 k pieces hNone =>
      rcases read_eq_none hNone with ⟨hPos, rfl⟩
      exact absurd (Nat.le_zero.mp hLong) hPos
  | case2 k pieces first rest hFirst hLt ih =>
      rw [readFull_of_some hFirst, if_pos hLt,
        Option.isSome_map]
      refine ih ?_
      have hFlat :=
        congrArg List.length (read_eq_some hFirst).1
      rw [List.length_append] at hFlat
      omega
  | case3 k pieces first rest hFirst hFull =>
      rw [readFull_of_some hFirst, if_neg hFull]
      rfl

/- A full read gives the first part of the stream. -/
theorem readFull_append
    {rest : List α}
    (hFlat : pieces.flatten = got ++ rest) :
    ∃ left, readFull got.length pieces = some (got, left) ∧
      left.flatten = rest := by
  have hSome :
      (readFull got.length pieces).isSome := by
    apply readFull_isSome
    rw [hFlat, List.length_append]
    omega
  rcases Option.isSome_iff_exists.mp hSome with
    ⟨⟨first, left⟩, hRead⟩
  rcases readFull_eq_some hRead with ⟨hParts, hLength⟩
  rw [hFlat] at hParts
  rcases List.append_inj hParts hLength with ⟨rfl, rfl⟩
  exact ⟨left, hRead, rfl⟩

end ReadFull

end ByteStream

end Protocol
