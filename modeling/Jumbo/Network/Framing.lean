import Jumbo.Lib.ByteStream
import Jumbo.Crypto.Signature

/-
  Messages on a connection.

  A message is written as its length in four bytes and its
  bytes. The reader takes a length, then reads into the rest
  of a buffer of this length until it is full. A write that
  fails may have written a part.

  Main declarations:
    * `directSend`
    * `readBody` and `handleCon`
    * `handleCon_frame`
    * `handleCon_sent`
-/

------------------------------------------------------------
-- Writing
------------------------------------------------------------

namespace Jumbo

namespace Network

open Crypto (Bytes)

/- `Write` writes everything, or a part and has an error. -/
inductive WriteResult where
| ok
| failed (written : Nat)
deriving DecidableEq, Repr

/- What is written, and whether there is an error. -/
def write (bytes : Bytes) : WriteResult → Bytes × Bool
| .ok => (bytes, false)
| .failed written => (bytes.take written, true)

/- `PutUint32` of a number, highest byte first. -/
def putUint32 (k : Nat) : Bytes :=
  [UInt8.ofNat (k / 2 ^ 24), UInt8.ofNat (k / 2 ^ 16),
    UInt8.ofNat (k / 2 ^ 8), UInt8.ofNat k]

/-
  `Direct_Send`, with the error it returns. When the second
  write fails, it returns the error of the first.
-/
def directSend
    (msg : Bytes) (first second : WriteResult) :
    Bytes × Bool :=
  let (buf, err2) := write (putUint32 (msg.length % 2 ^ 32)) first
  if err2 then (buf, err2)
  else
    let (m, err) := write msg second
    if err then (buf ++ m, err2) else (buf ++ m, false)

end Network

end Jumbo

------------------------------------------------------------
-- Reading
------------------------------------------------------------

namespace Jumbo

namespace Network

open Crypto (Bytes)
open Protocol.ByteStream

/- `binary.Read` of a signed number of 32 bits. -/
def int32 (bytes : Bytes) : Int :=
  let value : Nat :=
    bytes.foldl (fun acc b => acc * 256 + b.toNat) 0
  if value < 2 ^ 31 then value else value - 2 ^ 32

/- What ends `Handle_con`. -/
inductive Ending where
| sizeError
| bodyError
-- a buffer of negative length
| panicked
deriving DecidableEq, Repr

/- Reads into what is left of a buffer, until it is full. -/
def readBody
    (size tmpsize : Nat) (buf : Bytes) (con : List Bytes) :
    Option (Bytes × List Bytes) :=
  match _ : read tmpsize con with
  | none => none
  | some (tmpbuf, left) =>
      let buf := buf.take (size - tmpsize) ++ tmpbuf
      if _ : tmpbuf.length < tmpsize then
        readBody size (tmpsize - tmpbuf.length) buf left
      else some (buf, left)
termination_by con.length
decreasing_by exact (read_eq_some ‹_›).2.2 ‹_›

section ReadBody

variable {size tmpsize : Nat} {buf tmpbuf msg : Bytes}
variable {con left : List Bytes}

/- A failed read ends the loop. -/
theorem readBody_of_none
    (hRead : read tmpsize con = none) :
    readBody size tmpsize buf con = none := by
  unfold readBody
  split
  · rfl
  · rename_i hSome
    rw [hRead] at hSome
    cases hSome

/- A short read goes on behind what it has got. -/
theorem readBody_of_some
    (hRead : read tmpsize con = some (tmpbuf, left)) :
    readBody size tmpsize buf con =
      if tmpbuf.length < tmpsize then
        readBody size (tmpsize - tmpbuf.length)
          (buf.take (size - tmpsize) ++ tmpbuf) left
      else
        some (buf.take (size - tmpsize) ++ tmpbuf, left) := by
  conv_lhs => unfold readBody
  split
  · rename_i hNone
    rw [hRead] at hNone
    cases hNone
  · rename_i hSome
    rw [hRead] at hSome
    cases hSome
    split
    · rfl
    · rfl

/- What has been read stays in front of what is read next. -/
theorem readBody_eq
    (hSize : tmpsize ≤ size)
    (hBuf : size - tmpsize ≤ buf.length) :
    readBody size tmpsize buf con =
      (readFull tmpsize con).map fun (more, left) =>
        (buf.take (size - tmpsize) ++ more, left) := by
  induction tmpsize, buf, con using readBody.induct size with
  | case1 tmpsize buf con hNone =>
      rw [readBody_of_none hNone, readFull_of_none hNone]
      rfl
  | case2 tmpsize buf con tmpbuf left hFirst buf' hLt ih =>
      have hLength :
          buf'.length = size - tmpsize + tmpbuf.length := by
        rw [List.length_append, List.length_take,
          Nat.min_eq_left hBuf]
      have hTake :
          buf'.take (size - (tmpsize - tmpbuf.length)) =
            buf' :=
        List.take_of_length_le (by omega)
      rw [readBody_of_some hFirst, readFull_of_some hFirst,
        if_pos hLt, if_pos hLt, ih (by omega) (by omega), hTake,
        Option.map_map]
      congr 1
      funext ⟨more, left⟩
      exact congrArg (·, left) (List.append_assoc _ tmpbuf more)
  | case3 tmpsize buf con tmpbuf left hFirst hFull =>
      rw [readBody_of_some hFirst, readFull_of_some hFirst,
        if_neg hFull, if_neg hFull]
      rfl

/- A body is what a full read gives. -/
theorem readBody_start :
    readBody size size (List.replicate size 0) con =
      readFull size con := by
  rw [readBody_eq (Nat.le_refl size) (by omega), Nat.sub_self]
  cases readFull size con with
  | none => rfl
  | some got => rfl

end ReadBody

/- `Handle_con`, with the messages it hands up. -/
def handleCon (con : List Bytes) : List Bytes × Ending :=
  match _ : readFull 4 con with
  | none => ([], .sizeError)
  | some (header, left) =>
      let size := int32 header
      if size < 0 then ([], .panicked)
      else
        match _ :
          readBody size.toNat size.toNat
            (List.replicate size.toNat 0) left with
        | none => ([], .bodyError)
        | some (msg, left') =>
            let (msgs, ending) := handleCon left'
            (msg :: msgs, ending)
termination_by con.flatten.length
decreasing_by
  rename_i hHeader _ hBody
  rw [readBody_start] at hBody
  have hFirst := congrArg List.length (readFull_eq_some hHeader).1
  have hSecond := congrArg List.length (readFull_eq_some hBody).1
  rw [List.length_append] at hFirst hSecond
  have hFour := (readFull_eq_some hHeader).2
  omega

end Network

end Jumbo

------------------------------------------------------------
-- The Round Trip
------------------------------------------------------------

namespace Jumbo

namespace Network

open Crypto (Bytes)
open Protocol.ByteStream

/- The length is read as it was written. -/
theorem int32_putUint32
    {k : Nat} (hShort : k < 2 ^ 31) :
    int32 (putUint32 (k % 2 ^ 32)) = k := by
  have hValue :
      (putUint32 (k % 2 ^ 32)).foldl
          (fun acc b => acc * 256 + b.toNat) 0 = k := by
    simp only [putUint32, List.foldl_cons, List.foldl_nil,
      UInt8.toNat_ofNat']
    omega
  unfold int32
  rw [hValue]
  dsimp only
  rw [if_pos hShort]

section RoundTrip

variable {con left : List Bytes} {header msg : Bytes}

/- Without a whole header the reader stops. -/
theorem handleCon_of_none
    (hHeader : readFull 4 con = none) :
    handleCon con = ([], .sizeError) := by
  unfold handleCon
  split
  · rfl
  · rename_i hSome
    rw [hHeader] at hSome
    cases hSome

/- With a header the body is read and put out. -/
theorem handleCon_of_some
    (hHeader : readFull 4 con = some (header, left))
    (hSize : 0 ≤ int32 header) :
    handleCon con =
      match readFull (int32 header).toNat left with
      | none => ([], .bodyError)
      | some (msg, left') =>
          (msg :: (handleCon left').1, (handleCon left').2) := by
  conv_lhs => unfold handleCon
  split
  · rename_i hNone
    rw [hHeader] at hNone
    cases hNone
  · rename_i hSome
    rw [hHeader] at hSome
    cases hSome
    dsimp only
    rw [if_neg (by omega), ← readBody_start]
    split
    · rename_i hBody
      rw [hBody]
    · rename_i hBody
      rw [hBody]

/- A message that has been written is handed up. -/
theorem handleCon_frame
    {rest : Bytes} (hShort : msg.length < 2 ^ 31)
    (hCon :
      con.flatten = (directSend msg .ok .ok).1 ++ rest) :
    ∃ left, left.flatten = rest ∧
      handleCon con =
        (msg :: (handleCon left).1, (handleCon left).2) := by
  have hFrame :
      con.flatten =
        putUint32 (msg.length % 2 ^ 32) ++ (msg ++ rest) := by
    rw [hCon, ← List.append_assoc]
    rfl
  rcases readFull_append hFrame with
    ⟨body, hHeader, hBody⟩
  rcases readFull_append hBody with ⟨left, hMsg, hLeft⟩
  have hSize := int32_putUint32 hShort
  refine ⟨left, hLeft, ?_⟩
  rw [handleCon_of_some hHeader (by omega), hSize,
    Int.toNat_natCast, hMsg]

/-
  Whatever the pieces that the reads see, the messages written
  without an error are handed up, in order and nothing else.
-/
theorem handleCon_sent
    {msgs con : List Bytes}
    (hShort : ∀ msg ∈ msgs, msg.length < 2 ^ 31)
    (hCon :
      con.flatten =
        msgs.flatMap fun msg => (directSend msg .ok .ok).1) :
    handleCon con = (msgs, .sizeError) := by
  induction msgs generalizing con with
  | nil =>
      apply handleCon_of_none
      cases hHeader : readFull 4 con with
      | none => rfl
      | some got =>
          rcases readFull_eq_some hHeader with
            ⟨hFlat, hLength⟩
          rw [hCon] at hFlat
          rw [(List.append_eq_nil_iff.mp hFlat).1] at hLength
          cases hLength
  | cons msg msgs ih =>
      rw [List.forall_mem_cons] at hShort
      rw [List.flatMap_cons] at hCon
      rcases handleCon_frame hShort.1 hCon with
        ⟨left, hLeft, hHandled⟩
      rw [hHandled, ih hShort.2 hLeft]

/- Two messages, one of them empty, in pieces of any length. -/
theorem handleCon_sent_pieces :
    handleCon
        [[0, 0], [0], [], [2, 7], [8, 0, 0, 0], [0]] =
      ([[7, 8], []], .sizeError) :=
  handleCon_sent (by decide) (by decide)

end RoundTrip

end Network

end Jumbo
