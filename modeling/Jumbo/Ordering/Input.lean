import Mathlib.Data.List.FinRange
import Jumbo.Struct

/-
  The inputs of the agreement and the checks made on them.

  An input names a height for every broadcast instance; the
  entry of instance `j` of leader `i` stands at position
  `j * n + i`. What is read out of range or through a nil
  pointer is a fault, and so is a panic of the signature
  package.

  Main declarations:
    * `HighProof` and `QCaggProof`
    * `Input`
    * `checkEntry` and `checkInputs`
    * `checkInputsQCagg`
    * `checkInputRBC`
    * `checkInput`
    * `generateInput`
-/

------------------------------------------------------------
-- Vectors
------------------------------------------------------------

namespace Jumbo

namespace Ordering

open Crypto (Bytes)
open Struct

/- Which broadcast the blocks come from. -/
inductive BroadcastType where
| rbc
| wrbc
| cbc
| cbcQCagg
deriving DecidableEq, Repr

/- A block's header with its certificate. -/
structure HighProof where
  rawBC : Option RawBC
  sign : Option Signature
  batchSigns : Option BatchSignature

/- Headers of all leaders under one aggregate. -/
structure QCaggProof where
  aggQC : Bytes
  messageHash : List Bytes
  heights : List Int32
  mems : List Bytes

/- What the bytes of an input stand for. -/
def Input : BroadcastType → Type
| .rbc | .wrbc => List Int32
| .cbc => List HighProof
| .cbcQCagg => QCaggProof

/- What the code panics with. -/
inductive Fault where
| index
| nilPointer
| signature
deriving DecidableEq, Repr

/- The signatures and the hash. -/
structure Config (n : Nat) where
  prim : Crypto.Primitives n
  type : Crypto.SignatureType
  -- SHA-256 of a marshalled `RawBC`
  hash : RawBC → Bytes

/- The blocks held for every leader and instance. -/
abbrev Table (n K : Nat) :=
  Fin n → Fin K → List BCBlock

section Positions

variable {n K : Nat} {α : Type*}

/- All entries, in the order of their positions. -/
def flat (f : Fin n → Fin K → α) : List α :=
  (List.finRange K).flatMap fun j =>
    (List.finRange n).map fun i => f i j

/- The place of a leader and its instance in a vector. -/
def position (i : Fin n) (j : Fin K) : Nat :=
  j.val * n + i.val

end Positions

end Ordering

end Jumbo

------------------------------------------------------------
-- High Proofs
------------------------------------------------------------

namespace Jumbo

namespace Ordering

open Crypto (Bytes)
open Struct

variable {n K : Nat}

/- What a certificate for a block is about. -/
def signbyte (cfg : Config n) (rawBC : RawBC) : Bytes :=
  Struct.signbyte (cfg.hash rawBC) rawBC.height rawBC.leader
    rawBC.k

/-
  The comparison with the blocks held. `target` counts from
  the first block held, and only the signatures are compared.
-/
def checkTable
    (blocks : List BCBlock) (hp : HighProof) (rawBC : RawBC) :
    Except Fault Bool :=
  match blocks with
  | [] => .error .index
  | first :: _ =>
      let target := rawBC.height - first.rawBC.height
      if 0 ≤ target then
        match hp.batchSigns, blocks[target.toInt.toNat]? with
        | none, _ => .error .nilPointer
        | some _, none => .error .index
        | some batch, some block =>
            match block.batchSigns with
            | none => .error .nilPointer
            | some held => .ok (batch.signs = held.signs)
      else .ok true

/- The certificate of the entry itself. -/
def checkCertificate
    (cfg : Config n) (hp : HighProof) (rawBC : RawBC) :
    Except Fault Bool :=
  match hp.batchSigns with
  | none => .error .nilPointer
  | some batch =>
      match Crypto.batchSignatureVerify cfg.prim cfg.type
          batch.signs (signbyte cfg rawBC) batch.mems with
      | none => .error .signature
      | some res => .ok res

/-
  One entry against the one committed last: `none` when it
  is refused, otherwise whether it counts as higher.
-/
def checkEntry
    (cfg : Config n) (table : Table n K) (hp old : HighProof) :
    Except Fault (Option Bool) :=
  match hp.rawBC, old.rawBC with
  | some rawBC, some oldBC =>
      let diff := rawBC.height - oldBC.height
      if 0 < diff then
        match Crypto.key n rawBC.leader,
            Crypto.key K rawBC.k with
        | some i, some j =>
            let blocks := table i j
            (if diff.toInt < blocks.length then
                checkTable blocks hp rawBC
              else checkCertificate cfg hp rawBC).map
              fun res => if res then some true else none
        | _, _ => .error .index
      else if rawBC.height < oldBC.height then .ok none
      else .ok (some false)
  | _, _ => .error .nilPointer

/- The loop over the entries, with the count so far. -/
def checkEntries
    (cfg : Config n) (table : Table n K) :
    List (HighProof × HighProof) → Nat →
      Except Fault (Option Nat)
| [], count => .ok (some count)
| (hp, old) :: entries, count =>
    match checkEntry cfg table hp old with
    | .error fault => .error fault
    | .ok none => .ok none
    | .ok (some higher) =>
        checkEntries cfg table entries
          (if higher then count + 1 else count)

/- `check_inputs`; before the first commit `old` is empty. -/
def checkInputs
    (cfg : Config n) (num : Nat) (table : Table n K)
    (old : Option (List HighProof)) (new : List HighProof) :
    Except Fault Bool :=
  match old with
  | none => .ok true
  | some old =>
      if old.length ≠ num ∨ new.length ≠ num then .ok false
      else
        match checkEntries cfg table (new.zip old) 0 with
        | .error fault => .error fault
        | .ok none => .ok false
        | .ok (some count) => .ok (num * 2 / 3 < count)

end Ordering

end Jumbo

------------------------------------------------------------
-- Aggregated Proofs
------------------------------------------------------------

namespace Jumbo

namespace Ordering

open Crypto (Bytes)
open Struct

variable {n : Nat}

/- One bit for each member; a member out of range panics. -/
def int32s2bytes (ids : List Int32) (max : Nat) :
    Option Bytes :=
  if ids.all fun id => 1 ≤ id.toInt ∧ id.toInt ≤ max then
    some
      ((List.range ((max + 7) / 8)).map fun i : Nat =>
        (List.range 8).foldl
          (fun (b : UInt8) (j : Nat) =>
            if ids.any fun id => id.toInt = i * 8 + j + 1 then
              b ||| (1 <<< UInt8.ofNat j)
            else b)
          0)
  else none

/- The members whose bits are set, in increasing order. -/
def bytes2int32s (aggids : Bytes) (max : Nat) : List Int32 :=
  aggids.zipIdx.flatMap fun (b, i) =>
    (List.range 8).filterMap fun j =>
      if i * 8 + j < max ∧ b >>> UInt8.ofNat j &&& 1 = 1 then
        some (Int32.ofNat (i * 8 + j + 1))
      else none

/- The heights against the ones committed last. -/
def countHigher (new old : List Int32) :
    List Nat → Nat → Except Fault (Option Nat)
| [], count => .ok (some count)
| i :: is, count =>
    match new[i]?, old[i]? with
    | some height, some oldHeight =>
        if oldHeight < height then
          countHigher new old is (count + 1)
        else if height < oldHeight then .ok none
        else countHigher new old is count
    | _, _ => .error .index

/- What has been signed for the entries with a block. -/
def collect (proof : QCaggProof) (num : Nat) :
    List Nat → Except Fault (List (Bytes × List Int32))
| [] => .ok []
| i :: is =>
    match proof.heights[i]? with
    | none => .error .index
    | some height =>
        if 0 ≤ height then
          match proof.messageHash[i]?, proof.mems[i]? with
          | some hash, some mems =>
              (collect proof num is).map
                ((Struct.signbyte hash height
                    (Int32.ofNat (i + 1)) 1,
                  bytes2int32s mems num) :: ·)
          | _, _ => .error .index
        else collect proof num is

/- `check_inputs_QCagg`. -/
def checkInputsQCagg
    (cfg : Config n) (num : Nat) (old : Option QCaggProof)
    (new : QCaggProof) : Except Fault Bool :=
  match old with
  | none => .ok true
  | some old =>
      match countHigher new.heights old.heights
          (List.range num) 0 with
      | .error fault => .error fault
      | .ok none => .ok false
      | .ok (some count) =>
          if count ≤ num * 2 / 3 then .ok false
          else
            match collect new num (List.range num) with
            | .error fault => .error fault
            | .ok entries =>
                match Crypto.qcAggregateVerify cfg.prim
                    cfg.type new.aggQC (entries.map Prod.fst)
                    (entries.map Prod.snd) with
                | none => .error .signature
                | some res => .ok res

end Ordering

end Jumbo

------------------------------------------------------------
-- Heights Only
------------------------------------------------------------

namespace Jumbo

namespace Ordering

open Crypto (Bytes)
open Struct

variable {n K : Nat}

/- Leaders first, then their instances. -/
def slots (n K : Nat) : List (Fin n × Fin K) :=
  (List.finRange n).flatMap fun i =>
    (List.finRange K).map fun j => (i, j)

/- A round of the loop: is every height named reached? -/
def reached
    (heights : List Int32)
    (heightsnow : Fin n → Fin K → Int32) :
    List (Fin n × Fin K) → Except Fault Bool
| [] => .ok true
| (i, j) :: rest =>
    match heights[position i j]? with
    | none => .error .index
    | some height =>
        if heightsnow i j < height then .ok false
        else reached heights heightsnow rest

/-
  `check_input_RBC` at a moment when it looks at the heights.
  As long as they are not reached it waits and looks again.
-/
def checkInputRBC
    (heights : List Int32)
    (heightsnow : Fin n → Fin K → Int32) :
    Except Fault Bool :=
  reached heights heightsnow (slots n K)

end Ordering

end Jumbo

------------------------------------------------------------
-- New Inputs
------------------------------------------------------------

namespace Jumbo

namespace Ordering

open Crypto (Bytes)
open Struct

variable {n K : Nat}

/- Entries not below and entries above the last commit. -/
def checkSlots
    (a : Fin n → Fin K → Int32) (b : Fin n → Fin K → Int) :
    List (Fin n × Fin K) → Nat → Option Nat
| [], count => some count
| (i, j) :: rest, count =>
    if (a i j).toInt < b i j then none
    else
      checkSlots a b rest
        (if b i j < (a i j).toInt then count + 1 else count)

/- `check_input`. -/
def checkInput
    (a : Fin n → Fin K → Int32)
    (b : Fin n → Fin K → Int) : Bool :=
  (checkSlots a b (slots n K) 0).any fun count =>
    n * 2 / 3 < count

/- The header and the certificate of a block. -/
def highProof (block : BCBlock) : HighProof where
  rawBC := some block.rawBC
  sign := block.sign
  batchSigns := block.batchSigns

/- The first instance of every leader that has a block. -/
def firsts [NeZero K] (heights : Fin n → Fin K → BCBlock) :
    List BCBlock :=
  (List.finRange n).map fun i => heights i 0

/- `generate_input_QCagg`. -/
def generateInputQCagg [NeZero K]
    (cfg : Config n) (heights : Fin n → Fin K → BCBlock) :
    Option QCaggProof := do
  let blks := firsts heights
  let present :=
    blks.filter fun block => 0 ≤ block.rawBC.height
  let batches ← present.mapM (·.batchSigns)
  let aggQC ←
    Crypto.qcAggregate cfg.prim cfg.type
      (batches.map (·.signs)) (batches.map (·.mems))
  let mems ←
    blks.mapM fun block =>
      if 0 ≤ block.rawBC.height then
        block.batchSigns.bind fun batch =>
          int32s2bytes batch.mems n
      else some []
  pure
    { aggQC := aggQC
      messageHash :=
        blks.map fun block =>
          if 0 ≤ block.rawBC.height then cfg.hash block.rawBC
          else []
      heights :=
        blks.map fun block =>
          if 0 ≤ block.rawBC.height then block.rawBC.height
          else -1
      mems := mems }

/- `generate_input`, at a party that follows the code. -/
def generateInput [NeZero K]
    (cfg : Config n) (heights : Fin n → Fin K → BCBlock) :
    (type : BroadcastType) → Option (Input type)
| .rbc | .wrbc =>
    some (flat fun i j => (heights i j).rawBC.height)
| .cbc => some (flat fun i j => highProof (heights i j))
| .cbcQCagg => generateInputQCagg cfg heights

end Ordering

end Jumbo
