import Jumbo.Ordering.Bitmaps
import Jumbo.SignatureFreeMVBA.Basic

/-
  One round of the common subset of FIN: `n` broadcasts of
  blocks, a signature-free MVBA on the bitmap of those that
  have been delivered, and the wait for the ones decided.

  The broadcasts of blocks deliver in any order and to some
  parties only, and the binary agreements give any output;
  the broadcasts with finish of the bitmaps are the systems
  of their own package, with Byzantine parties in them. They
  are the same code as the ones of the ordering, except that
  the validator reads bitmaps.

  Main declarations:
    * `byteArrayToBoolArray`
    * `boolArrayToByteArray`
    * `checkInputRbc`
    * `State`
    * `Action`
    * `exec`
    * `machine`
-/

------------------------------------------------------------
-- Bitmaps
------------------------------------------------------------

namespace Jumbo

namespace CommonSubset

open Protocol
open ReliableBroadcast (Bytes)

/- Entry `index` is bit `index % 8` of byte `index / 8`. -/
def byteArrayToBoolArray
    (arr : Bytes) (size : Nat) : List Bool :=
  (List.range size).map fun index =>
    match arr[index / 8]? with
    | some b =>
        decide (b >>> UInt8.ofNat (index % 8) &&& 1 = 1)
    | none => false

/- Eight booleans in a byte, the first in the lowest bit. -/
def boolArrayToByteArray (arr : List Bool) : Bytes :=
  (List.range ((arr.length + 7) / 8)).map fun byteIndex =>
    (List.range 8).foldl
      (fun (b : UInt8) (bitIndex : Nat) =>
        if arr.getD (byteIndex * 8 + bitIndex) false then
          b ||| (1 <<< UInt8.ofNat bitIndex)
        else b)
      0

/- One turn of the loop of `check_input_rbc`. -/
def checkInputRbc (input : Bytes) (mine : List Bool) : Bool :=
  ((byteArrayToBoolArray input mine.length).zip mine).all
    fun (b, m) => !b || m

/-
  One turn of the loop of `wait_rbc_done`, which repeats the
  one of `check_input_rbc`.
-/
def waitRbcDone (input : Bytes) (mine : List Bool) : Bool :=
  checkInputRbc input mine

/- The entries of a bitmap as heights 0 and 1. -/
def heights (bits : List Bool) : List Int :=
  bits.map fun b => if b then 1 else 0

/- What has been delivered, as heights of one row each. -/
def rows (mine : List Bool) : List (List Int) :=
  mine.map fun b => [if b then 1 else 0]

/-
  The check compares the rows that are wanted with those
  that are there.
-/
theorem checkRows_rows
    (pre wanted mine : List Bool) (num : Nat)
    (hLength : wanted.length = mine.length) :
    ReliableBroadcast.checkRows (heights (pre ++ wanted)) num
        pre.length (rows mine) =
      some ((wanted.zip mine).all fun (b, m) => !b || m) := by
  induction mine generalizing pre wanted with
  | nil => simp [rows, ReliableBroadcast.checkRows]
  | cons m mine ih =>
      cases wanted with
      | nil => cases hLength
      | cons b wanted =>
          have hTail :=
            ih (pre ++ [b]) wanted (Nat.succ.inj hLength)
          have hAt :
              (heights (pre ++ b :: wanted))[0 * num +
                  pre.length]? =
                some (if b then 1 else 0) := by
            simp [heights]
          simp only [List.append_assoc, List.singleton_append,
            List.length_append, List.length_singleton]
            at hTail
          simp only [rows, List.map_cons,
            ReliableBroadcast.checkRows,
            ReliableBroadcast.checkRow, hAt,
            List.zip_cons_cons, List.all_cons]
          simp only [rows] at hTail
          cases b <;> cases m <;> simp [hTail]

/-
  The validator on bitmaps is the one on heights, where a bit
  set is height 1.
-/
theorem checkInputRBC_rows
    (input : Bytes) (mine : List Bool) :
    ReliableBroadcast.checkInputRBC
        (fun root =>
          some (heights
            (byteArrayToBoolArray root mine.length)))
        input (rows mine) =
      some (checkInputRbc input mine) := by
  have hLength :
      (byteArrayToBoolArray input mine.length).length =
        mine.length := by
    simp [byteArrayToBoolArray]
  exact checkRows_rows [] _ mine _ hLength

/- The loop of the decoder fills in entry by entry. -/
theorem unpack_eq_byteArrayToBoolArray
    (arr : Bytes) (size : Nat) :
    Bitmap.unpack arr size = byteArrayToBoolArray arr size := by
  rw [Bitmap.unpack_eq]
  unfold byteArrayToBoolArray
  apply List.map_congr_left
  intro index _
  unfold Bitmap.bitAt
  cases arr[index / 8]? with
  | none => rfl
  | some b => rfl

/- The loop of the encoder sets one bit after the other. -/
theorem pack_eq_boolArrayToByteArray (arr : List Bool) :
    Bitmap.pack arr = boolArrayToByteArray arr :=
  Bitmap.pack_eq arr

/- A bitmap is read as it has been written. -/
theorem byteArrayToBoolArray_boolArrayToByteArray
    (arr : List Bool) :
    byteArrayToBoolArray (boolArrayToByteArray arr)
        arr.length =
      arr := by
  rw [← unpack_eq_byteArrayToBoolArray,
    ← pack_eq_boolArrayToByteArray]
  exact Bitmap.unpack_pack arr

end CommonSubset

end Jumbo

------------------------------------------------------------
-- States
------------------------------------------------------------

namespace Jumbo

namespace CommonSubset

open ReliableBroadcast (Bytes)

/-
  The parameters of a round. `mvbainput` is what each party
  will have proposed, which its launch compares.
-/
structure Config (n : Nat) where
  pos : 0 < n
  round : Nat
  mvbainput : Fin n → Bytes
  sha256 : List UInt8 → List UInt8

variable {n : Nat}

namespace Config

/- The agreement with a bitmap as the input. -/
def mvba (cfg : Config n) : SignatureFreeMVBA.Config n where
  pos := cfg.pos
  roundmvba := cfg.round
  input := cfg.mvbainput
  byzfairness := 0
  sha256 := cfg.sha256
  unmarshal := fun root =>
    some (heights (byteArrayToBoolArray root n))

/- The broadcast of the bitmap of one party. -/
def rbc (cfg : Config n) (lid : Fin n) :
    ReliableBroadcast.Config n :=
  cfg.mvba.rbc lid

end Config

/-
  The outputs of the broadcasts of blocks, the broadcasts of
  bitmaps, and the parties.
-/
structure State (n : Nat) where
  ctrbcoutputs : Fin n → Fin n → Bool
  ctrbcdonecount : Fin n → Nat
  rbc : Fin n → ReliableBroadcast.State n
  party : Fin n → SignatureFreeMVBA.Party n
  -- wait_rbc_done has returned
  done : Fin n → Bool

namespace State

/- Nothing has been delivered. -/
def init : State n where
  ctrbcoutputs := fun _ _ => false
  ctrbcdonecount := fun _ => 0
  rbc := fun _ => ReliableBroadcast.State.init
  party := fun _ => SignatureFreeMVBA.Party.new n
  done := fun _ => false

/- The slice `ctrbcoutputs` of `p`. -/
def mine (s : State n) (p : Fin n) : List Bool :=
  List.ofFn (s.ctrbcoutputs p)

/- What one party has changed. -/
def setParty
    (s : State n) (p : Fin n)
    (party : SignatureFreeMVBA.Party n) : State n :=
  { s with party := Function.update s.party p party }

/- What one broadcast has changed. -/
def setRbc
    (s : State n) (lid : Fin n)
    (rbc : ReliableBroadcast.State n) : State n :=
  { s with rbc := Function.update s.rbc lid rbc }

/- The broadcast of the block of `i` gives its output. -/
def delivered (s : State n) (p i : Fin n) : State n :=
  { s with
    ctrbcdonecount :=
      Function.update s.ctrbcdonecount p
        (s.ctrbcdonecount p + 1)
    ctrbcoutputs :=
      Function.update s.ctrbcoutputs p
        (Function.update (s.ctrbcoutputs p) i true) }

/- The broadcasts with finish of `p` see its slice. -/
def share (s : State n) (p : Fin n) : State n :=
  { s with
    rbc := fun lid =>
      { s.rbc lid with
        heightsnow :=
          Function.update (s.rbc lid).heightsnow p
            (rows (s.mine p)) } }

/- `close(mvba.closeval)`. -/
def closeval (s : State n) (p : Fin n) : State n :=
  { s with
    rbc := fun lid =>
      { s.rbc lid with
        closeval :=
          Function.update (s.rbc lid).closeval p true } }

/- A correct process with a MVBA and without a panic. -/
def running
    (byz : Finset (Fin n)) (s : State n) (p : Fin n) : Bool :=
  decide (p ∉ byz) && decide ((s.party p).main ≠ .idle) &&
    (List.finRange n).all fun lid => !(s.rbc lid).panicked p

end State

end CommonSubset

end Jumbo

------------------------------------------------------------
-- Steps
------------------------------------------------------------

namespace Jumbo

namespace CommonSubset

open Protocol

/- What can happen next. -/
inductive Action (n : Nat) where
| deliver (p i : Fin n)
| launch (p : Fin n)
| forge (lid : Fin n) (packet : ReliableBroadcast.Packet n)
| rbc (lid : Fin n) (a : ReliableBroadcast.Action n)
| take1 (p lid : Fin n)
| take2 (p lid : Fin n)
| coinready (p : Fin n)
| elect (p : Fin n)
| second (p : Fin n) (roundba : Nat)
| agree (p : Fin n) (output : Bool)
| await (p : Fin n)
| waitRbcDone (p : Fin n)

variable {n : Nat}

/-
  A block is delivered, or a party, a broadcast or the
  adversary steps.
-/
def exec
    (cfg : Config n) (byz : Finset (Fin n)) (s : State n) :
    Action n → Option (State n)
| .deliver p i =>
    -- a broadcast of a block gives one output
    if s.ctrbcoutputs p i then none
    else some ((s.delivered p i).share p)
| .launch p =>
    if p ∉ byz ∧ (s.party p).main = .idle ∧
        (n - 1) / 3 * 2 + 1 ≤ s.ctrbcdonecount p ∧
          cfg.mvbainput p = boolArrayToByteArray (s.mine p)
    then
      some
        ((s.setParty p
          { s.party p with main := .finish }).share p)
    else none
| .forge lid packet =>
    (ReliableBroadcast.exec (cfg.rbc lid) byz (s.rbc lid)
      (.forge packet)).map (s.setRbc lid)
| .rbc lid a =>
    match SignatureFreeMVBA.rbcParty lid a with
    | some p =>
        if s.running byz p then
          (ReliableBroadcast.exec (cfg.rbc lid) byz
            (s.rbc lid) a).map (s.setRbc lid)
        else none
    | none => none
| .take1 p lid =>
    if s.running byz p then
      ((s.party p).take1 lid
        (SignatureFreeMVBA.rbcout1 lid (s.rbc lid) p)).map
        (s.setParty p)
    else none
| .take2 p lid =>
    if s.running byz p then
      ((s.party p).take2 lid
        (SignatureFreeMVBA.rbcout2 lid (s.rbc lid) p)).map
        (s.setParty p)
    else none
| .coinready p =>
    if s.running byz p ∧ (s.party p).main = .finish ∧
        0 < (s.party p).coinready then
      some
        ((s.setParty p
          { s.party p with
            coinready := (s.party p).coinready - 1
            main := .elect }).closeval p)
    else none
| .elect p =>
    if s.running byz p ∧ (s.party p).main = .elect then
      some (s.setParty p ((s.party p).elect cfg.mvba))
    else none
| .second p roundba =>
    if s.running byz p then
      ((s.party p).second cfg.mvba roundba).map (s.setParty p)
    else none
| .agree p output =>
    if s.running byz p ∧ (s.party p).main = .agree then
      some
        (s.setParty p ((s.party p).agree cfg.mvba output))
    else none
| .await p =>
    if s.running byz p ∧ (s.party p).main = .wait then
      ((s.party p).await cfg.mvba).map (s.setParty p)
    else none
| .waitRbcDone p =>
    match (s.party p).output with
    | some output =>
        if s.running byz p ∧
            waitRbcDone output (s.mine p) = true then
          some { s with done := Function.update s.done p true }
        else none
    | none => none

/- The agreement on a subset as a machine. -/
def machine
    (n : Nat) (cfg : Config n) (byz : Finset (Fin n)) :
    Machine (State n) (Action n) where
  init := State.init
  exec := exec cfg byz

end CommonSubset

end Jumbo
