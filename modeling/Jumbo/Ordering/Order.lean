import Jumbo.Lib.Machine
import Jumbo.Lib.SortedBuffer
import Jumbo.Ordering.Input

/-
  The ordering party: the blocks it holds, what has been
  committed, and the cut that follows every output of the
  agreement.

  Blocks arrive at any time, also while a cut waits for its
  blocks. A step that panics has no result. What only feeds
  the figures printed is left out, but for the count of
  blocks that they are divided by.

  Main declarations:
    * `Order`
    * `Order.update` and `addBcBlock`
    * `Order.rcvOutput`
    * `Order.ready` and `Order.cutBlock`
    * `order`
-/

------------------------------------------------------------
-- Blocks Held
------------------------------------------------------------

namespace Jumbo

namespace Ordering

open Protocol
open Struct

variable {n K : Nat}

/- The height that blocks are ordered by. -/
def height (block : BCBlock) : Int :=
  block.rawBC.height.toInt

/- `add_bcBlock`, for the blocks of one instance. -/
def addBcBlock
    (blocks : List BCBlock) (block : BCBlock) :
    List BCBlock :=
  match blocks with
  | [] => [block]
  | _ :: _ =>
      SortedBuffer.insertLoop height block false [] blocks

/- Change one entry of a table. -/
def set {α : Type*}
    (f : Fin n → Fin K → α) (i : Fin n) (j : Fin K) (x : α) :
    Fin n → Fin K → α :=
  fun i' j' => if i' = i ∧ j' = j then x else f i' j'

/- Adding a block keeps the order. -/
theorem addBcBlock_sorted
    {blocks : List BCBlock} {block : BCBlock}
    (hSorted : SortedBuffer.Sorted height blocks) :
    SortedBuffer.Sorted height (addBcBlock blocks block) := by
  cases blocks with
  | nil => exact List.pairwise_singleton _ _
  | cons first rest =>
      unfold addBcBlock
      dsimp only
      rw [SortedBuffer.insertLoop_eq [] hSorted
        (List.cons_ne_nil _ _), List.nil_append]
      exact SortedBuffer.insertNew_sorted hSorted

end Ordering

end Jumbo

------------------------------------------------------------
-- The Party
------------------------------------------------------------

namespace Jumbo

namespace Ordering

open Protocol
open Struct

/- What a cut takes out when a commit moves. -/
structure Cut where
  old : Int
  new : Int
  blocks : List BCBlock

/-
  `decided` is the last output of the agreement, and
  `cutting` the commit before it while its cut waits.
-/
structure Order (n K : Nat) (type : BroadcastType) where
  heights : Fin n → Fin K → BCBlock
  hs : Fin n → Fin K → Int32
  lastCommit : Fin n → Fin K → Int
  oldBCBlocks : Table n K
  decided : Option (Input type)
  cutting : Option (Fin n → Fin K → Int)
  ledger : Fin n → Fin K → List Cut

variable {n K : Nat} {type : BroadcastType}

namespace Order

/- The block that stands for "none yet". -/
def noBlock : BCBlock where
  rawBC := ⟨[], -1, [], 0, 0, 0, 0⟩
  sign := none
  batchSigns := none

/- Nothing has come and nothing is decided. -/
def new : Order n K type where
  heights := fun _ _ => noBlock
  hs := fun _ _ => -1
  lastCommit := fun _ _ => -1
  oldBCBlocks := fun _ _ => []
  decided := none
  cutting := none
  ledger := fun _ _ => []

/- `update_bcBlocks`. -/
def update
    (od : Order n K type) (block : BCBlock) :
    Option (Order n K type) :=
  match Crypto.key n block.rawBC.leader,
      Crypto.key K block.rawBC.k with
  | some i, some j =>
      let higher :=
        (od.heights i j).rawBC.height < block.rawBC.height
      some { od with
        heights :=
          if higher then set od.heights i j block
          else od.heights
        hs :=
          if higher then set od.hs i j block.rawBC.height
          else od.hs
        oldBCBlocks :=
          set od.oldBCBlocks i j
            (addBcBlock (od.oldBCBlocks i j) block) }
  | _, _ => none

/- The height an output names at a position. -/
def outputHeight :
    (type : BroadcastType) → Input type → Nat → Option Int32
| .rbc, input, m | .wrbc, input, m =>
    let heights : List Int32 := input
    heights[m]?
| .cbc, input, m =>
    let hps : List HighProof := input
    hps[m]?.bind fun hp => hp.rawBC.map (·.height)
| .cbcQCagg, input, m =>
    let proof : QCaggProof := input
    proof.heights[m]?

/- The commit that an output stands for. -/
def newCommit
    (n K : Nat) (output : Input type) :
    Option (Fin n → Fin K → Int) :=
  if (slots n K).all fun (i, j) =>
      (outputHeight type output (position i j)).isSome then
    some fun i j =>
      ((outputHeight type output (position i j)).map
        Int32.toInt).getD 0
  else none

/- `handle_rcvOutputCH` up to the cut. -/
def rcvOutput
    (od : Order n K type) (output : Input type) :
    Option (Order n K type) :=
  match od.cutting with
  | some _ => none
  | none =>
      (newCommit n K output).map fun commit =>
        { od with
          lastCommit := commit
          decided := some output
          cutting := some od.lastCommit }

/- How far the commit has moved. -/
def differ
    (od : Order n K type) (old : Fin n → Fin K → Int)
    (i : Fin n) (j : Fin K) : Int :=
  od.lastCommit i j - old i j

/- Enough blocks are held everywhere; so many are counted. -/
def ready
    (od : Order n K type) (old : Fin n → Fin K → Int) : Bool :=
  (slots n K).all fun (i, j) =>
    od.differ old i j ≤ (od.oldBCBlocks i j).length

/- The blocks counted in a cut. -/
def count
    (od : Order n K type) (old : Fin n → Fin K → Int) : Nat :=
  ((slots n K).map fun (i, j) =>
    (od.differ old i j).toNat).sum

/-
  The extraction: every slice needs a bound that is not
  negative and not beyond the end, and the last line divides
  by the count.
-/
def cutBlock
    (od : Order n K type) (old : Fin n → Fin K → Int) :
    Option (Order n K type) :=
  if (slots n K).all (fun (i, j) =>
        0 ≤ od.differ old i j &&
          od.differ old i j ≤ (od.oldBCBlocks i j).length) &&
      od.count old ≠ 0 then
    some { od with
      oldBCBlocks := fun i j =>
        (od.oldBCBlocks i j).drop (od.differ old i j).toNat
      cutting := none
      ledger := fun i j =>
        od.ledger i j ++
          [{ old := old i j
             new := od.lastCommit i j
             blocks :=
              (od.oldBCBlocks i j).take
                (od.differ old i j).toNat }] }
  else none

end Order

/- A block comes, an output is decided, or a cut is made. -/
inductive OrderAction (type : BroadcastType) where
| arrive (block : BCBlock)
| output (output : Input type)
| cut

/- A step of the ordering. -/
def Order.exec (od : Order n K type) :
    OrderAction type → Option (Order n K type)
| .arrive block => od.update block
| .output output => od.rcvOutput output
| .cut =>
    match od.cutting with
    | none => none
    | some old => if od.ready old then od.cutBlock old else none

/- One party, with blocks and outputs in any order. -/
def order (n K : Nat) (type : BroadcastType) :
    Machine (Order n K type) (OrderAction type) where
  init := Order.new
  exec := Order.exec

section Slots

/- All pairs are slots. -/
theorem mem_slots (i : Fin n) (j : Fin K) :
    (i, j) ∈ slots n K :=
  List.mem_flatMap.mpr
    ⟨i, List.mem_finRange i,
      List.mem_map.mpr ⟨j, List.mem_finRange j, rfl⟩⟩

/- A loop over all slots looks at every slot. -/
theorem all_slots_iff {p : Fin n × Fin K → Bool} :
    (slots n K).all p = true ↔ ∀ i j, p (i, j) = true := by
  rw [List.all_eq_true]
  exact
    ⟨fun h i j => h (i, j) (mem_slots i j),
      fun h p _ => h p.1 p.2⟩

variable {od od' : Order n K type}
variable {old : Fin n → Fin K → Int}

/- A cut waits until enough blocks are there. -/
theorem Order.ready_iff :
    od.ready old = true ↔
      ∀ i j, od.differ old i j ≤
        (od.oldBCBlocks i j).length := by
  unfold Order.ready
  rw [all_slots_iff]
  simp only [decide_eq_true_eq]

/- When the extraction goes through. -/
theorem Order.cutBlock_eq_some :
    od.cutBlock old = some od' ↔
      ((∀ i j, 0 ≤ od.differ old i j ∧
          od.differ old i j ≤ (od.oldBCBlocks i j).length) ∧
        od.count old ≠ 0) ∧
      { od with
        oldBCBlocks := fun i j =>
          (od.oldBCBlocks i j).drop (od.differ old i j).toNat
        cutting := none
        ledger := fun i j =>
          od.ledger i j ++
            [{ old := old i j
               new := od.lastCommit i j
               blocks :=
                (od.oldBCBlocks i j).take
                  (od.differ old i j).toNat }] } = od' := by
  unfold Order.cutBlock
  rw [Option.ite_none_right_eq_some, Bool.and_eq_true,
    all_slots_iff, Option.some.injEq]
  simp only [Bool.and_eq_true, decide_eq_true_eq]

end Slots

end Ordering

end Jumbo
