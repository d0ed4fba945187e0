import Jumbo.Ordering.Ledger

/-
  The blocks held for an instance after any arrivals.

  Main declarations:
    * `addBcBlock_holds`
    * `filed`
    * `addBcBlock_sortedSet`
-/

------------------------------------------------------------
-- Any Order of Arrival
------------------------------------------------------------

namespace Jumbo

namespace Ordering

open Protocol
open Struct

variable {n K : Nat} {type : BroadcastType}

/- On a sorted buffer the loop inserts, also on an empty one. -/
theorem addBcBlock_eq
    {blocks : List BCBlock}
    (hSorted : SortedBuffer.Sorted height blocks)
    (block : BCBlock) :
    addBcBlock blocks block =
      SortedBuffer.insertNew height block blocks := by
  cases blocks with
  | nil => rfl
  | cons first rest =>
      exact
        SortedBuffer.insertLoop_eq [] hSorted
          (List.cons_ne_nil first rest)

/- A block is added at its height, if there is none. -/
theorem addBcBlock_holds
    {came buffer : List BCBlock}
    (hHolds : SortedBuffer.Holds height came buffer)
    (block : BCBlock) :
    SortedBuffer.Holds height (came ++ [block])
      (addBcBlock buffer block) := by
  rw [addBcBlock_eq hHolds.sorted]
  exact hHolds.insertNew block

/- So it is for any number of blocks. -/
theorem foldl_addBcBlock_holds
    {came buffer : List BCBlock}
    (hHolds : SortedBuffer.Holds height came buffer)
    (blocks : List BCBlock) :
    SortedBuffer.Holds height (came ++ blocks)
      (blocks.foldl addBcBlock buffer) := by
  induction blocks generalizing came buffer with
  | nil =>
      rw [List.append_nil]
      exact hHolds
  | cons block blocks ih =>
      rw [List.append_cons]
      exact ih (addBcBlock_holds hHolds block)

/- The blocks of an instance among those that arrive. -/
def filed
    (i : Fin n) (j : Fin K) (blocks : List BCBlock) :
    List BCBlock :=
  blocks.filter fun block =>
    decide
      (Crypto.key n block.rawBC.leader = some i ∧
        Crypto.key K block.rawBC.k = some j)

/- A block is filed under its leader and instance. -/
theorem filed_cons
    {block : BCBlock} {i : Fin n} {j : Fin K}
    (hLeader : Crypto.key n block.rawBC.leader = some i)
    (hSid : Crypto.key K block.rawBC.k = some j)
    (i' : Fin n) (j' : Fin K) (blocks : List BCBlock) :
    filed i' j' (block :: blocks) =
      if i' = i ∧ j' = j then block :: filed i' j' blocks
      else filed i' j' blocks := by
  unfold filed
  by_cases hSame : i' = i ∧ j' = j
  · rw [if_pos hSame, List.filter_cons_of_pos]
    rw [hSame.1, hSame.2]
    exact decide_eq_true ⟨hLeader, hSid⟩
  · rw [if_neg hSame, List.filter_cons_of_neg]
    intro hBoth
    rcases of_decide_eq_true hBoth with ⟨hLeader', hSid'⟩
    rw [hLeader] at hLeader'
    rw [hSid] at hSid'
    exact
      hSame
        ⟨(Option.some.inj hLeader').symm,
          (Option.some.inj hSid').symm⟩

/- Each buffer holds the blocks that are filed there. -/
theorem updates_hold
    {od od' : Order n K type} {blocks : List BCBlock}
    {came : Fin n → Fin K → List BCBlock}
    (hHolds :
      ∀ i j,
        SortedBuffer.Holds height (came i j)
          (od.oldBCBlocks i j))
    (hUpdates : blocks.foldlM Order.update od = some od')
    (i : Fin n) (j : Fin K) :
    SortedBuffer.Holds height (came i j ++ filed i j blocks)
      (od'.oldBCBlocks i j) := by
  induction blocks generalizing od came with
  | nil =>
      cases hUpdates
      unfold filed
      rw [List.filter_nil, List.append_nil]
      exact hHolds i j
  | cons block blocks ih =>
      rw [List.foldlM_cons] at hUpdates
      rcases Option.bind_eq_some_iff.mp hUpdates with
        ⟨next, hUpdate, hRest⟩
      rcases update_filed hUpdate with
        ⟨i₀, j₀, heights, hs, hLeader, hSid, rfl⟩
      have hNext (i' : Fin n) (j' : Fin K) :
          SortedBuffer.Holds height
            (came i' j' ++
              if i' = i₀ ∧ j' = j₀ then [block] else [])
            (set od.oldBCBlocks i₀ j₀
              (addBcBlock (od.oldBCBlocks i₀ j₀) block) i'
              j') := by
        unfold set
        by_cases hSame : i' = i₀ ∧ j' = j₀
        · rw [if_pos hSame, if_pos hSame, hSame.1, hSame.2]
          exact addBcBlock_holds (hHolds i₀ j₀) block
        · rw [if_neg hSame, if_neg hSame, List.append_nil]
          exact hHolds i' j'
      have hAll := ih hNext hRest
      rw [filed_cons hLeader hSid]
      rw [List.append_assoc] at hAll
      split
      · rename_i hSame
        rw [if_pos hSame] at hAll
        exact hAll
      · rename_i hSame
        rw [if_neg hSame] at hAll
        exact hAll

/-
  From empty buffers, in whatever order blocks come: every
  buffer is in order of the heights, has the heights that
  have come, and of each height the block that came first.
-/
theorem addBcBlock_sortedSet :
    (∀ blocks : List BCBlock,
      SortedBuffer.Holds height blocks
        (blocks.foldl addBcBlock [])) ∧
      ∀ (od od' : Order n K type) (blocks : List BCBlock),
        (∀ i j, od.oldBCBlocks i j = []) →
          blocks.foldlM Order.update od = some od' →
            ∀ i j,
              SortedBuffer.Holds height (filed i j blocks)
                (od'.oldBCBlocks i j) := by
  constructor
  · exact
      foldl_addBcBlock_holds (SortedBuffer.holds_nil height)
  · intro od od' blocks hEmpty hUpdates i j
    have hNone (i' : Fin n) (j' : Fin K) :
        SortedBuffer.Holds height [] (od.oldBCBlocks i' j') := by
      rw [hEmpty i' j']
      exact SortedBuffer.holds_nil height
    exact updates_hold hNone hUpdates i j

/- A block of an instance at a height. -/
def blockAt (h : Int32) (root : Crypto.Bytes) : BCBlock where
  rawBC := { Order.noBlock.rawBC with
    height := h
    leader := 1
    k := 1
    root := root }
  sign := none
  batchSigns := none

/- Four blocks, two of them at one height. -/
def mixedBlocks : List BCBlock :=
  [blockAt 5 [], blockAt 2 [1], blockAt 9 [], blockAt 2 [2]]

/- They are ordered and the first of two is kept. -/
theorem addBcBlock_sortedSet_mixed :
    SortedBuffer.Holds height
      (filed (0 : Fin 1) (0 : Fin 1) mixedBlocks)
      [blockAt 2 [1], blockAt 5 [], blockAt 9 []] := by
  have hSome :
      (mixedBlocks.foldlM Order.update
        (Order.new : Order 1 1 .cbc)).isSome := by
    decide +kernel
  rcases Option.isSome_iff_exists.mp hSome with
    ⟨od', hUpdates⟩
  have hBuffer :
      (mixedBlocks.foldlM Order.update
          (Order.new : Order 1 1 .cbc)).map
            (fun od => od.oldBCBlocks 0 0) =
        some [blockAt 2 [1], blockAt 5 [], blockAt 9 []] := by
    decide +kernel
  rw [hUpdates] at hBuffer
  rw [← Option.some.inj hBuffer]
  exact
    addBcBlock_sortedSet.2 Order.new od' mixedBlocks
      (fun _ _ => rfl) hUpdates 0 0

end Ordering

end Jumbo
