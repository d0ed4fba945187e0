import Jumbo.Ordering.Order

/-
  What a cut commits.

  The cut counts the blocks it takes and does not look at
  their heights. It takes the decided ones exactly when no
  block at or below the last commit is still held and none
  of the decided ones is missing.

  Main declarations:
    * `Cut.Exact`
    * `Order.rising` and `Order.complete`
    * `sorted_blocks`
    * `ledger_decided_prefix`
-/

------------------------------------------------------------
-- One Cut
------------------------------------------------------------

namespace Jumbo

namespace Ordering

open Protocol
open Struct

variable {n K : Nat} {type : BroadcastType}

/- The blocks are those right above the old commit. -/
def Cut.Exact (cut : Cut) : Prop :=
  cut.blocks.map height =
    SortedBuffer.above cut.old (cut.new - cut.old).toNat

/- Outputs do not go back. -/
def Order.rising
    (od : Order n K type) : OrderAction type → Bool
| .output output =>
    (newCommit n K output).all fun commit =>
      (slots n K).all fun (i, j) =>
        od.lastCommit i j ≤ commit i j
| _ => true

/-
  Where the commit moves, nothing that is already committed
  is held and nothing that is decided is missing.
-/
def Order.complete
    (od : Order n K type) : OrderAction type → Bool
| .cut =>
    od.cutting.all fun old =>
      (slots n K).all fun (i, j) =>
        od.differ old i j ≤ 0 ||
          ((od.oldBCBlocks i j).all (old i j < height ·) &&
            (SortedBuffer.above (old i j)
                (od.differ old i j).toNat).all fun h =>
              (od.oldBCBlocks i j).any (height · = h))
| _ => true

/- What is committed of an instance. -/
def Order.committed
    (od : Order n K type) (i : Fin n) (j : Fin K) :
    List BCBlock :=
  (od.ledger i j).flatMap (·.blocks)

section Steps

variable {od od' : Order n K type}
variable {old : Fin n → Fin K → Int}

/- A block is filed under its leader and instance. -/
theorem update_filed
    {block : BCBlock}
    (hUpdate : od.update block = some od') :
    ∃ i j heights hs,
      Crypto.key n block.rawBC.leader = some i ∧
        Crypto.key K block.rawBC.k = some j ∧
          od' =
            { od with
              heights := heights
              hs := hs
              oldBCBlocks :=
                set od.oldBCBlocks i j
                  (addBcBlock (od.oldBCBlocks i j)
                    block) } := by
  unfold Order.update at hUpdate
  split at hUpdate
  · rename_i i j hLeader hSid
    cases hUpdate
    exact ⟨i, j, _, _, hLeader, hSid, rfl⟩
  · cases hUpdate

/- An output is taken when the one before has been cut. -/
theorem rcvOutput_cases
    {output : Input type}
    (hOutput : od.rcvOutput output = some od') :
    od.cutting = none ∧ ∃ commit,
      Order.newCommit n K output = some commit ∧
        od' =
          { od with
            lastCommit := commit
            decided := some output
            cutting := some od.lastCommit } := by
  unfold Order.rcvOutput at hOutput
  split at hOutput
  · cases hOutput
  · rename_i hCutting
    rcases Option.map_eq_some_iff.mp hOutput with
      ⟨commit, hCommit, rfl⟩
    exact ⟨hCutting, commit, hCommit, rfl⟩

/- A cut is made when the blocks have come. -/
theorem cut_cases
    (hCut : od.exec .cut = some od') :
    ∃ old, od.cutting = some old ∧
      od.ready old = true ∧ od.cutBlock old = some od' := by
  unfold Order.exec at hCut
  cases hCutting : od.cutting with
  | none =>
      rw [hCutting] at hCut
      cases hCut
  | some old =>
      rw [hCutting] at hCut
      rcases Option.ite_none_right_eq_some.mp hCut with
        ⟨hReady, hEq⟩
      exact ⟨old, rfl, hReady, hEq⟩

/- Every buffer is in order of the heights, at any time. -/
theorem sorted_blocks
    {ok : Order n K type → OrderAction type → Prop}
    (hReach : (order n K type).ReachableBy ok od)
    (i : Fin n) (j : Fin K) :
    SortedBuffer.Sorted height (od.oldBCBlocks i j) := by
  revert i j
  refine hReach.invariant
    (fun od => ∀ i j,
      SortedBuffer.Sorted height (od.oldBCBlocks i j)) ?_ ?_
  · exact fun _ _ => List.Pairwise.nil
  intro s a s' _ hSorted _ hExec
  cases a with
  | arrive block =>
      rcases update_filed hExec with
        ⟨i, j, _, _, _, _, rfl⟩
      intro i' j'
      dsimp only [set]
      split
      · exact addBcBlock_sorted (hSorted i j)
      · exact hSorted i' j'
  | output output =>
      rcases rcvOutput_cases hExec with ⟨_, commit, _, rfl⟩
      exact hSorted
  | cut =>
      rcases cut_cases hExec with ⟨old, _, _, hCut⟩
      rcases Order.cutBlock_eq_some.mp hCut with ⟨_, rfl⟩
      exact fun i j => (hSorted i j).drop

/- A cut is complete if exactly the missing heights are cut. -/
theorem Order.complete_cut
    (hCutting : od.cutting = some old) :
    od.complete .cut = true ↔
      ∀ i j, od.differ old i j ≤ 0 ∨
        (∀ block ∈ od.oldBCBlocks i j,
          old i j < height block) ∧
        ∀ h, old i j < h →
          h ≤ old i j + (od.differ old i j).toNat →
            ∃ block ∈ od.oldBCBlocks i j,
              height block = h := by
  unfold Order.complete
  rw [hCutting, Option.all_some, all_slots_iff]
  simp only [Bool.or_eq_true, Bool.and_eq_true,
    List.all_eq_true, List.any_eq_true, decide_eq_true_eq,
    SortedBuffer.mem_above, and_imp]

/- What a cut takes is exact when the buffer is complete. -/
theorem cut_exact_iff
    {ok : Order n K type → OrderAction type → Prop}
    (hReach : (order n K type).ReachableBy ok od)
    (hCutting : od.cutting = some old)
    (hReady : od.ready old = true) :
    (∀ i j,
      Cut.Exact
        { old := old i j
          new := od.lastCommit i j
          blocks :=
            (od.oldBCBlocks i j).take
              (od.differ old i j).toNat }) ↔
      od.complete .cut = true := by
  rw [Order.complete_cut hCutting]
  refine forall_congr' fun i => forall_congr' fun j => ?_
  have hLe := Order.ready_iff.mp hReady i j
  unfold Cut.Exact
  change
    ((od.oldBCBlocks i j).take
        (od.differ old i j).toNat).map height =
      SortedBuffer.above (old i j)
        (od.differ old i j).toNat ↔ _
  rw [SortedBuffer.take_contiguous_iff
    (sorted_blocks hReach i j) (by omega), Int.toNat_eq_zero]

end Steps

end Ordering

end Jumbo

------------------------------------------------------------
-- The Whole Run
------------------------------------------------------------

namespace Jumbo

namespace Ordering

open Protocol
open Struct

variable {n K : Nat} {type : BroadcastType}

/- The commit up to which blocks have been cut. -/
def Order.base
    (od : Order n K type) : Fin n → Fin K → Int :=
  od.cutting.getD od.lastCommit

/- The ledger against the commits. -/
structure Kept (od : Order n K type) : Prop where
  exact : ∀ i j, ∀ cut ∈ od.ledger i j, cut.Exact
  filed :
    ∀ i j, ∀ block ∈ od.oldBCBlocks i j ++ od.committed i j,
      Crypto.key n block.rawBC.leader = some i ∧
        Crypto.key K block.rawBC.k = some j
  decided :
    ∀ i j, (od.committed i j).map height =
      SortedBuffer.above (-1) (od.base i j + 1).toNat
  started : ∀ i j, -1 ≤ od.base i j
  rises : ∀ i j, od.base i j ≤ od.lastCommit i j

section Runs

variable {od od' : Order n K type}

/- Only the new block is added. -/
theorem mem_addBcBlock
    {blocks : List BCBlock} {block other : BCBlock}
    (hMem : other ∈ addBcBlock blocks block) :
    other = block ∨ other ∈ blocks := by
  unfold addBcBlock at hMem
  split at hMem
  · exact .inl (List.mem_singleton.mp hMem)
  · rcases SortedBuffer.mem_of_mem_insertLoop hMem with
      h | h | h
    · exact .inl h
    · cases h
    · exact .inr h

/- A block that arrives changes no ledger. -/
theorem Kept.update
    {block : BCBlock}
    (hKept : Kept od)
    (hUpdate : od.update block = some od') :
    Kept od' := by
  rcases update_filed hUpdate with
    ⟨i, j, _, _, hLeader, hSid, rfl⟩
  refine { hKept with filed := ?_ }
  intro i' j' other hMem
  rcases List.mem_append.mp hMem with hMem | hMem
  · dsimp only [set] at hMem
    split at hMem
    · rename_i hSame
      rcases hSame with ⟨rfl, rfl⟩
      rcases mem_addBcBlock hMem with rfl | hMem
      · exact ⟨hLeader, hSid⟩
      · exact
          hKept.filed i' j' other
            (List.mem_append_left _ hMem)
    · exact
        hKept.filed i' j' other (List.mem_append_left _ hMem)
  · exact
      hKept.filed i' j' other (List.mem_append_right _ hMem)

/- A rising output may be taken. -/
theorem Kept.rcvOutput
    {output : Input type}
    (hKept : Kept od)
    (hRising : od.rising (.output output) = true)
    (hOutput : od.rcvOutput output = some od') :
    Kept od' := by
  rcases rcvOutput_cases hOutput with
    ⟨hCutting, commit, hCommit, rfl⟩
  have hBase : od.base = od.lastCommit := by
    unfold Order.base
    rw [hCutting]
    rfl
  unfold Order.rising at hRising
  dsimp only at hRising
  rw [hCommit, Option.all_some, all_slots_iff] at hRising
  have hDecided := hKept.decided
  have hStarted := hKept.started
  rw [hBase] at hDecided hStarted
  exact
    { hKept with
      decided := hDecided
      started := hStarted
      rises := fun i j => of_decide_eq_true (hRising i j) }

/- A complete cut adds the decided heights. -/
theorem Kept.cut
    {ok : Order n K type → OrderAction type → Prop}
    (hReach : (order n K type).ReachableBy ok od)
    (hKept : Kept od)
    (hComplete : od.complete .cut = true)
    (hCut : od.exec .cut = some od') :
    Kept od' := by
  rcases cut_cases hCut with
    ⟨old, hCutting, hReady, hEq⟩
  have hExact :=
    (cut_exact_iff hReach hCutting hReady).mpr hComplete
  rcases Order.cutBlock_eq_some.mp hEq with ⟨_, rfl⟩
  have hBase : od.base = old := by
    unfold Order.base
    rw [hCutting]
    rfl
  constructor
  · intro i j cut hMem
    rcases List.mem_append.mp hMem with hMem | hMem
    · exact hKept.exact i j cut hMem
    · cases List.mem_singleton.mp hMem
      exact hExact i j
  · intro i j block hMem
    apply hKept.filed i j block
    simp only [Order.committed, List.flatMap_append,
      List.flatMap_singleton, List.mem_append] at hMem ⊢
    rcases hMem with hMem | hMem | hMem
    · exact .inl (List.mem_of_mem_drop hMem)
    · exact .inr hMem
    · exact .inl (List.mem_of_mem_take hMem)
  · intro i j
    have hBefore := hKept.decided i j
    have hStarted := hKept.started i j
    have hRises := hKept.rises i j
    have hTaken := hExact i j
    rw [hBase] at hBefore hStarted hRises
    unfold Cut.Exact at hTaken
    dsimp only at hTaken
    have hSplit :
        (od.lastCommit i j + 1).toNat =
          (old i j + 1).toNat +
            (od.lastCommit i j - old i j).toNat := by
      omega
    have hFrom : -1 + ((old i j + 1).toNat : Int) = old i j := by
      omega
    simp only [Order.committed, List.flatMap_append,
      List.flatMap_singleton, List.map_append] at hBefore ⊢
    rw [hBefore, hTaken]
    change
      _ = SortedBuffer.above (-1) (od.lastCommit i j + 1).toNat
    rw [hSplit, SortedBuffer.above_add, hFrom]
  · intro i j
    exact Int.le_trans (hKept.started i j) (hKept.rises i j)
  · exact fun i j => Int.le_refl _

/- In every such run the ledger follows the commits. -/
theorem kept
    (hReach :
      (order n K type).ReachableBy
        (fun od a =>
          od.rising a = true ∧ od.complete a = true) od) :
    Kept od := by
  refine hReach.invariant Kept ?_ ?_
  · constructor
    · intro i j cut hMem
      cases hMem
    · intro i j block hMem
      cases hMem
    · exact fun i j => rfl
    · exact fun i j => Int.le_refl _
    · exact fun i j => Int.le_refl _
  · intro s a s' hBefore hKept hOk hExec
    cases a with
    | arrive block => exact hKept.update hExec
    | output output => exact hKept.rcvOutput hOk.1 hExec
    | cut => exact hKept.cut hBefore hOk.2 hExec

/-
  With outputs that do not go back, a cut takes exactly the
  decided blocks if and only if its buffer is complete, and
  with complete cuts nothing is committed twice.
-/
theorem ledger_decided_prefix (n K : Nat) :
    (∀ od od' : Order n K type,
      (order n K type).ReachableBy
          (fun od a => od.rising a = true) od →
        od.exec .cut = some od' →
          ((∀ i j cut, (od'.ledger i j).getLast? = some cut →
              cut.Exact) ↔
            od.complete .cut = true)) ∧
    ∀ od : Order n K type,
      (order n K type).ReachableBy
          (fun od a =>
            od.rising a = true ∧ od.complete a = true) od →
        ∀ i j,
          (∀ cut ∈ od.ledger i j, cut.Exact) ∧
            ((od.committed i j).map height).Nodup ∧
              ∀ block ∈ od.committed i j,
                Crypto.key n block.rawBC.leader = some i ∧
                  Crypto.key K block.rawBC.k = some j := by
  constructor
  · intro od od' hReach hCut
    rcases cut_cases hCut with
      ⟨old, hCutting, hReady, hEq⟩
    rw [← cut_exact_iff hReach hCutting hReady]
    rcases Order.cutBlock_eq_some.mp hEq with ⟨_, rfl⟩
    simp only [List.getLast?_concat, Option.some.injEq,
      forall_eq']
  · intro od hReach i j
    have hKept := kept hReach
    refine ⟨hKept.exact i j, ?_, ?_⟩
    · rw [hKept.decided i j]
      exact SortedBuffer.above_nodup _ _
    · intro block hMem
      exact
        hKept.filed i j block (List.mem_append_right _ hMem)

end Runs

------------------------------------------------------------
-- Present and Missing Blocks
------------------------------------------------------------

/- A block of the first instance of a leader. -/
def plainBlock (leader height : Int32) : BCBlock where
  rawBC := ⟨[], height, [7], leader, 1, 0, 1⟩
  sign := none
  batchSigns := none

/- The decision of block 1 waits until it has arrived. -/
def completeRun : List (OrderAction .rbc) :=
  [.arrive (plainBlock 1 0), .arrive (plainBlock 2 0),
    .arrive (plainBlock 3 0),
    .output ([1, 0, 0, -1] : List Int32), .cut,
    .arrive (plainBlock 1 1), .cut]

/- Where the complete run ends. -/
def completeState : Order 4 1 .rbc :=
  (order 4 1 .rbc).drive
    (fun od a => od.rising a && od.complete a) Order.new
    completeRun

/- Two blocks are committed, in order and once. -/
theorem ledger_decided_prefix_complete :
    (completeState.committed 0 0).map height = [0, 1] ∧
      ((completeState.committed 0 0).map height).Nodup := by
  have hReach :
      (order 4 1 .rbc).ReachableBy
        (fun od a =>
          od.rising a = true ∧ od.complete a = true)
        completeState := by
    refine (Machine.ReachableBy.drive .init completeRun).mono ?_
    intro od a hOk
    exact Bool.and_eq_true _ _ ▸ hOk
  rcases ledger_decided_prefix 4 1 with ⟨_, hLedger⟩
  exact
    ⟨by decide +kernel, (hLedger _ hReach 0 0).2.1⟩

/- Block 1 of the first leader is decided but not held. -/
def missingRun : List (OrderAction .rbc) :=
  [.arrive (plainBlock 1 0), .arrive (plainBlock 1 2),
    .arrive (plainBlock 2 0), .arrive (plainBlock 3 0),
    .output ([1, 0, 0, -1] : List Int32)]

/- A run in which a block is missing. -/
def missingState : Order 4 1 .rbc :=
  (order 4 1 .rbc).drive (fun od a => od.rising a) Order.new
    missingRun

/- The next cut leaves a height out. -/
theorem ledger_skips_a_height :
    (order 4 1 .rbc).ReachableBy
        (fun od a => od.rising a = true) missingState ∧
      ∃ od, missingState.exec .cut = some od ∧
        (od.committed 0 0).map height = [0, 2] := by
  refine ⟨Machine.ReachableBy.drive .init missingRun, ?_⟩
  have hCut :
      (missingState.exec .cut).map
          (fun od => (od.committed 0 0).map height) =
        some [0, 2] := by
    decide +kernel
  rcases Option.map_eq_some_iff.mp hCut with ⟨od, hExec, hEq⟩
  exact ⟨od, hExec, hEq⟩

end Ordering

end Jumbo
