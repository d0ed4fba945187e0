import Jumbo.Ordering.Ledger

/-
  The ledgers of two parties.

  The outputs of the agreement and the blocks of an instance
  are the same for all parties; when they come, and in which
  order the blocks do, is not. Where every cut finds what is
  decided, a ledger is a function of the decisions, and the
  shorter one of two is the beginning of the other.

  Main declarations:
    * `Order.follows` and `Order.uniform`
    * `Recorded` and `recorded`
    * `ledgers_agree`
-/

------------------------------------------------------------
-- One Ledger
------------------------------------------------------------

namespace Jumbo

namespace Ordering

open Protocol
open Struct

variable {n K : Nat} {type : BroadcastType}

/- The commit of an instance after so many decisions. -/
def commitAt
    (decisions : Nat → Input type) (i : Fin n) (j : Fin K) :
    Nat → Int
| 0 => -1
| m + 1 =>
    ((Order.outputHeight type (decisions m)
      (position i j)).map Int32.toInt).getD 0

/- Outputs are the decisions, one after the other. -/
def Order.follows
    (decisions : Nat → Input type) (od : Order n K type) :
    OrderAction type → Prop
| .output output =>
    ∀ i j, output = decisions (od.ledger i j).length
| _ => True

/- An instance has one block of a height. -/
def Order.uniform
    (rawBC : Fin n → Fin K → Int → RawBC) :
    OrderAction type → Prop
| .arrive block =>
    ∀ i j, Crypto.key n block.rawBC.leader = some i →
      Crypto.key K block.rawBC.k = some j →
        block.rawBC = rawBC i j (height block)
| _ => True

/- What the parties agree on when they write down a cut. -/
def Cut.record (cut : Cut) : Int × Int × List RawBC :=
  (cut.old, cut.new, cut.blocks.map (·.rawBC))

/- The cut that a decision stands for. -/
def cutAt
    (decisions : Nat → Input type)
    (rawBC : Fin n → Fin K → Int → RawBC)
    (i : Fin n) (j : Fin K) (m : Nat) :
    Int × Int × List RawBC :=
  let old := commitAt decisions i j m
  let new := commitAt decisions i j (m + 1)
  (old, new,
    (SortedBuffer.above old (new - old).toNat).map (rawBC i j))

/-
  The ledger of an instance is made of the cuts of the first
  decisions; the last commit is the one of the decision that
  is cut, or has been.
-/
structure Recorded
    (decisions : Nat → Input type)
    (rawBC : Fin n → Fin K → Int → RawBC)
    (od : Order n K type) : Prop where
  level :
    ∀ i j i' j',
      (od.ledger i j).length = (od.ledger i' j').length
  ledger :
    ∀ i j, (od.ledger i j).map Cut.record =
      (List.range (od.ledger i j).length).map
        (cutAt decisions rawBC i j)
  resting :
    od.cutting = none → ∀ i j,
      od.lastCommit i j =
        commitAt decisions i j (od.ledger i j).length
  cutting :
    ∀ old, od.cutting = some old → ∀ i j,
      old i j =
          commitAt decisions i j (od.ledger i j).length ∧
        od.lastCommit i j =
          commitAt decisions i j ((od.ledger i j).length + 1)
  held :
    ∀ i j, ∀ block ∈ od.oldBCBlocks i j,
      block.rawBC = rawBC i j (height block)

/- What a party may do, and what it is given. -/
def Order.orderly
    (decisions : Nat → Input type)
    (rawBC : Fin n → Fin K → Int → RawBC)
    (od : Order n K type) (a : OrderAction type) : Prop :=
  od.follows decisions a ∧ Order.uniform rawBC a ∧
    od.complete a = true

section Steps

variable {decisions : Nat → Input type}
variable {rawBC : Fin n → Fin K → Int → RawBC}
variable {od od' : Order n K type}

/- Nothing is recorded at the start. -/
theorem recorded_new :
    Recorded decisions rawBC (Order.new : Order n K type) where
  level _ _ _ _ := rfl
  ledger _ _ := rfl
  resting _ _ _ := rfl
  cutting _ hSome := by cases hSome
  held _ _ := List.forall_mem_nil _

/- A block of the plain ones may arrive. -/
theorem Recorded.update
    {block : BCBlock}
    (hRecorded : Recorded decisions rawBC od)
    (hUniform :
      Order.uniform rawBC
        (.arrive block : OrderAction type))
    (hUpdate : od.update block = some od') :
    Recorded decisions rawBC od' := by
  rcases update_filed hUpdate with
    ⟨i, j, _, _, hLeader, hSid, rfl⟩
  refine { hRecorded with held := ?_ }
  intro i' j' other hMem
  dsimp only [set] at hMem
  split at hMem
  · rename_i hSame
    rcases hSame with ⟨rfl, rfl⟩
    rcases mem_addBcBlock hMem with rfl | hOld
    · exact hUniform i' j' hLeader hSid
    · exact hRecorded.held i' j' other hOld
  · exact hRecorded.held i' j' other hMem

/- The commit takes the height at each position. -/
theorem newCommit_at
    {output : Input type} {commit : Fin n → Fin K → Int}
    (hCommit : Order.newCommit n K output = some commit)
    (i : Fin n) (j : Fin K) :
    commit i j =
      ((Order.outputHeight type output (position i j)).map
        Int32.toInt).getD 0 := by
  unfold Order.newCommit at hCommit
  rcases Option.ite_none_right_eq_some.mp hCommit with
    ⟨_, hEq⟩
  cases hEq
  rfl

/- The next decision is noted. -/
theorem Recorded.rcvOutput
    {output : Input type}
    (hRecorded : Recorded decisions rawBC od)
    (hFollows : od.follows decisions (.output output))
    (hOutput : od.rcvOutput output = some od') :
    Recorded decisions rawBC od' := by
  rcases rcvOutput_cases hOutput with
    ⟨hCutting, commit, hCommit, rfl⟩
  refine
    { hRecorded with
      resting := fun hNone => by cases hNone
      cutting := ?_ }
  intro old hOld i j
  cases hOld
  refine ⟨hRecorded.resting hCutting i j, ?_⟩
  change commit i j = _
  rw [newCommit_at hCommit i j, hFollows i j]
  rfl

/-
  A cut that is complete takes the blocks of the heights
  decided, and these are known.
-/
theorem Recorded.cut
    {ok : Order n K type → OrderAction type → Prop}
    (hReach : (order n K type).ReachableBy ok od)
    (hRecorded : Recorded decisions rawBC od)
    (hComplete : od.complete .cut = true)
    (hCut : od.exec .cut = some od') :
    Recorded decisions rawBC od' := by
  rcases cut_cases hCut with
    ⟨old, hCutting, hReady, hEq⟩
  have hExact :=
    (cut_exact_iff hReach hCutting hReady).mpr hComplete
  rcases Order.cutBlock_eq_some.mp hEq with ⟨_, rfl⟩
  constructor
  · intro i j i' j'
    simp only [List.length_append, List.length_singleton]
    rw [hRecorded.level i j i' j']
  · intro i j
    rcases hRecorded.cutting old hCutting i j with
      ⟨hOld, hNew⟩
    have hTaken := hExact i j
    unfold Cut.Exact at hTaken
    dsimp only at hTaken
    have hBlocks :
        ((od.oldBCBlocks i j).take
            (od.differ old i j).toNat).map (·.rawBC) =
          (SortedBuffer.above (old i j)
            (od.lastCommit i j - old i j).toNat).map
              (rawBC i j) := by
      rw [← hTaken, List.map_map]
      apply List.map_congr_left
      intro block hMem
      exact
        hRecorded.held i j block (List.mem_of_mem_take hMem)
    simp only [List.map_append, List.map_singleton,
      List.length_append, List.length_singleton]
    rw [hRecorded.ledger i j, List.range_succ,
      List.map_append, List.map_singleton]
    congr 2
    unfold Cut.record cutAt
    dsimp only
    rw [hBlocks, ← hOld, ← hNew]
  · intro _ i j
    rw [(hRecorded.cutting old hCutting i j).2]
    simp only [List.length_append, List.length_singleton]
  · intro _ hSome
    cases hSome
  · intro i j block hMem
    exact hRecorded.held i j block (List.mem_of_mem_drop hMem)

/- In every such run the ledger is what was decided. -/
theorem recorded
    (hReach :
      (order n K type).ReachableBy
        (Order.orderly decisions rawBC) od) :
    Recorded decisions rawBC od := by
  refine
    hReach.invariant (Recorded decisions rawBC) recorded_new ?_
  intro s a s' hBefore hRecorded hOk hExec
  rcases hOk with ⟨hFollows, hUniform, hComplete⟩
  cases a with
  | arrive block => exact hRecorded.update hUniform hExec
  | output output => exact hRecorded.rcvOutput hFollows hExec
  | cut => exact hRecorded.cut hBefore hComplete hExec

end Steps

end Ordering

end Jumbo

------------------------------------------------------------
-- Two Ledgers
------------------------------------------------------------

namespace Jumbo

namespace Ordering

open Protocol
open Struct

variable {n K : Nat} {type : BroadcastType}

/- What is written down of the cuts of an instance. -/
def Order.records
    (od : Order n K type) (i : Fin n) (j : Fin K) :
    List (Int × Int × List RawBC) :=
  (od.ledger i j).map Cut.record

section Pair

variable {decisions : Nat → Input type}
variable {rawBC : Fin n → Fin K → Int → RawBC}
variable {od od' : Order n K type}

/- The shorter ledger begins the longer. -/
theorem Recorded.prefix
    (hRecorded : Recorded decisions rawBC od)
    (hRecorded' : Recorded decisions rawBC od')
    {i : Fin n} {j : Fin K}
    (hLe : (od.ledger i j).length ≤ (od'.ledger i j).length) :
    od.records i j <+: od'.records i j := by
  unfold Order.records
  rw [hRecorded.ledger i j, hRecorded'.ledger i j]
  rcases Nat.exists_eq_add_of_le hLe with ⟨more, hMore⟩
  rw [hMore, List.range_add, List.map_append]
  exact List.prefix_append _ _

/- One of two ledgers is a beginning of the other. -/
theorem Recorded.comparable
    (hRecorded : Recorded decisions rawBC od)
    (hRecorded' : Recorded decisions rawBC od') :
    (∀ i j, od.records i j <+: od'.records i j) ∨
      ∀ i j, od'.records i j <+: od.records i j := by
  by_cases hAll :
      ∀ i j, (od.ledger i j).length ≤ (od'.ledger i j).length
  · left
    exact fun i j => hRecorded.prefix hRecorded' (hAll i j)
  · right
    push Not at hAll
    rcases hAll with ⟨i, j, hLt⟩
    intro i' j'
    refine hRecorded'.prefix hRecorded ?_
    rw [hRecorded.level i' j' i j,
      hRecorded'.level i' j' i j]
    exact Nat.le_of_lt hLt

/-
  Two parties that are given the same decisions, and blocks of
  which an instance has one of a height, cut the same blocks
  for each of them: one of the two ledgers is a beginning of
  the other, for all instances alike.
-/
theorem ledgers_agree
    (hReach :
      (order n K type).ReachableBy
        (Order.orderly decisions rawBC) od)
    (hReach' :
      (order n K type).ReachableBy
        (Order.orderly decisions rawBC) od') :
    (∀ i j, od.records i j <+: od'.records i j) ∨
      ∀ i j, od'.records i j <+: od.records i j :=
  (recorded hReach).comparable (recorded hReach')

end Pair

------------------------------------------------------------
-- A Fast and a Slow Party
------------------------------------------------------------

/- The blocks of three leaders, up to the second height. -/
def plainRawBC (i : Fin 4) (_ : Fin 1) (h : Int) : RawBC :=
  (plainBlock (Int32.ofNat (i.val + 1)) (Int32.ofInt h)).rawBC

/- The heights that are decided, round by round. -/
def twoDecisions : Nat → List Int32 :=
  fun m => if m = 0 then [0, 0, 0, -1] else [1, 1, 1, -1]

/- Both rounds, with the blocks of the second one early. -/
def fastRun : List (OrderAction .rbc) :=
  [.arrive (plainBlock 1 1), .arrive (plainBlock 1 0),
    .arrive (plainBlock 3 0), .arrive (plainBlock 2 0),
    .output ([0, 0, 0, -1] : List Int32), .cut,
    .arrive (plainBlock 3 1), .arrive (plainBlock 2 1),
    .output ([1, 1, 1, -1] : List Int32), .cut]

/- One round; its decision comes before its blocks. -/
def slowRun : List (OrderAction .rbc) :=
  [.output ([0, 0, 0, -1] : List Int32),
    .arrive (plainBlock 3 0), .arrive (plainBlock 1 0),
    .arrive (plainBlock 2 0), .cut]

/- The steps that are orderly with these. -/
def plainOrderly
    (od : Order 4 1 .rbc) (a : OrderAction .rbc) : Bool :=
  od.complete a &&
    match a with
    | .arrive block =>
        decide
          (∀ i j, Crypto.key 4 block.rawBC.leader = some i →
            Crypto.key 1 block.rawBC.k = some j →
              block.rawBC = plainRawBC i j (height block))
    | .output output =>
        let heights : List Int32 := output
        decide
          (∀ i j, heights = twoDecisions (od.ledger i j).length)
    | .cut => true

/- Where a run ends. -/
def plainState (actions : List (OrderAction .rbc)) :
    Order 4 1 .rbc :=
  (order 4 1 .rbc).drive plainOrderly Order.new actions

/- It is an orderly run. -/
theorem plainState_reachable
    (actions : List (OrderAction .rbc)) :
    (order 4 1 .rbc).ReachableBy
      (@Order.orderly 4 1 .rbc twoDecisions plainRawBC)
      (plainState actions) := by
  refine (Machine.ReachableBy.drive .init actions).mono ?_
  intro od a hOk
  rcases Bool.and_eq_true_iff.mp hOk with ⟨hComplete, hOk⟩
  cases a with
  | arrive block =>
      rw [decide_eq_true_eq] at hOk
      exact ⟨trivial, hOk, hComplete⟩
  | output output =>
      let heights : List Int32 := output
      have hFollows :
          ∀ (i : Fin 4) (j : Fin 1),
            heights = twoDecisions (od.ledger i j).length :=
        of_decide_eq_true hOk
      exact ⟨hFollows, trivial, hComplete⟩
  | cut => exact ⟨trivial, trivial, hComplete⟩

/- The fast party has cut twice, the slow one once. -/
theorem plainState_lengths :
    ((plainState fastRun).ledger 0 0).length = 2 ∧
      ((plainState slowRun).ledger 0 0).length = 1 := by
  decide +kernel

/- The slower ledger begins the faster. -/
theorem ledgers_agree_slow :
    (plainState slowRun).records 0 0 <+:
      (plainState fastRun).records 0 0 := by
  rcases ledgers_agree (plainState_reachable slowRun)
      (plainState_reachable fastRun) with hSlow | hFast
  · exact hSlow 0 0
  · have hLe := (hFast 0 0).length_le
    unfold Order.records at hLe
    rw [List.length_map, List.length_map,
      plainState_lengths.1, plainState_lengths.2] at hLe
    omega

end Ordering

end Jumbo
