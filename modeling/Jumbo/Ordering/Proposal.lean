import Jumbo.Ordering.Aggregate
import Jumbo.Ordering.Bitmaps
import Jumbo.Ordering.Soundness

/-
  Whether the proposal of a party is accepted elsewhere.

  A party proposes when its heights have moved at more than
  two thirds of `n` slots. The check of high proofs wants
  two thirds of all slots, and compares signatures with the
  blocks that the checking party happens to hold.

  Main declarations:
    * `Delivers`
    * `Highest`
    * `Agrees`
    * `Aggregates`
    * `proposal_accepted_iff`
-/

------------------------------------------------------------
-- Highest Blocks
------------------------------------------------------------

namespace Jumbo

namespace Ordering

open Protocol
open Struct

variable {n K : Nat} {type : BroadcastType}

/- The blocks that arrive carry a certificate. -/
def Delivers
    (cfg : Config n) (_ : Order n K type) :
    OrderAction type → Prop
| .arrive block =>
    ∃ batch, block.batchSigns = some batch ∧
      Certifies cfg block.rawBC batch
| .output _ | .cut => True

/- A block of the instance, with its certificate. -/
structure BlockOf
    (cfg : Config n) (block : BCBlock) (i : Fin n)
    (j : Fin K) : Prop where
  height : 0 ≤ block.rawBC.height
  leader : Crypto.key n block.rawBC.leader = some i
  sid : Crypto.key K block.rawBC.k = some j
  certified :
    ∃ batch, block.batchSigns = some batch ∧
      Certifies cfg block.rawBC batch

/- What the heights of a party stand for. -/
structure Highest
    (cfg : Config n) (od : Order n K type) : Prop where
  hs : ∀ i j, od.hs i j = (od.heights i j).rawBC.height
  block :
    ∀ i j, od.heights i j = Order.noBlock ∨
      BlockOf cfg (od.heights i j) i j

section Highest

variable {cfg : Config n} {od od' : Order n K type}

/- A certified block may become the highest. -/
theorem Highest.update
    {block : BCBlock}
    (hHighest : Highest cfg od)
    (hCertified :
      ∃ batch, block.batchSigns = some batch ∧
        Certifies cfg block.rawBC batch)
    (hUpdate : od.update block = some od') :
    Highest cfg od' := by
  unfold Order.update at hUpdate
  split at hUpdate
  · rename_i i j hLeader hSid
    cases hUpdate
    by_cases hHigher :
        (od.heights i j).rawBC.height < block.rawBC.height
    · have hHeight : 0 ≤ block.rawBC.height := by
        have hFrom : -1 ≤ (od.heights i j).rawBC.height := by
          rcases hHighest.block i j with hNone | hBlock
          · rw [hNone]
            decide
          · exact Int32.le_trans (by decide) hBlock.height
        rw [Int32.le_iff_toInt_le] at hFrom ⊢
        rw [Int32.lt_iff_toInt_lt] at hHigher
        change -1 ≤ _ at hFrom
        change 0 ≤ _
        omega
      constructor
      · intro i' j'
        dsimp only
        rw [if_pos hHigher, if_pos hHigher]
        unfold set
        split
        · rfl
        · exact hHighest.hs i' j'
      · intro i' j'
        dsimp only
        rw [if_pos hHigher]
        unfold set
        split
        · rename_i hSame
          rcases hSame with ⟨rfl, rfl⟩
          exact .inr ⟨hHeight, hLeader, hSid, hCertified⟩
        · exact hHighest.block i' j'
    · constructor
      · intro i' j'
        dsimp only
        rw [if_neg hHigher, if_neg hHigher]
        exact hHighest.hs i' j'
      · intro i' j'
        dsimp only
        rw [if_neg hHigher]
        exact hHighest.block i' j'
  · cases hUpdate

/- In every run the highest blocks are certified. -/
theorem highest
    (hReach : (order n K type).ReachableBy (Delivers cfg) od) :
    Highest cfg od := by
  refine hReach.invariant (Highest cfg) ?_ ?_
  · exact ⟨fun _ _ => rfl, fun _ _ => .inl rfl⟩
  intro s a s' _ hHighest hDelivers hExec
  cases a with
  | arrive block => exact hHighest.update hDelivers hExec
  | output output =>
      rcases rcvOutput_cases hExec with ⟨_, _, _, rfl⟩
      exact ⟨hHighest.hs, hHighest.block⟩
  | cut =>
      rcases cut_cases hExec with ⟨_, _, _, hCut⟩
      rcases Order.cutBlock_eq_some.mp hCut with ⟨_, rfl⟩
      exact ⟨hHighest.hs, hHighest.block⟩

end Highest

/- Positive differences of numbers in order. -/
theorem sub_pos_iff
    {a b : Int32} (hLe : b.toInt ≤ a.toInt) :
    0 < a - b ↔
      0 < a.toInt - b.toInt ∧ a.toInt - b.toInt < 2 ^ 31 := by
  rw [Int32.lt_iff_toInt_lt, Int32.toInt_sub]
  have hA := a.toInt_lt
  have hB := b.le_toInt
  simp only [Int32.toInt_zero, Int.bmod]
  omega

/- Heights that are near subtract as numbers. -/
theorem toInt_sub_of_lt
    {a b : Int32} (hLe : b.toInt ≤ a.toInt)
    (hNear : a.toInt - b.toInt < 2 ^ 31) :
    (a - b).toInt = a.toInt - b.toInt := by
  rw [Int32.toInt_sub]
  simp only [Int.bmod]
  omega

end Ordering

end Jumbo

------------------------------------------------------------
-- High Proofs
------------------------------------------------------------

namespace Jumbo

namespace Ordering

open Protocol
open Struct

variable {n K : Nat}

section Moves

variable {type : BroadcastType}

/- How far the blocks of a slot are above the last commit. -/
def moved
    (od : Order n K type) (i : Fin n) (j : Fin K) : Int :=
  (od.hs i j).toInt - od.lastCommit i j

/- Above, and the difference fits 32 bits. -/
def rising
    (od : Order n K type) (i : Fin n) (j : Fin K) : Bool :=
  0 < moved od i j ∧ moved od i j < 2 ^ 31

end Moves

/-
  A slot that rises has a block, and a party that holds so
  many blocks finds the same signatures among them.
-/
def AgreesAt
    (od : Order n K .cbc) (table : Table n K) (i : Fin n)
    (j : Fin K) : Prop :=
  rising od i j = true →
    0 ≤ od.hs i j ∧
      (moved od i j < (table i j).length →
        TableAgrees (table i j) (highProof (od.heights i j))
          (od.heights i j).rawBC)

/-
  When the proposal is accepted by a party with this table:
  the last commit has an entry for every slot, and more than
  two thirds of all slots rise.
-/
structure Agrees
    (od : Order n K .cbc) (table : Table n K)
    (old : List HighProof) : Prop where
  length : old.length = n * K
  enough :
    n * K * 2 / 3 <
      (slots n K).countP fun (i, j) => rising od i j
  slot : ∀ i j, AgreesAt od table i j

section Accepted

variable {cfg : Config n} {table : Table n K}
variable {od : Order n K .cbc} {old : List HighProof}

/- The entry of the last commit at a slot. -/
theorem committed_at
    (hOld :
      @Order.newCommit .cbc n K old = some od.lastCommit)
    (i : Fin n) (j : Fin K) :
    ∃ oldHp oldBC,
      old[position i j]? = some oldHp ∧
        oldHp.rawBC = some oldBC ∧
          od.lastCommit i j = oldBC.height.toInt := by
  rcases newCommit_eq_some.mp hOld i j with
    ⟨height, hHeight, hCommit⟩
  rcases Option.bind_eq_some_iff.mp hHeight with
    ⟨oldHp, hOldHp, hMap⟩
  rcases Option.map_eq_some_iff.mp hMap with
    ⟨oldBC, hRaw, rfl⟩
  exact ⟨oldHp, oldBC, hOldHp, hRaw, hCommit⟩

/- The entry that a slot contributes. -/
theorem entryPasses_slot
    (hHighest : Highest cfg od)
    {i : Fin n} {j : Fin K} {oldHp : HighProof}
    {oldBC : RawBC}
    (hOldRaw : oldHp.rawBC = some oldBC)
    (hCommit : od.lastCommit i j = oldBC.height.toInt)
    (hNotLow : od.lastCommit i j ≤ (od.hs i j).toInt) :
    (rises (highProof (od.heights i j), oldHp) =
        rising od i j) ∧
      (EntryPasses cfg table
          (highProof (od.heights i j), oldHp) ↔
        AgreesAt od table i j) := by
  have hLe :
      oldBC.height.toInt ≤
        (od.heights i j).rawBC.height.toInt := by
    rw [← hHighest.hs, ← hCommit]
    exact hNotLow
  have hMoved :
      moved od i j =
        (od.heights i j).rawBC.height.toInt -
          oldBC.height.toInt := by
    unfold moved
    rw [hHighest.hs, hCommit]
  have hRising :
      rising od i j = true ↔
        0 < (od.heights i j).rawBC.height - oldBC.height := by
    unfold rising
    rw [decide_eq_true_iff, hMoved]
    exact (sub_pos_iff hLe).symm
  have hComparable (hRises : rising od i j = true) :
      Comparable table (od.heights i j).rawBC oldBC i j ↔
        moved od i j < (table i j).length := by
    unfold rising at hRises
    rw [decide_eq_true_iff, hMoved] at hRises
    unfold Comparable
    rw [toInt_sub_of_lt hLe hRises.2, hMoved]
  constructor
  · rw [Bool.eq_iff_iff, hRising]
    unfold rises highProof
    dsimp only
    rw [hOldRaw, Option.any_some, Option.any_some,
      decide_eq_true_iff]
  constructor
  · rintro ⟨rawBC, oldBC', ⟨hRaw, hOldRaw'⟩, hCase⟩ hRises
    cases hRaw
    rw [hOldRaw] at hOldRaw'
    cases hOldRaw'
    rcases hCase with ⟨hNot, _⟩ |
      ⟨_, i', j', hLeader, hSid, hPath⟩
    · exact absurd (hRising.mp hRises) hNot
    rcases hHighest.block i j with hNone | hBlock
    · rw [hNone] at hLeader
      cases hLeader
    · rw [hBlock.leader] at hLeader
      rw [hBlock.sid] at hSid
      cases hLeader
      cases hSid
      refine ⟨hHighest.hs i j ▸ hBlock.height, ?_⟩
      intro hLess
      rcases hPath with ⟨_, hAgrees⟩ | ⟨hFar, _⟩
      · exact hAgrees
      · exact absurd ((hComparable hRises).mpr hLess) hFar
  · intro hSlot
    refine
      ⟨(od.heights i j).rawBC, oldBC, ⟨rfl, hOldRaw⟩, ?_⟩
    by_cases hRises : rising od i j = true
    · rcases hSlot hRises with ⟨hHeight, hAgrees⟩
      rcases hHighest.block i j with hNone | hBlock
      · rw [hHighest.hs, hNone] at hHeight
        exact absurd hHeight (by decide)
      refine
        .inr
          ⟨hRising.mp hRises, i, j, hBlock.leader,
            hBlock.sid, ?_⟩
      rw [hComparable hRises]
      by_cases hLess : moved od i j < (table i j).length
      · exact .inl ⟨hLess, hAgrees hLess⟩
      · exact .inr ⟨hLess, hBlock.certified⟩
    · exact
        .inl
          ⟨fun hPos => hRises (hRising.mpr hPos),
            Int32.le_iff_toInt_le.mpr hLe⟩

/- The proposal of high proofs against one commit. -/
theorem highProofs_accepted_iff
    (hHighest : Highest cfg od)
    (hOld :
      @Order.newCommit .cbc n K old = some od.lastCommit)
    (hReady : checkInput od.hs od.lastCommit = true) :
    checkInputs cfg (n * K) table (some old)
          (flat fun i j => highProof (od.heights i j)) =
        .ok true ↔
      Agrees od table old := by
  have hNotLow := (checkInput_eq_true.mp hReady).1
  let proposal := flat fun i j => highProof (od.heights i j)
  -- the pair of entries at a slot
  have hAt (i : Fin n) (j : Fin K) :
      ∃ oldHp,
        (proposal.zip old)[position i j]? =
            some (highProof (od.heights i j), oldHp) ∧
          (rises (highProof (od.heights i j), oldHp) =
            rising od i j) ∧
          (EntryPasses cfg table
              (highProof (od.heights i j), oldHp) ↔
            AgreesAt od table i j) := by
    rcases committed_at hOld i j with
      ⟨oldHp, oldBC, hOldHp, hOldRaw, hCommit⟩
    exact
      ⟨oldHp,
        List.getElem?_zip_eq_some.mpr
          ⟨flat_position _ i j, hOldHp⟩,
        entryPasses_slot hHighest hOldRaw hCommit
          (hNotLow i j)⟩
  have hCount (hLength : old.length = n * K) :
      (proposal.zip old).countP rises =
        (slots n K).countP fun (i, j) => rising od i j := by
    have hZip : (proposal.zip old).length = n * K := by
      rw [List.length_zip, length_flat, hLength, Nat.min_self]
    rw [← countP_range_getElem?, hZip, ← countP_slots]
    apply List.countP_congr
    rintro ⟨i, j⟩ _
    rcases hAt i j with ⟨oldHp, hEntry, hRises, _⟩
    dsimp only
    rw [hEntry, Option.any_some, hRises]
  rw [accepts_iff]
  constructor
  · rintro ⟨hLength, _, hPass, hEnough⟩
    rw [hCount hLength] at hEnough
    refine ⟨hLength, hEnough, fun i j => ?_⟩
    rcases hAt i j with ⟨oldHp, hEntry, _, hIff⟩
    exact hIff.mp (hPass _ (List.mem_of_getElem? hEntry))
  · intro hAgrees
    refine
      ⟨hAgrees.length, length_flat _, ?_, ?_⟩
    · intro entry hMem
      rcases List.getElem?_of_mem hMem with ⟨m, hEntry⟩
      have hLt : m < n * K := by
        have hBound :=
          (List.getElem?_eq_some_iff.mp hEntry).1
        rw [List.length_zip, length_flat] at hBound
        omega
      rcases exists_position hLt with ⟨i, j, rfl⟩
      rcases hAt i j with ⟨oldHp, hEntry', _, hIff⟩
      change (proposal.zip old)[position i j]? = _ at hEntry
      rw [hEntry'] at hEntry
      cases hEntry
      exact hIff.mpr (hAgrees.slot i j)
    · change _ < (proposal.zip old).countP rises
      rw [hCount hAgrees.length]
      exact hAgrees.enough

end Accepted

end Ordering

end Jumbo

------------------------------------------------------------
-- Aggregated Proofs
------------------------------------------------------------

namespace Jumbo

namespace Ordering

open Crypto (Bytes)
open Protocol
open Struct

variable {n K : Nat} [NeZero K]

section Aggregated

/- The certificate of the first instance of a leader. -/
def batchOf
    (od : Order n K .cbcQCagg) (i : Fin n) :
    BatchSignature :=
  (od.heights i 0).batchSigns.getD ⟨[], []⟩

/- The leaders with a block in their first instance. -/
def leaders (od : Order n K .cbcQCagg) : List (Fin n) :=
  (List.finRange n).filter fun i => 0 ≤ od.hs i 0

/- What the proposal aggregates. -/
def parts
    (cfg : Config n) (od : Order n K .cbcQCagg) :
    List (Crypto.Part n) :=
  (leaders od).map fun i =>
    { signs := (batchOf od i).signs
      ids := (batchOf od i).mems.filterMap (Crypto.key n)
      msg := signbyte cfg (od.heights i 0).rawBC }

/-
  When the proposal is accepted: the check runs over the
  first instances only, enough of them rise, and for BLS
  there are certificates and each names its members once.
-/
structure Aggregates
    (cfg : Config n) (num : Nat) (od : Order n K .cbcQCagg) :
    Prop where
  instances : num = n
  enough :
    n * 2 / 3 <
      (List.finRange n).countP fun i =>
        od.lastCommit i 0 < (od.hs i 0).toInt
  once :
    cfg.type = .bls →
      leaders od ≠ [] ∧
        ∀ i ∈ leaders od,
          (batchOf od i).mems ≠ [] ∧
            (batchOf od i).mems.Nodup

variable {cfg : Config n} {od : Order n K .cbcQCagg}
variable {new : QCaggProof}

/- The range as the numbers of the parties. -/
theorem range_eq_map_finRange (n : Nat) :
    List.range n = (List.finRange n).map Fin.val := by
  apply List.ext_getElem?
  intro m
  rw [List.getElem?_map]
  by_cases hLt : m < n
  · rw [List.getElem?_range hLt,
      List.getElem?_eq_getElem
        (by rw [List.length_finRange]; exact hLt)]
    simp
  · rw [List.getElem?_eq_none
        (by rw [List.length_range]; omega),
      List.getElem?_eq_none
        (by rw [List.length_finRange]; omega)]
    rfl

/- Leaders are those with a block. -/
theorem mem_leaders {i : Fin n} :
    i ∈ leaders od ↔ 0 ≤ od.hs i 0 := by
  unfold leaders
  rw [List.mem_filter, decide_eq_true_iff]
  exact and_iff_right (List.mem_finRange i)

/- The block of a leader that is among them. -/
theorem Highest.leader
    (hHighest : Highest cfg od) {i : Fin n}
    (hMem : i ∈ leaders od) :
    BlockOf cfg (od.heights i 0) i (0 : Fin K) := by
  rcases hHighest.block i 0 with hNone | hBlock
  · have hHeight := mem_leaders.mp hMem
    rw [hHighest.hs, hNone] at hHeight
    exact absurd hHeight (by decide)
  · exact hBlock

/- Their blocks have certificates. -/
theorem Highest.batchOf_eq
    (hHighest : Highest cfg od) {i : Fin n}
    (hMem : i ∈ leaders od) :
    (od.heights i 0).batchSigns = some (batchOf od i) ∧
      Certifies cfg (od.heights i 0).rawBC (batchOf od i) := by
  rcases (hHighest.leader hMem).certified with
    ⟨batch, hBatch, hCertifies⟩
  have hEq : batchOf od i = batch := by
    unfold batchOf
    rw [hBatch]
    rfl
  rw [hEq]
  exact ⟨hBatch, hCertifies⟩

/- The proposal, position by position. -/
structure Proposed
    (cfg : Config n) (od : Order n K .cbcQCagg)
    (new : QCaggProof) : Prop where
  heights :
    ∀ i : Fin n, new.heights[i.val]? = some (od.hs i 0)
  heightsLength : new.heights.length = n
  hash :
    ∀ i ∈ leaders od,
      new.messageHash[i.val]? =
        some (cfg.hash (od.heights i 0).rawBC)
  mems :
    ∀ i ∈ leaders od, ∃ bitmap,
      new.mems[i.val]? = some bitmap ∧
        int32s2bytes (batchOf od i).mems n = some bitmap
  aggQC :
    Crypto.qcAggregate cfg.prim cfg.type
        ((leaders od).map fun i => (batchOf od i).signs)
        ((leaders od).map fun i => (batchOf od i).mems) =
      some new.aggQC

/- The first instance of each party. -/
theorem firsts_getElem?
    (heights : Fin n → Fin K → BCBlock) (i : Fin n) :
    (firsts heights)[i.val]? = some (heights i 0) := by
  unfold firsts
  simp

/- A proposal has the highest blocks. -/
theorem proposed
    (hHighest : Highest cfg od)
    (hNew : generateInputQCagg cfg od.heights = some new) :
    Proposed cfg od new := by
  have hPresent :
      ((firsts od.heights).filter fun block =>
          0 ≤ block.rawBC.height) =
        (leaders od).map fun i => od.heights i 0 := by
    unfold firsts leaders
    rw [List.filter_map]
    congr 1
    apply List.filter_congr
    intro i _
    rw [hHighest.hs]
    rfl
  have hBatches :
      ((firsts od.heights).filter fun block =>
          0 ≤ block.rawBC.height).mapM (·.batchSigns) =
        some ((leaders od).map (batchOf od)) := by
    rw [hPresent, List.mapM_map, Crypto.mapM_eq_some_iff]
    constructor
    · intro i hMem
      rw [Function.comp_apply, (hHighest.batchOf_eq hMem).1]
      rfl
    · rw [← List.filterMap_eq_map']
      apply List.filterMap_congr
      intro i hMem
      exact (hHighest.batchOf_eq hMem).1.symm
  have hLeader (i : Fin n) :
      i ∈ leaders od ↔
        0 ≤ (od.heights i 0).rawBC.height := by
    rw [mem_leaders, hHighest.hs]
  unfold generateInputQCagg at hNew
  dsimp only at hNew
  rw [hBatches] at hNew
  rcases Option.bind_eq_some_iff.mp hNew with
    ⟨batches, hSome, hNew⟩
  cases hSome
  rcases Option.bind_eq_some_iff.mp hNew with
    ⟨aggQC, hAggregate, hNew⟩
  rcases Option.bind_eq_some_iff.mp hNew with
    ⟨mems, hMems, hNew⟩
  cases hNew
  rw [List.map_map, List.map_map] at hAggregate
  constructor
  · intro i
    rw [List.getElem?_map, firsts_getElem?, hHighest.hs]
    dsimp only [Option.map_some]
    split
    · rfl
    · rename_i hNot
      rcases hHighest.block i 0 with hNone | hBlock
      · rw [hNone]
        rfl
      · exact absurd hBlock.height hNot
  · rw [List.length_map]
    unfold firsts
    rw [List.length_map, List.length_finRange]
  · intro i hMem
    rw [List.getElem?_map, firsts_getElem?, Option.map_some,
      if_pos ((hLeader i).mp hMem)]
  · intro i hMem
    have hAt := Crypto.getElem?_of_mapM hMems i.val
    rw [firsts_getElem?, Option.bind_some,
      if_pos ((hLeader i).mp hMem),
      (hHighest.batchOf_eq hMem).1, Option.bind_some] at hAt
    have hSome :=
      (Crypto.mapM_eq_some_iff.mp hMems).1 _
        (List.mem_of_getElem? (firsts_getElem? od.heights i))
    rw [if_pos ((hLeader i).mp hMem),
      (hHighest.batchOf_eq hMem).1, Option.bind_some,
      Option.isSome_iff_exists] at hSome
    rcases hSome with ⟨bitmap, hBitmap⟩
    rw [hBitmap] at hAt
    exact ⟨bitmap, hAt, hBitmap⟩
  · exact hAggregate

/- The positions with a block are those of the leaders. -/
theorem Proposed.withBlock_eq
    (hProposed : Proposed cfg od new) :
    withBlock new n = (leaders od).map Fin.val := by
  unfold withBlock leaders
  rw [range_eq_map_finRange, List.filter_map]
  congr 1
  apply List.filter_congr
  intro i _
  rw [Function.comp_apply]
  unfold hasBlock
  rw [hProposed.heights, Option.any_some]

/- It has an entry for each party. -/
theorem Proposed.present
    (hProposed : Proposed cfg od new) :
    ∀ i < n, Present new i := by
  intro i hLt
  refine ⟨_, hProposed.heights ⟨i, hLt⟩, ?_⟩
  intro hHeight
  have hMem : ⟨i, hLt⟩ ∈ leaders od := mem_leaders.mpr hHeight
  rcases hProposed.mems _ hMem with ⟨bitmap, hMems, _⟩
  constructor
  · rw [hProposed.hash _ hMem]
    rfl
  · rw [hMems]
    rfl

/- It names the message that was signed. -/
theorem Proposed.message_eq
    (hProposed : Proposed cfg od new)
    (hHighest : Highest cfg od) {i : Fin n}
    (hMem : i ∈ leaders od) :
    message new i.val =
      signbyte cfg (od.heights i 0).rawBC := by
  have hBlock := hHighest.leader hMem
  have hLeader :
      Int32.ofNat (i.val + 1) =
        (od.heights i 0).rawBC.leader :=
    int32_ofNat_of_toInt (Crypto.key_eq_some.mp hBlock.leader)
  have hSid : (od.heights i 0).rawBC.k = 1 := by
    have hOne := Crypto.key_eq_some.mp hBlock.sid
    rw [Fin.val_zero] at hOne
    exact (int32_ofNat_of_toInt hOne).symm
  unfold message signbyte
  rw [List.getD_eq_getElem?_getD, List.getD_eq_getElem?_getD,
    hProposed.hash i hMem, hProposed.heights, hLeader, hSid,
    hHighest.hs]
  rfl

/- The members that the check reads off a bitmap. -/
theorem Proposed.members_perm
    (hProposed : Proposed cfg od new) {i : Fin n}
    (hMem : i ∈ leaders od) :
    (members new n i.val).Perm (batchOf od i).mems.dedup := by
  rcases hProposed.mems i hMem with ⟨bitmap, hAt, hWritten⟩
  unfold members
  rw [List.getD_eq_getElem?_getD, hAt, Option.getD_some]
  exact int32s2bytes_perm hWritten

/- A certificate of BLS, as a part of an aggregate. -/
theorem certifies_bls
    {rawBC : RawBC} {batch : BatchSignature}
    (hType : cfg.type = .bls)
    (hCertifies : Certifies cfg rawBC batch) :
    (∀ mem ∈ batch.mems, (Crypto.key n mem).isSome) ∧
      cfg.prim.fastAggregateVerify batch.signs
          (batch.mems.filterMap (Crypto.key n))
          (signbyte cfg rawBC) =
        some true := by
  unfold Certifies Crypto.batchSignatureVerify at hCertifies
  rw [hType] at hCertifies
  dsimp only at hCertifies
  split at hCertifies
  · cases hCertifies
  · rename_i pks hKeys
    rcases Crypto.mapM_eq_some_iff.mp hKeys with
      ⟨hAll, rfl⟩
    exact ⟨hAll, hCertifies⟩

/- A bitmap has lost something when a member is repeated. -/
theorem Proposed.signers_perm_iff
    (hProposed : Proposed cfg od new) {i : Fin n}
    (hMem : i ∈ leaders od)
    (hKeys :
      ∀ mem ∈ (batchOf od i).mems,
        (Crypto.key n mem).isSome) :
    (signers n new n i.val).Perm
        ((batchOf od i).mems.filterMap (Crypto.key n)) ↔
      (batchOf od i).mems.Nodup := by
  have hSigners :
      (signers n new n i.val).Perm
        ((batchOf od i).mems.dedup.filterMap
          (Crypto.key n)) :=
    (hProposed.members_perm hMem).filterMap _
  constructor
  · intro hPerm
    have hLength := (hSigners.symm.trans hPerm).length_eq
    rw [List.filterMap_length_eq_length.mpr hKeys,
      List.filterMap_length_eq_length.mpr
        (fun mem hDedup =>
          hKeys mem (List.mem_dedup.mp hDedup))] at hLength
    rw [← List.dedup_eq_self]
    exact
      (List.dedup_sublist (batchOf od i).mems).eq_of_length
        hLength
  · intro hNodup
    rw [hNodup.dedup] at hSigners
    exact hSigners

/- The messages of the parts differ by their leaders. -/
theorem parts_nodup
    (hHighest : Highest cfg od) :
    ((parts cfg od).map Crypto.Part.msg).Nodup := by
  unfold parts
  rw [List.map_map]
  refine
    (List.nodup_map_iff_inj_on
      ((List.nodup_finRange n).filter _)).mpr ?_
  intro i hMem i' hMem' hEq
  have hLeader := (signbyte_inj hEq).2.2.1
  have hKey := (hHighest.leader hMem).leader
  rw [hLeader, (hHighest.leader hMem').leader] at hKey
  exact (Option.some.inj hKey).symm

/- When the aggregate of the proposal verifies. -/
theorem Proposed.aggregated_iff
    (hProposed : Proposed cfg od new)
    (hHighest : Highest cfg od)
    (hType : cfg.type = .bls)
    (hBilinear :
      Crypto.Bilinear cfg.prim (parts cfg od)) :
    aggregated cfg n new = some true ↔
      leaders od ≠ [] ∧
        ∀ i ∈ leaders od, (batchOf od i).mems.Nodup := by
  have hVerify :
      ∀ part ∈ parts cfg od,
        cfg.prim.fastAggregateVerify part.signs part.ids
            part.msg =
          some true := by
    intro part hPart
    rcases List.mem_map.mp hPart with ⟨i, hMem, rfl⟩
    exact
      (certifies_bls hType (hHighest.batchOf_eq hMem).2).2
  have hAggregate :
      cfg.prim.blsAggregate
          ((parts cfg od).map Crypto.Part.signs) =
        some new.aggQC := by
    have hAgg := hProposed.aggQC
    unfold Crypto.qcAggregate at hAgg
    rw [hType, List.length_map, List.length_map] at hAgg
    dsimp only at hAgg
    rw [if_pos (Nat.le_refl _),
      List.take_of_length_le
        (Nat.le_of_eq (List.length_map _))] at hAgg
    unfold parts
    rw [List.map_map]
    exact hAgg
  have hMessages :
      (withBlock new n).map (message new) =
        (parts cfg od).map Crypto.Part.msg := by
    rw [hProposed.withBlock_eq]
    unfold parts
    rw [List.map_map, List.map_map]
    apply List.map_congr_left
    intro i hMem
    exact hProposed.message_eq hHighest hMem
  have hPks :
      (withBlock new n).map (signers n new n) =
        (leaders od).map fun i => signers n new n i.val := by
    rw [hProposed.withBlock_eq, List.map_map]
    rfl
  unfold aggregated
  rw [hMessages, hPks,
    hBilinear hVerify (parts_nodup hHighest) _ hAggregate]
  apply and_congr
  · rw [Ne, List.map_eq_nil_iff]
  · unfold parts
    rw [List.map_map, List.forall₂_map_left_iff,
      List.forall₂_map_right_iff, List.forall₂_same]
    apply forall₂_congr
    intro i hMem
    exact
      hProposed.signers_perm_iff hMem
        (certifies_bls hType (hHighest.batchOf_eq hMem).2).1

/- The heights of the proposal against one commit. -/
theorem Proposed.raised_iff
    {old : QCaggProof} {num : Nat}
    (hProposed : Proposed cfg od new)
    (hOld :
      @Order.newCommit .cbcQCagg n K old =
        some od.lastCommit)
    (hReady : checkInput od.hs od.lastCommit = true)
    (hNum : n ≤ num) :
    Raised num old new ↔
      num = n ∧
        n * 2 / 3 <
          (List.finRange n).countP fun i =>
            od.lastCommit i 0 < (od.hs i 0).toInt := by
  have hAt (i : Fin n) :
      ∃ oldHeight, old.heights[i.val]? = some oldHeight ∧
        od.lastCommit i 0 = oldHeight.toInt := by
    rcases newCommit_eq_some.mp hOld i 0 with
      ⟨oldHeight, hHeight, hCommit⟩
    refine ⟨oldHeight, ?_, hCommit⟩
    have hFirst : position i (0 : Fin K) = i.val := by
      unfold position
      rw [Fin.val_zero, Nat.zero_mul, Nat.zero_add]
    rw [← hFirst]
    exact hHeight
  have hNotLower :
      ∀ i < n, NotLower new.heights old.heights i := by
    intro i hLt
    rcases hAt ⟨i, hLt⟩ with ⟨oldHeight, hOldAt, hCommit⟩
    refine
      ⟨_, oldHeight, hProposed.heights ⟨i, hLt⟩, hOldAt, ?_⟩
    rw [Int32.le_iff_toInt_le, ← hCommit]
    exact (checkInput_eq_true.mp hReady).1 ⟨i, hLt⟩ 0
  have hCount :
      ((List.range n).countP fun i =>
          new.heights[i]?.any fun height =>
            old.heights[i]?.any (· < height)) =
        (List.finRange n).countP fun i =>
          od.lastCommit i 0 < (od.hs i 0).toInt := by
    rw [range_eq_map_finRange, List.countP_map]
    apply List.countP_congr
    intro i _
    rcases hAt i with ⟨oldHeight, hOldAt, hCommit⟩
    rw [Function.comp_apply, hProposed.heights, hOldAt,
      Option.any_some, Option.any_some, decide_eq_true_iff,
      decide_eq_true_iff, Int32.lt_iff_toInt_lt, hCommit]
  constructor
  · rintro ⟨hAll, hEnough⟩
    have hSame : num = n := by
      by_contra hNot
      rcases hAll n (by omega) with ⟨_, _, hHeight, _⟩
      have hBound := (List.getElem?_eq_some_iff.mp hHeight).1
      rw [hProposed.heightsLength] at hBound
      exact absurd hBound (Nat.lt_irrefl n)
    subst hSame
    rw [hCount] at hEnough
    exact ⟨rfl, hEnough⟩
  · rintro ⟨rfl, hEnough⟩
    refine ⟨hNotLower, ?_⟩
    rw [hCount]
    exact hEnough

/- The aggregated proposal against one commit. -/
theorem aggregated_accepted_iff
    {old : QCaggProof} {num : Nat}
    (hHighest : Highest cfg od)
    (hOld :
      @Order.newCommit .cbcQCagg n K old =
        some od.lastCommit)
    (hReady : checkInput od.hs od.lastCommit = true)
    (hNum : n ≤ num)
    (hNew : generateInputQCagg cfg od.heights = some new)
    (hBilinear :
      cfg.type = .bls →
        Crypto.Bilinear cfg.prim (parts cfg od)) :
    checkInputsQCagg cfg num (some old) new = .ok true ↔
      Aggregates cfg num od := by
  have hProposed := proposed hHighest hNew
  rw [checkInputsQCagg_eq_true,
    hProposed.raised_iff hOld hReady hNum]
  -- a bitmap names nobody when its certificate does
  have hMembers (i : Fin n) (hMem : i ∈ leaders od) :
      members new n i.val = [] ↔
        (batchOf od i).mems = [] := by
    have hPerm := hProposed.members_perm hMem
    constructor
    · intro hNil
      rw [hNil] at hPerm
      apply List.eq_nil_iff_forall_not_mem.mpr
      intro mem hIn
      exact
        List.not_mem_nil
          (hPerm.mem_iff.mpr (List.mem_dedup.mpr hIn))
    · intro hNil
      rw [hNil] at hPerm
      exact hPerm.eq_nil
  constructor
  · rintro ⟨⟨rfl, hEnough⟩, _, hBls⟩
    refine ⟨rfl, hEnough, fun hType => ?_⟩
    rcases hBls hType with ⟨hDecodes, hVerify⟩
    rcases (hProposed.aggregated_iff hHighest hType
      (hBilinear hType)).mp hVerify with ⟨hSome, hNodup⟩
    refine ⟨hSome, fun i hMem => ⟨?_, hNodup i hMem⟩⟩
    intro hNil
    have hIn : i.val ∈ withBlock new num := by
      rw [hProposed.withBlock_eq]
      exact List.mem_map.mpr ⟨i, hMem, rfl⟩
    exact
      (hDecodes i.val hIn).1 ((hMembers i hMem).mpr hNil)
  · rintro ⟨rfl, hEnough, hOnce⟩
    refine
      ⟨⟨rfl, hEnough⟩, hProposed.present, fun hType => ?_⟩
    rcases hOnce hType with ⟨hSome, hEach⟩
    constructor
    · intro m hIn
      rw [hProposed.withBlock_eq] at hIn
      rcases List.mem_map.mp hIn with ⟨i, hMem, rfl⟩
      refine
        ⟨fun hNil =>
          (hEach i hMem).1 ((hMembers i hMem).mp hNil), ?_⟩
      intro mem hMember
      have hIn :=
        (hProposed.members_perm hMem).mem_iff.mp hMember
      exact
        (certifies_bls hType (hHighest.batchOf_eq hMem).2).1
          mem (List.mem_dedup.mp hIn)
    · exact
        (hProposed.aggregated_iff hHighest hType
          (hBilinear hType)).mpr
          ⟨hSome, fun i hMem => (hEach i hMem).2⟩

/-
  A party that is ready has proposed. Its proposal passes
  the check of another party with the same last commit, and
  whatever blocks that one holds, exactly when they agree,
  and exactly when it can be aggregated.
-/
theorem proposal_accepted_iff
    (cfg : Config n) (K : Nat) [NeZero K] :
    (∀ (od : Order n K .cbc) (table : Table n K)
        (new : List HighProof),
      (order n K .cbc).ReachableBy (Delivers cfg) od →
        checkInput od.hs od.lastCommit = true →
          generateInput cfg od.heights .cbc = some new →
            (checkInputs cfg (n * K) table od.decided new =
                .ok true ↔
              ∀ old, od.decided = some old →
                Agrees od table old)) ∧
      ∀ (usingDumboMVBA : Bool) (od : Order n K .cbcQCagg)
        (new : QCaggProof),
        let num := if usingDumboMVBA then n * K else n
        (order n K .cbcQCagg).ReachableBy (Delivers cfg) od →
          checkInput od.hs od.lastCommit = true →
            generateInput cfg od.heights .cbcQCagg =
                some new →
              (cfg.type = .bls →
                Crypto.Bilinear cfg.prim (parts cfg od)) →
                (checkInputsQCagg cfg num od.decided new =
                    .ok true ↔
                  ∀ old, od.decided = some old →
                    Aggregates cfg num od) := by
  constructor
  · intro od table new hReach hReady hNew
    cases hNew
    cases hDecided : od.decided with
    | none =>
        constructor
        · intro _ old hOld
          cases hOld
        · exact fun _ => rfl
    | some old =>
        refine
          (highProofs_accepted_iff (highest hReach)
            ((tracks hReach).later old hDecided) hReady).trans
            ?_
        constructor
        · rintro hAgrees _ ⟨⟩
          exact hAgrees
        · exact fun h => h old rfl
  · intro usingDumboMVBA od new num hReach hReady hNew
      hBilinear
    have hNum : n ≤ num := by
      dsimp only [num]
      split
      · exact Nat.le_mul_of_pos_right n (Nat.pos_of_neZero K)
      · exact Nat.le_refl n
    cases hDecided : od.decided with
    | none =>
        constructor
        · intro _ old hOld
          cases hOld
        · exact fun _ => rfl
    | some old =>
        refine
          (aggregated_accepted_iff (highest hReach)
            ((tracks hReach).later old hDecided) hReady hNum
            hNew hBilinear).trans ?_
        constructor
        · exact fun hAggregates _ _ => hAggregates
        · exact fun h => h old rfl

end Aggregated

------------------------------------------------------------
-- Different Certificates
------------------------------------------------------------

/- A block with a certificate of three parties. -/
def signedBlock (b : UInt8) (leader height : Int32) : BCBlock :=
  { plainBlock leader height with
    batchSigns := some ⟨List.replicate 192 b, [1, 2, 3]⟩ }

/- The certificate is valid. -/
theorem signedBlock_certified
    (b : UInt8) (leader height : Int32) :
    ∃ batch,
      (signedBlock b leader height).batchSigns = some batch ∧
        Certifies plainConfig
          (signedBlock b leader height).rawBC batch := by
  refine ⟨_, rfl, ?_⟩
  unfold Certifies Crypto.batchSignatureVerify
  dsimp only [plainConfig]
  rw [List.length_replicate]
  rfl

/- Two blocks of three leaders, around a first output. -/
def twoBlocks
    {type : BroadcastType} (output : Input type) (b : UInt8) :
    List (OrderAction type) :=
  [.output output, .arrive (signedBlock b 1 0),
    .arrive (signedBlock b 2 0), .arrive (signedBlock b 3 0),
    .cut, .arrive (signedBlock b 1 1),
    .arrive (signedBlock b 2 1), .arrive (signedBlock b 3 1)]

/- Where the run with two blocks of each leader ends. -/
def twoBlocksState
    (K : Nat) {type : BroadcastType} (output : Input type) :
    Order 4 K type :=
  (order 4 K type).drive (fun _ _ => true) Order.new
    (twoBlocks output 0)

/- All its blocks are certified. -/
theorem twoBlocks_reachable
    {cfg : Config 4} {K : Nat} {type : BroadcastType}
    (output : Input type)
    (hCertified :
      ∀ leader height, ∃ batch,
        (signedBlock 0 leader height).batchSigns =
            some batch ∧
          Certifies cfg (signedBlock 0 leader height).rawBC
            batch) :
    (order 4 K type).ReachableBy (Delivers cfg)
      (twoBlocksState K output) := by
  refine Machine.ReachableBy.run .init (twoBlocks output 0) ?_
  intro i a hAction
  match i with
  | 0 | 4 =>
      cases hAction
      exact trivial
  | 1 | 2 | 3 | 5 | 6 | 7 =>
      cases hAction
      exact hCertified _ _
  | i + 8 => cases hAction

/- BLS for batches of the first three parties. -/
def threeConfig : Config 4 where
  prim :=
    { plainConfig.prim with
      blsAggregate := fun _ => some [1]
      fastAggregateVerify := fun _ ids _ =>
        some (ids = [0, 1, 2])
      verifyAggregateHashes := fun qcs pks msgs =>
        some
          (qcs = [1] ∧ pks ≠ [] ∧
            List.Forall₂ List.Perm pks
              (msgs.map fun _ => [0, 1, 2])) }
  type := .bls
  hash := plainConfig.hash

/- Aggregates verify as their parts do. -/
theorem threeConfig_bilinear
    (parts : List (Crypto.Part 4)) :
    Crypto.Bilinear threeConfig.prim parts := by
  intro hVerify _ qcs hAggregate pks
  cases hAggregate
  have hIds :
      parts.map Crypto.Part.ids =
        (parts.map Crypto.Part.msg).map fun _ =>
          [0, 1, 2] := by
    rw [List.map_map]
    apply List.map_congr_left
    intro part hPart
    exact
      of_decide_eq_true (Option.some.inj (hVerify part hPart))
  rw [hIds]
  unfold threeConfig
  dsimp only
  rw [Option.some.injEq, decide_eq_true_iff]
  exact and_iff_right rfl

/- The certificates are valid there, too. -/
theorem threeConfig_certified (leader height : Int32) :
    ∃ batch,
      (signedBlock 0 leader height).batchSigns = some batch ∧
        Certifies threeConfig
          (signedBlock 0 leader height).rawBC batch :=
  ⟨_, rfl, rfl⟩

/- The state of the aggregated proposals. -/
def threeState : Order 4 1 .cbcQCagg :=
  twoBlocksState 1 (threeBlocks [7])

/- Three of the first four slots rise. -/
def proofsState (K : Nat) : Order 4 K .cbc :=
  twoBlocksState K
    (plainProofs 0 ++
      List.replicate (4 * K - 4) (plainProof 1 (-1)))

/- Both kinds of proposals are accepted. -/
theorem proposal_accepted_iff_three :
    (∃ new old,
      generateInput plainConfig (proofsState 1).heights .cbc =
          some new ∧
        (proofsState 1).decided = some old ∧
          Agrees (proofsState 1) (proofsState 1).oldBCBlocks
            old) ∧
      ∃ new old,
        generateInput threeConfig threeState.heights
              .cbcQCagg =
            some new ∧
          threeState.decided = some old ∧
            checkInputsQCagg threeConfig 4 (some old) new =
              .ok true := by
  constructor
  · refine ⟨_, _, rfl, rfl, ?_⟩
    refine
      ((proposal_accepted_iff plainConfig 1).1
        (proofsState 1) _ _
        (twoBlocks_reachable _ (signedBlock_certified 0))
        (by decide +kernel) rfl).mp ?_ _ rfl
    decide +kernel
  · have hSome :
        (generateInput threeConfig threeState.heights
          .cbcQCagg).isSome = true := by
      decide +kernel
    rcases Option.isSome_iff_exists.mp hSome with ⟨new, hNew⟩
    refine ⟨new, _, hNew, rfl, ?_⟩
    refine
      ((proposal_accepted_iff threeConfig 1).2 false threeState
        new
        (twoBlocks_reachable _ threeConfig_certified)
        (by decide +kernel) hNew
        (fun _ => threeConfig_bilinear _)).mpr ?_
    intro old _
    exact
      ⟨rfl, by decide +kernel, fun _ => by decide +kernel⟩

/- The same blocks under other certificates. -/
def otherTable : Table 4 1 := fun i _ =>
  [signedBlock 1 (Int32.ofNat (i.val + 1)) 1,
    signedBlock 1 (Int32.ofNat (i.val + 1)) 2]

/- The other table holds certified blocks. -/
theorem otherTable_valid :
    ValidTable plainConfig otherTable where
  sorted := by
    change
      ∀ i j, (otherTable i j).Pairwise
        fun block block' => height block < height block'
    decide +kernel
  filed := by decide +kernel
  certified := by
    intro i j block hMem
    rcases List.mem_cons.mp hMem with rfl | hMem
    · exact signedBlock_certified 1 _ _
    · rw [List.mem_singleton.mp hMem]
      exact signedBlock_certified 1 _ _

/-
  With two instances the proposal of a party that is ready
  has too few entries that rise. With one it is refused by
  a party that holds the blocks with other certificates.
-/
theorem proposal_refused :
    (∃ new,
      (order 4 2 .cbc).ReachableBy (Delivers plainConfig)
          (proofsState 2) ∧
        checkInput (proofsState 2).hs
            (proofsState 2).lastCommit =
          true ∧
        generateInput plainConfig (proofsState 2).heights
            .cbc =
          some new ∧
        checkInputs plainConfig (4 * 2)
            (proofsState 2).oldBCBlocks
            (proofsState 2).decided new =
          .ok false) ∧
      ∃ new,
        (order 4 1 .cbc).ReachableBy (Delivers plainConfig)
            (proofsState 1) ∧
          checkInput (proofsState 1).hs
              (proofsState 1).lastCommit =
            true ∧
          generateInput plainConfig (proofsState 1).heights
              .cbc =
            some new ∧
          ValidTable plainConfig otherTable ∧
          checkInputs plainConfig (4 * 1) otherTable
              (proofsState 1).decided new =
            .ok false := by
  constructor
  · exact
      ⟨_, twoBlocks_reachable _ (signedBlock_certified 0),
        by decide +kernel, rfl, by decide +kernel⟩
  · exact
      ⟨_, twoBlocks_reachable _ (signedBlock_certified 0),
        by decide +kernel, rfl, otherTable_valid,
        by decide +kernel⟩

end Ordering

end Jumbo
