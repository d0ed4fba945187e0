import Jumbo.Ordering.Forward

/-
  What the check of high proofs lets through.

  An entry is compared with the blocks held when there are
  enough of them, and its certificate is verified otherwise.
  The comparison looks at the signatures only, neither path
  looks at the leader and instance that the entry belongs
  to, and differences of 32 bits wrap.

  Main declarations:
    * `ValidTable`
    * `Covered` and `Sound`
    * `OutOfRange` and `EntryPasses`
    * `SaneEntry` and `Trusted`
    * `checkInputs_sound_iff`
-/

------------------------------------------------------------
-- Sound Vectors
------------------------------------------------------------

namespace Jumbo

namespace Ordering

open Protocol
open Struct

variable {n K : Nat}

/- The batch is a certificate for exactly this block. -/
def Certifies
    (cfg : Config n) (rawBC : RawBC)
    (batch : BatchSignature) : Prop :=
  Crypto.batchSignatureVerify cfg.prim cfg.type batch.signs
    (signbyte cfg rawBC) batch.mems = some true

/- The blocks held: sorted, well filed and certified. -/
structure ValidTable
    (cfg : Config n) (table : Table n K) : Prop where
  sorted :
    ∀ i j, SortedBuffer.Sorted height (table i j)
  filed :
    ∀ i j, ∀ block ∈ table i j,
      Crypto.key n block.rawBC.leader = some i ∧
        Crypto.key K block.rawBC.k = some j
  certified :
    ∀ i j, ∀ block ∈ table i j, ∃ batch,
      block.batchSigns = some batch ∧
        Certifies cfg block.rawBC batch

/- The block of an entry, if there is one. -/
def rawAt (hps : List HighProof) (m : Nat) : Option RawBC :=
  hps[m]?.bind (·.rawBC)

/- A certificate for the block comes along or is held. -/
def Covered
    (cfg : Config n) (table : Table n K) (hp : HighProof)
    (rawBC : RawBC) (i : Fin n) (j : Fin K) : Prop :=
  ∃ batch, Certifies cfg rawBC batch ∧
    (hp.batchSigns = some batch ∨
      ∃ block ∈ table i j,
        block.rawBC = rawBC ∧ block.batchSigns = some batch)

/- What an entry that is raised has to name. -/
def RaisedFor
    (cfg : Config n) (table : Table n K) (hp : HighProof)
    (rawBC : RawBC) (i : Fin n) (j : Fin K) : Prop :=
  Crypto.key n rawBC.leader = some i ∧
    Crypto.key K rawBC.k = some j ∧
      Covered cfg table hp rawBC i j

/- Every entry that went on has a certificate or is held. -/
structure Sound
    (cfg : Config n) (table : Table n K)
    (old new : List HighProof) : Prop where
  entry :
    ∀ i j, ∃ hp rawBC oldBC,
      new[position i j]? = some hp ∧
        hp.rawBC = some rawBC ∧
          rawAt old (position i j) = some oldBC ∧
            oldBC.height ≤ rawBC.height ∧
              (oldBC.height < rawBC.height →
                RaisedFor cfg table hp rawBC i j)
  enough :
    n * K * 2 / 3 <
      (slots n K).countP fun (i, j) =>
        (rawAt new (position i j)).any fun rawBC =>
          (rawAt old (position i j)).any
            (·.height < rawBC.height)

end Ordering

end Jumbo

------------------------------------------------------------
-- Single Entries
------------------------------------------------------------

namespace Jumbo

namespace Ordering

open Protocol
open Struct

variable {n K : Nat}

/- The block of an entry and the one committed last. -/
def Blocks
    (entry : HighProof × HighProof) (rawBC oldBC : RawBC) :
    Prop :=
  entry.1.rawBC = some rawBC ∧ entry.2.rawBC = some oldBC

/- The blocks held reach far enough to be compared with. -/
def Comparable
    (table : Table n K) (rawBC oldBC : RawBC)
    (i : Fin n) (j : Fin K) : Prop :=
  (rawBC.height - oldBC.height).toInt < (table i j).length

/-
  A leader or instance that does not exist, or a height
  beyond the blocks held.
-/
def OutOfRange
    (table : Table n K) (entry : HighProof × HighProof) :
    Prop :=
  ∃ rawBC oldBC, Blocks entry rawBC oldBC ∧
    0 < rawBC.height - oldBC.height ∧
      (Crypto.key n rawBC.leader = none ∨
        Crypto.key K rawBC.k = none ∨
          ∃ i j first rest batch,
            Crypto.key n rawBC.leader = some i ∧
              Crypto.key K rawBC.k = some j ∧
                Comparable table rawBC oldBC i j ∧
                  table i j = first :: rest ∧
                    entry.1.batchSigns = some batch ∧
                      0 ≤ rawBC.height - first.rawBC.height ∧
                        (table i j)[(rawBC.height -
                          first.rawBC.height).toInt.toNat]? =
                          none)

/- The comparison with the blocks held finds no difference. -/
def TableAgrees
    (blocks : List BCBlock) (hp : HighProof) (rawBC : RawBC) :
    Prop :=
  ∃ first rest, blocks = first :: rest ∧
    (¬ 0 ≤ rawBC.height - first.rawBC.height ∨
      ∃ batch block held,
        0 ≤ rawBC.height - first.rawBC.height ∧
          hp.batchSigns = some batch ∧
            blocks[(rawBC.height -
              first.rawBC.height).toInt.toNat]? =
              some block ∧
              block.batchSigns = some held ∧
                batch.signs = held.signs)

/-
  The entry is not below the last commit, or it is above and
  agrees with the blocks held or has a certificate.
-/
def EntryPasses
    (cfg : Config n) (table : Table n K)
    (entry : HighProof × HighProof) : Prop :=
  ∃ rawBC oldBC, Blocks entry rawBC oldBC ∧
    (¬ 0 < rawBC.height - oldBC.height ∧
        oldBC.height ≤ rawBC.height ∨
      0 < rawBC.height - oldBC.height ∧
        ∃ i j, Crypto.key n rawBC.leader = some i ∧
          Crypto.key K rawBC.k = some j ∧
            (Comparable table rawBC oldBC i j ∧
                TableAgrees (table i j) entry.1 rawBC ∨
              ¬ Comparable table rawBC oldBC i j ∧
                ∃ batch, entry.1.batchSigns = some batch ∧
                  Certifies cfg rawBC batch))

section Entries

variable {cfg : Config n} {table : Table n K}
variable {entry : HighProof × HighProof}
variable {hp : HighProof} {rawBC oldBC : RawBC}

/- The table agrees with the entry. -/
theorem checkTable_eq_true
    {blocks : List BCBlock} :
    checkTable blocks hp rawBC = .ok true ↔
      TableAgrees blocks hp rawBC := by
  unfold checkTable TableAgrees
  cases blocks with
  | nil => simp
  | cons first rest =>
      dsimp only
      constructor
      · intro hCheck
        refine ⟨first, rest, rfl, ?_⟩
        split at hCheck
        · rename_i hFrom
          right
          split at hCheck
          · cases hCheck
          · cases hCheck
          · rename_i batch block hBatch hBlock
            split at hCheck
            · cases hCheck
            · rename_i held hHeld
              injection hCheck with hEq
              exact
                ⟨batch, block, held, hFrom, hBatch, hBlock,
                  hHeld, of_decide_eq_true hEq⟩
        · rename_i hNot
          exact .inl hNot
      · rintro ⟨first', rest', hCons, hCase⟩
        cases hCons
        rcases hCase with
          hNot |
          ⟨batch, block, held, hFrom, hBatch, hBlock, hHeld,
            hEq⟩
        · rw [if_neg hNot]
        · rw [if_pos hFrom, hBatch, hBlock]
          dsimp only
          rw [hHeld]
          dsimp only
          rw [decide_eq_true hEq]

/- There is a certificate and it is valid. -/
theorem checkCertificate_eq_true :
    checkCertificate cfg hp rawBC = .ok true ↔
      ∃ batch, hp.batchSigns = some batch ∧
        Certifies cfg rawBC batch := by
  unfold checkCertificate Certifies
  cases hBatch : hp.batchSigns with
  | none => simp
  | some batch =>
      dsimp only
      cases hVerify :
          Crypto.batchSignatureVerify cfg.prim cfg.type
            batch.signs (signbyte cfg rawBC) batch.mems with
      | none => simp [hVerify]
      | some res => simp [hVerify]

/- What passing the check of an entry means. -/
theorem passes_iff :
    passes cfg table entry = true ↔
      EntryPasses cfg table entry := by
  have hOutcome :
      passes cfg table entry = true ↔
        checkEntry cfg table entry.1 entry.2 =
            .ok (some true) ∨
          checkEntry cfg table entry.1 entry.2 =
            .ok (some false) := by
    unfold passes
    split
    · rename_i res hCheck
      rw [hCheck]
      cases res <;> simp
    · rename_i hCheck
      simp only [Bool.false_eq_true, false_iff, not_or]
      exact ⟨fun h => hCheck _ h, fun h => hCheck _ h⟩
  rw [hOutcome, checkEntry_eq_true, checkEntry_eq_false]
  unfold EntryPasses Blocks Comparable
  constructor
  · rintro
      (⟨rawBC, oldBC, i, j, hRaw, hOld, hPos, hLeader, hSid,
        hHigher⟩ | ⟨rawBC, oldBC, hRaw, hOld, hNot, hLow⟩)
    · refine
        ⟨rawBC, oldBC, ⟨hRaw, hOld⟩,
          .inr ⟨hPos, i, j, hLeader, hSid, ?_⟩⟩
      unfold checkHigher at hHigher
      split at hHigher
      · rename_i hLess
        exact .inl ⟨hLess, checkTable_eq_true.mp hHigher⟩
      · rename_i hLess
        exact
          .inr ⟨hLess, checkCertificate_eq_true.mp hHigher⟩
    · exact
        ⟨rawBC, oldBC, ⟨hRaw, hOld⟩,
          .inl ⟨hNot, Int32.not_lt.mp hLow⟩⟩
  · rintro ⟨rawBC, oldBC, ⟨hRaw, hOld⟩, hCase⟩
    rcases hCase with
      ⟨hNot, hLe⟩ | ⟨hPos, i, j, hLeader, hSid, hPath⟩
    · exact
        .inr
          ⟨rawBC, oldBC, hRaw, hOld, hNot,
            Int32.not_lt.mpr hLe⟩
    · refine
        .inl
          ⟨rawBC, oldBC, i, j, hRaw, hOld, hPos, hLeader,
            hSid, ?_⟩
      unfold checkHigher
      rcases hPath with ⟨hLess, hAgrees⟩ | ⟨hLess, hBatch⟩
      · rw [if_pos hLess]
        exact checkTable_eq_true.mpr hAgrees
      · rw [if_neg hLess]
        exact checkCertificate_eq_true.mpr hBatch

/- When the check of an entry indexes out of range. -/
theorem checkEntry_eq_index :
    checkEntry cfg table entry.1 entry.2 = .error .index ↔
      OutOfRange table entry := by
  unfold checkEntry
  constructor
  · intro hCheck
    split at hCheck
    · rename_i rawBC oldBC hRaw hOld
      dsimp only at hCheck
      split at hCheck
      · rename_i hPos
        refine ⟨rawBC, oldBC, ⟨hRaw, hOld⟩, hPos, ?_⟩
        split at hCheck
        · rename_i i j hLeader hSid
          right
          right
          split at hCheck
          · rename_i hLess
            cases hBlocks : table i j with
            | nil =>
                rw [hBlocks] at hLess
                have hDiff := Int32.lt_iff_toInt_lt.mp hPos
                simp only [Int32.toInt_zero, List.length_nil,
                  Int.natCast_zero] at hDiff hLess
                omega
            | cons first rest =>
                refine
                  ⟨i, j, first, rest, ?_⟩
                rw [hBlocks] at hCheck
                unfold checkTable at hCheck
                dsimp only at hCheck
                split at hCheck
                · rename_i hFrom
                  split at hCheck
                  · cases hCheck
                  · rename_i batch hBatch hNone
                    refine
                      ⟨batch, hLeader, hSid, hLess, hBlocks,
                        hBatch, hFrom, ?_⟩
                    rw [hBlocks]
                    exact hNone
                  · split at hCheck <;> cases hCheck
                · cases hCheck
          · unfold checkCertificate at hCheck
            split at hCheck
            · cases hCheck
            · split at hCheck <;> cases hCheck
        · rename_i hNone
          by_cases hLeader :
              Crypto.key n rawBC.leader = none
          · exact .inl hLeader
          · rcases Option.ne_none_iff_exists'.mp hLeader with
              ⟨i, hi⟩
            right
            left
            by_contra hSid
            rcases Option.ne_none_iff_exists'.mp hSid with
              ⟨j, hj⟩
            exact hNone i j hi hj
      · split at hCheck <;> cases hCheck
    · cases hCheck
  · rintro ⟨rawBC, oldBC, ⟨hRaw, hOld⟩, hPos, hCase⟩
    rw [hRaw, hOld]
    dsimp only
    rw [if_pos hPos]
    rcases hCase with
      hLeader | hSid |
        ⟨i, j, first, rest, batch, hLeader, hSid, hLess,
          hBlocks, hBatch, hFrom, hNone⟩
    · rw [hLeader]
    · rw [hSid]
      split
      · rename_i h
        cases h
      · rfl
    · rw [hLeader, hSid]
      dsimp only
      unfold Comparable at hLess
      rw [if_pos hLess]
      rw [hBlocks] at hNone ⊢
      unfold checkTable
      dsimp only
      rw [if_pos hFrom, hBatch, hNone]
      rfl

end Entries

end Ordering

end Jumbo

------------------------------------------------------------
-- Whole Vectors
------------------------------------------------------------

namespace Jumbo

namespace Ordering

open Protocol
open Struct

variable {n K : Nat}

/- An entry that counts as higher. -/
def rises (entry : HighProof × HighProof) : Bool :=
  entry.1.rawBC.any fun rawBC =>
    entry.2.rawBC.any fun oldBC =>
      0 < rawBC.height - oldBC.height

/- The entry comes with a certificate that verifies. -/
def OwnCertificate
    (cfg : Config n) (hp : HighProof) (rawBC : RawBC) : Prop :=
  ∃ batch, hp.batchSigns = some batch ∧
    Certifies cfg rawBC batch

/- The bytes that the fast path compares are equal. -/
def SameSigns (hp : HighProof) (block : BCBlock) : Prop :=
  ∃ batch held, hp.batchSigns = some batch ∧
    block.batchSigns = some held ∧ batch.signs = held.signs

/- Enough blocks are held, the first of them higher up. -/
def BelowHeld
    (table : Table n K) (rawBC oldBC : RawBC)
    (i : Fin n) (j : Fin K) : Prop :=
  Comparable table rawBC oldBC i j ∧
    ∃ first rest, table i j = first :: rest ∧
      ¬ 0 ≤ rawBC.height - first.rawBC.height

/-
  What the check relies on for an entry and does not look at.

  The entry is not so low that the difference wraps. A raised
  entry names the leader and the instance of its position. In
  the blocks held there is one at its place, and equal bytes
  mean an equal block. And an entry that no path looks at,
  below the blocks held or too high for a difference of 32
  bits, is covered.
-/
structure SaneEntry
    (cfg : Config n) (table : Table n K) (hp : HighProof)
    (rawBC oldBC : RawBC) (i : Fin n) (j : Fin K) : Prop where
  near : oldBC.height.toInt - rawBC.height.toInt ≤ 2 ^ 31
  named :
    oldBC.height < rawBC.height →
      Crypto.key n rawBC.leader = some i ∧
        Crypto.key K rawBC.k = some j
  held :
    oldBC.height < rawBC.height →
      Comparable table rawBC oldBC i j →
        ∀ first rest, table i j = first :: rest →
          0 ≤ rawBC.height - first.rawBC.height →
            ∃ block,
              (table i j)[(rawBC.height -
                first.rawBC.height).toInt.toNat]? =
                some block ∧
                (SameSigns hp block →
                  block.rawBC = rawBC ∨
                    OwnCertificate cfg hp rawBC)
  unchecked :
    oldBC.height < rawBC.height →
      (¬ 0 < rawBC.height - oldBC.height ∨
        BelowHeld table rawBC oldBC i j) →
        Covered cfg table hp rawBC i j

/- The entries of a vector and of the last commit are sane. -/
def Sane
    (cfg : Config n) (table : Table n K)
    (old new : List HighProof) : Prop :=
  ∀ i j hp rawBC oldBC,
    new[position i j]? = some hp →
      hp.rawBC = some rawBC →
        rawAt old (position i j) = some oldBC →
          SaneEntry cfg table hp rawBC oldBC i j

/-
  What is left to the proposer in a vector that is accepted:
  entries whose certificate has been verified only have to
  stand at their own position.
-/
def Trusted
    (cfg : Config n) (table : Table n K)
    (old new : List HighProof) : Prop :=
  ∀ i j hp rawBC oldBC,
    new[position i j]? = some hp →
      hp.rawBC = some rawBC →
        rawAt old (position i j) = some oldBC →
          oldBC.height.toInt - rawBC.height.toInt ≤ 2 ^ 31 ∧
            (oldBC.height < rawBC.height →
              Crypto.key n rawBC.leader = some i ∧
                Crypto.key K rawBC.k = some j ∧
                  (0 < rawBC.height - oldBC.height ∧
                      ¬ Comparable table rawBC oldBC i j ∨
                    Covered cfg table hp rawBC i j))

section Vectors

variable {cfg : Config n} {table : Table n K}
variable {old new : List HighProof}

/- An entry that passes counts when its difference is so. -/
theorem higher_eq_rises
    {entry : HighProof × HighProof}
    (hPass : passes cfg table entry = true) :
    higher cfg table entry = rises entry := by
  rcases passes_cases hPass with
    ⟨rawBC, oldBC, hRaw, hOld, hCase⟩
  unfold rises
  rw [hRaw, hOld, Option.any_some, Option.any_some]
  rcases hCase with ⟨hPos, hHigher⟩ | ⟨hLe, hHigher⟩
  · rw [hHigher, decide_eq_true hPos]
  · rw [hHigher]
    symm
    apply decide_eq_false
    intro hPos
    unfold higher at hHigher
    rcases passes_iff.mp hPass with
      ⟨rawBC', oldBC', ⟨hRaw', hOld'⟩, hPath⟩
    rw [hRaw] at hRaw'
    rw [hOld] at hOld'
    cases hRaw'
    cases hOld'
    rcases hPath with ⟨hNot, _⟩ | ⟨_, i, j, hLeader, hSid, hPath⟩
    · exact hNot hPos
    · have hTrue :
          checkEntry cfg table entry.1 entry.2 =
            .ok (some true) := by
        refine
          checkEntry_eq_true.mpr
            ⟨rawBC, oldBC, i, j, hRaw, hOld, hPos, hLeader,
              hSid, ?_⟩
        unfold checkHigher
        unfold Comparable at hPath
        rcases hPath with ⟨hLess, hAgrees⟩ | ⟨hLess, hBatch⟩
        · rw [if_pos hLess]
          exact checkTable_eq_true.mpr hAgrees
        · rw [if_neg hLess]
          exact checkCertificate_eq_true.mpr hBatch
      rw [hTrue] at hHigher
      cases hHigher

/- When the check of a vector accepts, entry by entry. -/
theorem accepts_iff :
    checkInputs cfg (n * K) table (some old) new = .ok true ↔
      old.length = n * K ∧ new.length = n * K ∧
        (∀ entry ∈ new.zip old,
          EntryPasses cfg table entry) ∧
          n * K * 2 / 3 < (new.zip old).countP rises := by
  rw [checkInputs_eq_true]
  refine and_congr_right fun _ => and_congr_right fun _ => ?_
  have hSame :
      (∀ entry ∈ new.zip old,
          passes cfg table entry = true) →
        (new.zip old).countP (higher cfg table) =
          (new.zip old).countP rises := by
    intro hPass
    apply List.countP_congr
    intro entry hMem
    rw [higher_eq_rises (hPass entry hMem)]
  constructor
  · rintro ⟨hPass, hCount⟩
    rw [hSame hPass] at hCount
    exact
      ⟨fun entry hMem => passes_iff.mp (hPass entry hMem),
        hCount⟩
  · rintro ⟨hPass, hCount⟩
    have hAll :
        ∀ entry ∈ new.zip old,
          passes cfg table entry = true := fun entry hMem =>
      passes_iff.mpr (hPass entry hMem)
    rw [← hSame hAll] at hCount
    exact ⟨hAll, hCount⟩

/- Where the check panics for an index. -/
theorem checkInputs_eq_index :
    checkInputs cfg (n * K) table (some old) new =
        .error .index ↔
      old.length = n * K ∧ new.length = n * K ∧
        ∃ before entry after,
          new.zip old = before ++ entry :: after ∧
            (∀ e ∈ before, EntryPasses cfg table e) ∧
              OutOfRange table entry := by
  have hLoop :
      checkEntries cfg table (new.zip old) 0 =
          .error .index ↔
        ∃ before entry after,
          new.zip old = before ++ entry :: after ∧
            (∀ e ∈ before, EntryPasses cfg table e) ∧
              OutOfRange table entry := by
    rw [checkEntries_eq_error]
    simp only [passes_iff, checkEntry_eq_index]
  rw [← hLoop]
  unfold checkInputs
  dsimp only
  split
  · rename_i hLength
    constructor
    · intro h
      cases h
    · rintro ⟨hOld, hNew, _⟩
      rcases hLength with h | h
      · exact absurd hOld h
      · exact absurd hNew h
  · rename_i hLength
    push Not at hLength
    rw [← and_assoc, and_iff_right hLength]
    split
    · rename_i hEq
      rw [hEq, Except.error.injEq, Except.error.injEq]
    · rename_i hEq
      rw [hEq]
      simp
    · rename_i hEq
      rw [hEq]
      simp

/- The entries at the position of a slot. -/
theorem entries_at
    (hOld : old.length = n * K) (hNew : new.length = n * K)
    (hPass :
      ∀ entry ∈ new.zip old, EntryPasses cfg table entry)
    (i : Fin n) (j : Fin K) :
    ∃ hp oldHp rawBC oldBC,
      new[position i j]? = some hp ∧
        (new.zip old)[position i j]? = some (hp, oldHp) ∧
          hp.rawBC = some rawBC ∧
            rawAt old (position i j) = some oldBC ∧
              oldHp.rawBC = some oldBC := by
  have hLt := position_lt i j
  have hNewAt := List.getElem?_eq_getElem (hNew ▸ hLt)
  have hOldAt := List.getElem?_eq_getElem (hOld ▸ hLt)
  have hZip :
      (new.zip old)[position i j]? =
        some (new[position i j], old[position i j]) :=
    List.getElem?_zip_eq_some.mpr ⟨hNewAt, hOldAt⟩
  rcases hPass _ (List.mem_of_getElem? hZip) with
    ⟨rawBC, oldBC, ⟨hRaw, hOldRaw⟩, _⟩
  refine
    ⟨_, _, rawBC, oldBC, hNewAt, hZip, hRaw, ?_, hOldRaw⟩
  unfold rawAt
  rw [hOldAt]
  exact hOldRaw

/- An own certificate covers the entry. -/
theorem covered_of_own
    {hp : HighProof} {rawBC : RawBC} {i : Fin n} {j : Fin K}
    (hOwn : OwnCertificate cfg hp rawBC) :
    Covered cfg table hp rawBC i j := by
  rcases hOwn with ⟨batch, hBatch, hCertifies⟩
  exact ⟨batch, hCertifies, .inl hBatch⟩

/- A block that is held covers the entry. -/
theorem covered_of_held
    (hTable : ValidTable cfg table)
    {hp : HighProof} {i : Fin n} {j : Fin K} {block : BCBlock}
    (hMem : block ∈ table i j) :
    Covered cfg table hp block.rawBC i j := by
  rcases hTable.certified i j block hMem with
    ⟨batch, hBatch, hCertifies⟩
  exact ⟨batch, hCertifies, .inr ⟨block, hMem, rfl, hBatch⟩⟩

/- An entry that passes without wrapping is not lowered. -/
theorem EntryPasses.le
    {entry : HighProof × HighProof} {rawBC oldBC : RawBC}
    (hPasses : EntryPasses cfg table entry)
    (hBlocks : Blocks entry rawBC oldBC)
    (hNear :
      oldBC.height.toInt - rawBC.height.toInt ≤ 2 ^ 31) :
    oldBC.height ≤ rawBC.height := by
  rcases hPasses with ⟨rawBC', oldBC', hBlocks', hPath⟩
  rcases hBlocks with ⟨hRaw, hOld⟩
  rcases hBlocks' with ⟨hRaw', hOld'⟩
  rw [hRaw] at hRaw'
  rw [hOld] at hOld'
  cases hRaw'
  cases hOld'
  rcases hPath with ⟨_, hLe⟩ | ⟨hPos, _⟩
  · exact hLe
  · rw [Int32.le_iff_toInt_le]
    rcases sub_pos_cases hPos with hLt | hFar
    · omega
    · omega

/- Off the fast path the certificate has been verified. -/
theorem EntryPasses.own
    {entry : HighProof × HighProof} {rawBC oldBC : RawBC}
    {i : Fin n} {j : Fin K}
    (hPasses : EntryPasses cfg table entry)
    (hBlocks : Blocks entry rawBC oldBC)
    (hLeader : Crypto.key n rawBC.leader = some i)
    (hSid : Crypto.key K rawBC.k = some j)
    (hPos : 0 < rawBC.height - oldBC.height) :
    Comparable table rawBC oldBC i j ∧
        TableAgrees (table i j) entry.1 rawBC ∨
      ¬ Comparable table rawBC oldBC i j ∧
        OwnCertificate cfg entry.1 rawBC := by
  rcases hPasses with ⟨rawBC', oldBC', hBlocks', hPath⟩
  rcases hBlocks with ⟨hRaw, hOld⟩
  rcases hBlocks' with ⟨hRaw', hOld'⟩
  rw [hRaw] at hRaw'
  rw [hOld] at hOld'
  cases hRaw'
  cases hOld'
  rcases hPath with ⟨hNot, _⟩ | ⟨_, i', j', hi, hj, hPath⟩
  · exact absurd hPos hNot
  · rw [hLeader] at hi
    rw [hSid] at hj
    cases hi
    cases hj
    exact hPath

/- A sane entry that passes is one of the blocks it names. -/
theorem SaneEntry.covered
    (hTable : ValidTable cfg table)
    {entry : HighProof × HighProof} {rawBC oldBC : RawBC}
    {i : Fin n} {j : Fin K}
    (hSane : SaneEntry cfg table entry.1 rawBC oldBC i j)
    (hPasses : EntryPasses cfg table entry)
    (hBlocks : Blocks entry rawBC oldBC)
    (hRaised : oldBC.height < rawBC.height) :
    Covered cfg table entry.1 rawBC i j := by
  by_cases hPos : 0 < rawBC.height - oldBC.height
  · rcases hSane.named hRaised with ⟨hLeader, hSid⟩
    rcases hPasses.own hBlocks hLeader hSid hPos with
      ⟨hNear, first, rest, hRow, hAgrees⟩ | ⟨_, hOwn⟩
    · rcases hAgrees with
        hBelow |
          ⟨batch, block, held, hFrom, hBatch, hAt, hHeld,
            hSigns⟩
      · exact
          hSane.unchecked hRaised
            (.inr ⟨hNear, first, rest, hRow, hBelow⟩)
      · rcases hSane.held hRaised hNear first rest hRow
          hFrom with
          ⟨block', hAt', hEqual⟩
        rw [hAt] at hAt'
        cases hAt'
        rcases hEqual ⟨batch, held, hBatch, hHeld, hSigns⟩
          with rfl | hOwn
        · exact
            covered_of_held hTable (List.mem_of_getElem? hAt)
        · exact covered_of_own hOwn
    · exact covered_of_own hOwn
  · exact hSane.unchecked hRaised (.inl hPos)

/- An accepted vector is sound if its entries are. -/
theorem sound_of_entries
    (hAccept :
      checkInputs cfg (n * K) table (some old) new =
        .ok true)
    (hEntry :
      ∀ i j entry rawBC oldBC,
        (new.zip old)[position i j]? = some entry →
          EntryPasses cfg table entry →
            Blocks entry rawBC oldBC →
              rawAt old (position i j) = some oldBC →
                oldBC.height ≤ rawBC.height ∧
                  (oldBC.height < rawBC.height →
                    RaisedFor cfg table entry.1 rawBC i j)) :
    Sound cfg table old new := by
  rcases accepts_iff.mp hAccept with
    ⟨hOld, hNew, hPass, hCount⟩
  have hAt := entries_at hOld hNew hPass
  constructor
  · intro i j
    rcases hAt i j with
      ⟨hp, oldHp, rawBC, oldBC, hHp, hZip, hRaw, hOldAt,
        hOldRaw⟩
    rcases hEntry i j (hp, oldHp) rawBC oldBC hZip
      (hPass _ (List.mem_of_getElem? hZip)) ⟨hRaw, hOldRaw⟩
      hOldAt with
      ⟨hLe, hRaised⟩
    exact ⟨hp, rawBC, oldBC, hHp, hRaw, hOldAt, hLe, hRaised⟩
  · have hLength : (new.zip old).length = n * K := by
      rw [List.length_zip, hOld, hNew, Nat.min_self]
    rw [← countP_range_getElem?, hLength, ← countP_slots]
      at hCount
    refine Nat.lt_of_lt_of_le hCount ?_
    apply List.countP_mono_left
    rintro ⟨i, j⟩ _ hRises
    rcases hAt i j with
      ⟨hp, oldHp, rawBC, oldBC, hHp, hZip, hRaw, hOldAt,
        hOldRaw⟩
    have hLe :=
      (hEntry i j (hp, oldHp) rawBC oldBC hZip
        (hPass _ (List.mem_of_getElem? hZip))
        ⟨hRaw, hOldRaw⟩ hOldAt).1
    dsimp only at hRises ⊢
    rw [hZip, Option.any_some] at hRises
    unfold rises at hRises
    rw [hRaw, hOldRaw, Option.any_some, Option.any_some,
      decide_eq_true_iff] at hRises
    have hNewAt : rawAt new (position i j) = some rawBC := by
      unfold rawAt
      rw [hHp]
      exact hRaw
    rw [hNewAt, hOldAt, Option.any_some, Option.any_some,
      decide_eq_true_iff, Int32.lt_iff_toInt_lt]
    have hInt := Int32.le_iff_toInt_le.mp hLe
    rcases sub_pos_cases hRises with hLt | hFar
    · exact hLt
    · omega

/- The parts of an entry, at the position of its slot. -/
theorem zip_blocks
    {i : Fin n} {j : Fin K} {entry : HighProof × HighProof}
    {rawBC oldBC : RawBC}
    (hZip : (new.zip old)[position i j]? = some entry)
    (hBlocks : Blocks entry rawBC oldBC) :
    new[position i j]? = some entry.1 ∧
      rawAt old (position i j) = some oldBC := by
  rcases List.getElem?_zip_eq_some.mp hZip with
    ⟨hNewAt, hOldAt⟩
  refine ⟨hNewAt, ?_⟩
  unfold rawAt
  rw [hOldAt]
  exact hBlocks.2

/- What a sane vector that is accepted names. -/
theorem Sane.sound
    (hTable : ValidTable cfg table)
    (hSane : Sane cfg table old new)
    (hAccept :
      checkInputs cfg (n * K) table (some old) new =
        .ok true) :
    Sound cfg table old new := by
  apply sound_of_entries hAccept
  intro i j entry rawBC oldBC hZip hPasses hBlocks hOldAt
  have hEntry : SaneEntry cfg table entry.1 rawBC oldBC i j :=
    hSane i j entry.1 rawBC oldBC (zip_blocks hZip hBlocks).1
      hBlocks.1 hOldAt
  refine ⟨hPasses.le hBlocks hEntry.near, fun hRaised => ?_⟩
  rcases hEntry.named hRaised with ⟨hLeader, hSid⟩
  exact
    ⟨hLeader, hSid,
      hEntry.covered hTable hPasses hBlocks hRaised⟩

/- No entry of a sane vector is out of range. -/
theorem Sane.inRange
    (hSane : Sane cfg table old new)
    (hNew : new.length = n * K)
    {entry : HighProof × HighProof}
    (hMem : entry ∈ new.zip old) :
    ¬ OutOfRange table entry := by
  rintro ⟨rawBC, oldBC, hBlocks, hPos, hCase⟩
  rcases List.mem_iff_getElem?.mp hMem with ⟨m, hAt⟩
  have hLt : m < n * K := by
    have hNewAt := (List.getElem?_zip_eq_some.mp hAt).1
    rw [← hNew]
    exact (List.getElem?_eq_some_iff.mp hNewAt).1
  rcases exists_position hLt with ⟨i, j, rfl⟩
  have hEntry : SaneEntry cfg table entry.1 rawBC oldBC i j :=
    hSane i j entry.1 rawBC oldBC (zip_blocks hAt hBlocks).1
      hBlocks.1 (zip_blocks hAt hBlocks).2
  have hRaised : oldBC.height < rawBC.height := by
    rw [Int32.lt_iff_toInt_lt]
    have hNear := hEntry.near
    rcases sub_pos_cases hPos with hLt | hFar
    · exact hLt
    · omega
  rcases hEntry.named hRaised with ⟨hLeader, hSid⟩
  rcases hCase with
    hNone | hNone |
      ⟨i', j', first, rest, batch, hi, hj, hNear, hRow, _,
        hFrom, hNone⟩
  · rw [hLeader] at hNone
    cases hNone
  · rw [hSid] at hNone
    cases hNone
  · rw [hLeader] at hi
    rw [hSid] at hj
    cases hi
    cases hj
    rcases hEntry.held hRaised hNear first rest hRow hFrom
      with ⟨block, hBlock, _⟩
    rw [hNone] at hBlock
    cases hBlock

/- An accepted vector is sound when the rest is in order. -/
theorem accepted_sound_iff
    (hAccept :
      checkInputs cfg (n * K) table (some old) new =
        .ok true) :
    Sound cfg table old new ↔ Trusted cfg table old new := by
  constructor
  · intro hSound i j hp rawBC oldBC hHp hRaw hOldAt
    rcases hSound.entry i j with
      ⟨hp', rawBC', oldBC', hHp', hRaw', hOldAt', hLe,
        hRaised⟩
    rw [hHp] at hHp'
    cases hHp'
    rw [hRaw] at hRaw'
    cases hRaw'
    rw [hOldAt] at hOldAt'
    cases hOldAt'
    have hInt := Int32.le_iff_toInt_le.mp hLe
    refine ⟨by omega, fun hLt => ?_⟩
    rcases hRaised hLt with ⟨hLeader, hSid, hCovered⟩
    exact ⟨hLeader, hSid, .inr hCovered⟩
  · intro hTrusted
    apply sound_of_entries hAccept
    intro i j entry rawBC oldBC hZip hPasses hBlocks hOldAt
    rcases hTrusted i j entry.1 rawBC oldBC
      (zip_blocks hZip hBlocks).1 hBlocks.1 hOldAt with
      ⟨hNear, hNamed⟩
    refine ⟨hPasses.le hBlocks hNear, fun hRaised => ?_⟩
    rcases hNamed hRaised with ⟨hLeader, hSid, hCase⟩
    refine ⟨hLeader, hSid, ?_⟩
    rcases hCase with ⟨hPos, hFar⟩ | hCovered
    · rcases hPasses.own hBlocks hLeader hSid hPos with
        ⟨hComparable, _⟩ | ⟨_, hOwn⟩
      · exact absurd hComparable hFar
      · exact covered_of_own hOwn
    · exact hCovered

/-
  What the check guarantees against a valid table.

  A sane vector is not read out of range, and it is sound if
  it is accepted. Whatever the vector, it is read out of
  range exactly at a first entry that is so, and an accepted
  one is sound exactly if it can be trusted in what no path
  has looked at.
-/
theorem checkInputs_sound_iff
    (hTable : ValidTable cfg table) :
    (Sane cfg table old new →
        checkInputs cfg (n * K) table (some old) new ≠
            .error .index ∧
          (checkInputs cfg (n * K) table (some old) new =
              .ok true →
            Sound cfg table old new)) ∧
      (checkInputs cfg (n * K) table (some old) new =
          .error .index ↔
        old.length = n * K ∧ new.length = n * K ∧
          ∃ before entry after,
            new.zip old = before ++ entry :: after ∧
              (∀ e ∈ before, EntryPasses cfg table e) ∧
                OutOfRange table entry) ∧
      (checkInputs cfg (n * K) table (some old) new =
          .ok true →
        (Sound cfg table old new ↔
          Trusted cfg table old new)) := by
  refine
    ⟨fun hSane => ⟨fun hIndex => ?_, hSane.sound hTable⟩,
      checkInputs_eq_index, accepted_sound_iff⟩
  rcases checkInputs_eq_index.mp hIndex with
    ⟨_, hNew, before, entry, after, hZip, _, hOut⟩
  have hMem : entry ∈ new.zip old := by
    rw [hZip]
    exact
      List.mem_append_right _ List.mem_cons_self
  exact hSane.inRange hNew hMem hOut

end Vectors

------------------------------------------------------------
-- Repeated Blocks
------------------------------------------------------------

/- A block that is held, with an empty certificate. -/
def heldBlock (leader height : Int32) : BCBlock :=
  { plainBlock leader height with batchSigns := some ⟨[], []⟩ }

/- Three blocks of the first leader are held. -/
def heldTable : Table 4 1 := fun i _ =>
  if i = 0 then [heldBlock 1 0, heldBlock 1 1, heldBlock 1 2]
  else []

/- Blocks 0 and 1 of every leader wait to be cut. -/
def uncutTable : Table 4 1 := fun i _ =>
  [heldBlock (Int32.ofNat (i.val + 1)) 0,
    heldBlock (Int32.ofNat (i.val + 1)) 1]

/- Tables in order hold valid blocks. -/
theorem plainTable_valid
    {table : Table 4 1}
    (hSorted :
      ∀ i j, (table i j).Pairwise
        fun block block' => height block < height block')
    (hFiled :
      ∀ i j, ∀ block ∈ table i j,
        Crypto.key 4 block.rawBC.leader = some i ∧
          Crypto.key 1 block.rawBC.k = some j)
    (hBatch :
      ∀ i j, ∀ block ∈ table i j,
        block.batchSigns = some ⟨[], []⟩) :
    ValidTable plainConfig table where
  sorted := hSorted
  filed := hFiled
  certified := fun i j block hMem =>
    ⟨⟨[], []⟩, hBatch i j block hMem, rfl⟩

/- The table of held blocks is valid. -/
theorem heldTable_valid :
    ValidTable plainConfig heldTable :=
  plainTable_valid (by decide +kernel) (by decide +kernel)
    (by decide +kernel)

/- So is the table before the cut. -/
theorem uncutTable_valid :
    ValidTable plainConfig uncutTable :=
  plainTable_valid (by decide +kernel) (by decide +kernel)
    (by decide +kernel)

/- The plain proposals meet the condition. -/
theorem plainProofs_sane :
    Sane plainConfig heldTable (plainProofs 0)
      (plainProofs 1) := by
  intro i j hp rawBC oldBC hHp hRaw hOldAt
  have hj : j = 0 := Subsingleton.elim _ _
  subst hj
  match i with
  | 0 =>
      cases hHp
      cases hRaw
      cases hOldAt
      constructor
      · decide +kernel
      · exact fun _ => ⟨rfl, rfl⟩
      · intro _ _ first rest hRow _
        cases hRow
        exact ⟨_, rfl, fun _ => .inr ⟨⟨[], []⟩, rfl, rfl⟩⟩
      · exact fun _ _ => covered_of_own ⟨⟨[], []⟩, rfl, rfl⟩
  | 1 | 2 =>
      -- no block of these leaders is held
      cases hHp
      cases hRaw
      cases hOldAt
      constructor
      · decide +kernel
      · exact fun _ => ⟨rfl, rfl⟩
      · intro _ _ first rest hRow _
        cases hRow
      · exact fun _ _ => covered_of_own ⟨⟨[], []⟩, rfl, rfl⟩
  | 3 =>
      cases hHp
      cases hRaw
      cases hOldAt
      constructor
      · decide +kernel
      all_goals exact fun hLt => absurd hLt (by decide)

/- They are accepted and sound. -/
theorem checkInputs_sound_iff_plain :
    checkInputs plainConfig (4 * 1) heldTable
          (some (plainProofs 0)) (plainProofs 1) =
        .ok true ∧
      Sound plainConfig heldTable (plainProofs 0)
        (plainProofs 1) := by
  have hAccept :
      checkInputs plainConfig (4 * 1) heldTable
          (some (plainProofs 0)) (plainProofs 1) =
        .ok true :=
    rfl
  exact
    ⟨hAccept,
      ((checkInputs_sound_iff heldTable_valid).1
        plainProofs_sane).2 hAccept⟩

/-
  One block named three times is accepted. And a block right
  above the last commit is out of range while a cut waits.
-/
theorem repeated_block_accepted :
    (ValidTable plainConfig heldTable ∧
      checkInputs plainConfig (4 * 1) heldTable
            (some (plainProofs 0))
            [plainProof 1 1, plainProof 1 1, plainProof 1 1,
              plainProof 4 (-1)] =
          .ok true ∧
        ¬ Sound plainConfig heldTable (plainProofs 0)
          [plainProof 1 1, plainProof 1 1, plainProof 1 1,
            plainProof 4 (-1)]) ∧
      ValidTable plainConfig uncutTable ∧
        checkInputs plainConfig (4 * 1) uncutTable
            (some (plainProofs 2)) (plainProofs 3) =
          .error .index := by
  refine
    ⟨⟨heldTable_valid, rfl, ?_⟩, uncutTable_valid, rfl⟩
  intro hSound
  rcases hSound.entry 1 0 with
    ⟨hp, rawBC, oldBC, hHp, hRaw, hOld, _, hRaised⟩
  cases hHp
  cases hRaw
  cases hOld
  have hLeader := (hRaised (by decide)).1
  revert hLeader
  decide

end Ordering

end Jumbo
