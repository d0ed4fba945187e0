import Jumbo.Lib.MerklePath
import Jumbo.DumboMVBA.Reconstruction

/-
  Paths that verify.

  A path is looked up by the content of a shard and verified
  with the index of a party. The path of a shard that occurs
  twice is that of its first place. How long a path is is
  not checked, so that a node inside the tree passes for a
  shard, and what a shard is the pair of for a shard as well.

  Main declarations:
    * `verifyPath_iff`
    * `complete_iff` and `not_complete`
    * `binds_iff` and `not_binds`
-/

------------------------------------------------------------
-- What Verifies
------------------------------------------------------------

namespace Jumbo

namespace DumboMVBA

open Crypto (Bytes)
open Protocol

section Verify

variable {sha : Bytes → Bytes} {root : Bytes}

/- One step of the loop of `VerifyPath`. -/
theorem verifyLoop_cons
    (i : Nat) (last hash : Bytes) {rest : List Bytes}
    (hRest : rest ≠ []) :
    verifyLoop sha i last (hash :: rest) =
      verifyLoop sha (i / 2 : Nat)
        (sha (MerkleTree.join i last hash)) rest := by
  have hMod : (i : Int).tmod 2 = 0 ↔ i % 2 = 0 := by
    rw [show (i : Int).tmod 2 = ((i % 2 : Nat) : Int) from
      (Int.ofNat_tmod i 2).symm]
    omega
  cases rest with
  | nil => exact absurd rfl hRest
  | cons hash' rest =>
      conv_lhs => unfold verifyLoop
      rw [show (i : Int).tdiv 2 = ((i / 2 : Nat) : Int) from
        (Int.ofNat_tdiv i 2).symm]
      congr 1
      unfold MerkleTree.join
      simp only [hMod]
      split
      · rfl
      · rfl

/- The loop climbs and compares with the root. -/
theorem verifyLoop_append
    (i : Nat) (last : Bytes) (siblings : List Bytes) :
    verifyLoop sha i last (siblings ++ [root]) =
      decide (MerkleTree.climb sha i last siblings = root) := by
  induction siblings generalizing i last with
  | nil => rfl
  | cons hash rest ih =>
      rw [List.cons_append,
        verifyLoop_cons i last hash
          (List.append_ne_nil_of_right_ne_nil _
            (List.cons_ne_nil _ _)),
        ih]
      rfl

/- A path verifies when it ends at the root by its sides. -/
theorem verifyPath_iff
    {i : Nat} {path : List Bytes} :
    verifyPath sha root path i = true ↔
      ∃ shard siblings,
        path = shard :: (siblings ++ [root]) ∧
          siblings ≠ [] ∧
            MerkleTree.climb sha i (sha shard) siblings =
              root := by
  unfold verifyPath
  constructor
  · intro hVerify
    split at hVerify
    · cases hVerify
    · rename_i hLong
      split at hVerify
      · cases hVerify
      · rename_i hLast
        have hLast := not_not.mp hLast
        cases path with
        | nil => cases hVerify
        | cons shard rest =>
            rw [List.length_cons] at hLong
            have hRest : rest ≠ [] := by
              rintro rfl
              exact hLong (by decide)
            have hEnd : rest.getLast hRest = root := by
              rw [List.getLast?_eq_some_getLast
                (List.cons_ne_nil _ _),
                List.getLast_cons hRest] at hLast
              exact Option.some.inj hLast
            have hParts := List.dropLast_concat_getLast hRest
            rw [hEnd] at hParts
            dsimp only at hVerify
            rw [← hParts, verifyLoop_append] at hVerify
            refine
              ⟨shard, rest.dropLast, by rw [hParts], ?_,
                of_decide_eq_true hVerify⟩
            intro hNil
            have hLength := congrArg List.length hNil
            rw [List.length_dropLast, List.length_nil]
              at hLength
            omega
  · rintro ⟨shard, siblings, rfl, hSome, hClimb⟩
    have hPos := List.length_pos_iff.mpr hSome
    rw [if_neg, if_neg]
    · dsimp only
      rw [verifyLoop_append, hClimb]
      exact decide_eq_true rfl
    · rw [← List.cons_append, List.getLast?_concat]
      exact fun h => h rfl
    · rw [List.length_cons, List.length_append,
        List.length_singleton]
      omega

end Verify

end DumboMVBA

end Jumbo

------------------------------------------------------------
-- Completeness
------------------------------------------------------------

namespace Jumbo

namespace DumboMVBA

open Crypto (Bytes)
open Protocol

/- A hash without collisions on the inputs of a table. -/
def tableSha (table : List Bytes) (x : Bytes) : Bytes :=
  [UInt8.ofNat (table.idxOf x)]

/- On its table the hash is as good as the table says. -/
theorem tableSha_injOn
    {table : List Bytes} {Q : Set Bytes}
    (hTable :
      ∀ x ∈ table, ∀ y ∈ table,
        tableSha table x = tableSha table y → x = y)
    (hMem : ∀ x ∈ Q, x ∈ table) :
    Set.InjOn (tableSha table) Q :=
  fun x hx y hy hEq => hTable x (hMem x hx) y (hMem y hy) hEq

/- What is hashed for a tree and for verifying a path. -/
def hashedWith
    (sha : Bytes → Bytes) (shards : List Bytes)
    (levels : List (List Bytes)) (path : List Bytes)
    (i : Nat) : Set Bytes :=
  {x | x ∈ MerkleTree.hashed shards levels ∨
    x ∈ hashedPath sha path i}

section Complete

variable {sha : Bytes → Bytes} {len : Nat}
variable {shards : List Bytes} {levels : List (List Bytes)}
variable {root shard : Bytes} {i : Nat}

/- The path is that of the first place of the shard. -/
theorem getMerklePath_eq
    (hAt : shards[i]? = some shard) :
    getMerklePath levels root shards shard =
      shard ::
        (MerkleTree.path levels (shards.idxOf shard) ++
          [root]) := by
  have hLt : shards.idxOf shard < shards.length :=
    List.idxOf_lt_length_of_mem (List.mem_of_getElem? hAt)
  have hFind :
      shards.findIdx? (fun x => decide (x = shard)) =
        some (shards.idxOf shard) := by
    have hSame :
        (fun x : Bytes => decide (x = shard)) =
          fun x => x == shard := by
      funext x
      rw [Bool.eq_iff_iff, decide_eq_true_iff, beq_iff_eq]
    rw [List.findIdx?_eq_guard_findIdx_lt, hSame]
    exact Option.guard_eq_some_iff.mpr ⟨rfl, decide_eq_true hLt⟩
  unfold getMerklePath
  rw [hFind]

/-
  The path that is given out for the shard at an index
  verifies at this index exactly when the way up from there
  is like the one from the first place of the shard.
-/
theorem complete_iff
    (hHash : ∀ x, (sha x).length = len)
    (hTree :
      MerkleTree.newTree sha shards = some (levels, root))
    (hAt : shards[i]? = some shard)
    (hInj :
      Set.InjOn sha
        (hashedWith sha shards levels
          (getMerklePath levels root shards shard) i)) :
    verifyPath sha root
        (getMerklePath levels root shards shard) i = true ↔
      MerkleTree.Alike levels i (shards.idxOf shard) := by
  rcases MerkleTree.newTree_eq_some hTree with
    ⟨_, hBuild, hHeight⟩
  have hMem := List.mem_of_getElem? hAt
  have hPos : 0 < shards.length :=
    Nat.zero_lt_of_lt (List.getElem?_eq_some_iff.mp hAt).1
  have hFirst :
      shards[shards.idxOf shard]? = some shard :=
    List.getElem?_idxOf hMem
  have hLeaf :
      (MerkleTree.pad (shards.map sha))[shards.idxOf shard]? =
        some (sha shard) :=
    MerkleTree.pad_getElem? (by
      rw [List.getElem?_map, hFirst]
      rfl)
  have hSiblings :
      MerkleTree.path levels (shards.idxOf shard) ≠ [] := by
    intro hNil
    have hLength :=
      MerkleTree.length_path levels (shards.idxOf shard)
    rw [hNil, List.length_nil, hHeight] at hLength
    have hClog :
        0 < Nat.clog 2 (shards.length + shards.length % 2) :=
      Nat.clog_pos Nat.one_lt_two (by omega)
    omega
  rw [getMerklePath_eq hAt] at hInj ⊢
  have hClimb :=
    MerkleTree.climb_path_iff (i := i) hHash hInj hBuild
      (MerkleTree.length_of_mem_pad hHash shards)
      (fun level hLevel p hp =>
        .inl
          (List.mem_append_right _
            (List.mem_flatMap.mpr ⟨level, hLevel, hp⟩)))
      hLeaf (hHash shard)
      (by
        intro p hp
        refine .inr (List.mem_cons_of_mem _ ?_)
        rw [List.dropLast_concat]
        exact hp)
  rw [verifyPath_iff]
  constructor
  · rintro ⟨_, siblings, hEq, _, hRoot⟩
    rcases List.cons.inj hEq with ⟨rfl, hTail⟩
    rw [← (List.append_inj' hTail rfl).1] at hRoot
    exact (hClimb.mp hRoot).2
  · intro hAlike
    exact
      ⟨shard, _, rfl, hSiblings, hClimb.mpr ⟨rfl, hAlike⟩⟩

end Complete

/- The first and the second shard are the same. -/
def pairShards : List Bytes := [[1], [1], [2], [3]]

/- The levels over the three shards. -/
def pairLevels : List (List Bytes) :=
  [[[0], [0], [1], [2]], [[3], [4]]]

/- What is hashed there. -/
def pairTable : List Bytes :=
  [[1], [2], [3], [0, 0], [1, 2], [3, 4]]

/-
  The path is accepted at the other place of an equal shard
  beside it.
-/
theorem complete_pair :
    verifyPath (tableSha pairTable) [5]
      (getMerklePath pairLevels [5] pairShards [1])
      (1 : Nat) = true := by
  have hTree :
      MerkleTree.newTree (tableSha pairTable) pairShards =
        some (pairLevels, [5]) := by
    decide
  have hAt : pairShards[1]? = some [1] := rfl
  have hInj :
      Set.InjOn (tableSha pairTable)
        (hashedWith (tableSha pairTable) pairShards pairLevels
          (getMerklePath pairLevels [5] pairShards [1]) 1) := by
    refine tableSha_injOn (by decide) ?_
    rintro x (hMem | hMem)
    · revert x
      decide
    · revert x
      decide
  have hLength : ∀ x, (tableSha pairTable x).length = 1 :=
    fun _ => rfl
  have hComplete := complete_iff hLength hTree hAt hInj
  exact hComplete.mpr (by decide)

/- The first and the third shard are the same. -/
def crossShards : List Bytes := [[1], [2], [1], [3]]

/- The levels over the four shards. -/
def crossLevels : List (List Bytes) :=
  [[[0], [1], [0], [2]], [[3], [4]]]

/- What is hashed there, and one thing more. -/
def crossTable : List Bytes :=
  [[1], [2], [3], [0, 1], [0, 2], [3, 4], [4, 3]]

/- So paths are not always complete. -/
theorem not_complete :
    ¬ ∀ (sha : Bytes → Bytes) (len : Nat)
        (shards : List Bytes) (levels : List (List Bytes))
        (root shard : Bytes) (i : Nat),
      (∀ x, (sha x).length = len) →
        MerkleTree.newTree sha shards = some (levels, root) →
          shards[i]? = some shard →
            Set.InjOn sha
              (hashedWith sha shards levels
                (getMerklePath levels root shards shard) i) →
              verifyPath sha root
                (getMerklePath levels root shards shard) i =
                  true := by
  intro hAll
  have hInj :
      Set.InjOn (tableSha crossTable)
        (hashedWith (tableSha crossTable) crossShards crossLevels
          (getMerklePath crossLevels [5] crossShards [1]) 2) := by
    refine tableSha_injOn (by decide) ?_
    rintro x (hMem | hMem)
    · revert x
      decide
    · revert x
      decide
  have hVerify :=
    hAll (tableSha crossTable) 1 crossShards crossLevels [5] [1] 2
      (fun _ => rfl) (by decide) rfl hInj
  exact absurd hVerify (by decide)

end DumboMVBA

end Jumbo

------------------------------------------------------------
-- Binding
------------------------------------------------------------

namespace Jumbo

namespace DumboMVBA

open Crypto (Bytes)
open Protocol

/-
  Paths of `k` elements bind the shards of a tree over `n`,
  whatever the hash, as long as it has a fixed length and no
  collision among all that is hashed.
-/
def Binds (n k : Nat) : Prop :=
  ∀ (sha : Bytes → Bytes) (len : Nat) (shards : List Bytes)
    (levels : List (List Bytes)) (root : Bytes) (i : Nat)
    (shard : Bytes) (path : List Bytes),
    (∀ x, (sha x).length = len) →
      shards.length = n →
        MerkleTree.newTree sha shards = some (levels, root) →
          shards[i]? = some shard →
            Set.InjOn sha (hashedWith sha shards levels path i) →
              path.length = k →
                verifyPath sha root path i = true →
                  path.head? = some shard

/- Its path has one element for each level and two more. -/
theorem binds_full (n : Nat) : Binds n (pathLength n) := by
  intro sha len shards levels root i shard path hHash hSize
    hTree hAt hInj hLength hVerify
  rcases verifyPath_iff.mp hVerify with
    ⟨leaf, siblings, rfl, _, hRoot⟩
  have hHeight := (MerkleTree.newTree_eq_some hTree).2.2
  rw [List.length_cons, List.length_append,
    List.length_singleton] at hLength
  unfold pathLength at hLength
  have hFull : siblings.length = levels.length := by
    rw [hHeight, hSize]
    omega
  have hLeaf :=
    MerkleTree.newTree_binds hHash hInj hTree
      (fun y hMem => .inl hMem) hAt hFull
      (.inr List.mem_cons_self)
      (by
        intro y hMem
        refine .inr (List.mem_cons_of_mem _ ?_)
        rw [List.dropLast_concat]
        exact hMem)
      hRoot
  rw [hLeaf]
  rfl

/- As many ones as there are in the first half, and one more. -/
def unarySha (len : Nat) (x : Bytes) : Bytes :=
  let ones : Bytes :=
    List.replicate ((x.take len).count 1 + 1) 1
  (ones ++ List.replicate len 0).take len

/- All hashes have one length. -/
theorem length_unarySha (len : Nat) (x : Bytes) :
    (unarySha len x).length = len := by
  unfold unarySha
  rw [List.length_take, List.length_append,
    List.length_replicate, List.length_replicate]
  omega

/- Every element of the chain counts itself. -/
theorem count_unarySha
    {len k : Nat} (hLt : k < len) :
    (unarySha len (MerkleTree.chain (unarySha len) k)).count 1 =
      k + 1 := by
  have hCount
      (x : Bytes) (hx : (x.take len).count 1 = k) :
      (unarySha len x).count 1 = k + 1 := by
    unfold unarySha
    rw [hx, List.take_append, List.length_replicate,
      List.take_of_length_le
        (by rw [List.length_replicate]; omega),
      List.take_replicate, List.count_append,
      List.count_replicate_self, List.count_replicate]
    rfl
  cases k with
  | zero => exact hCount [] (by rw [List.take_nil]; rfl)
  | succ k =>
      apply hCount
      have hBefore := count_unarySha (Nat.lt_of_succ_lt hLt)
      unfold MerkleTree.chain
      rw [List.take_left' (length_unarySha len _)]
      exact hBefore

/- A path that is shorter or longer starts somewhere else. -/
theorem not_binds_of_length
    {n k : Nat} (hPos : 0 < n) (hLong : 3 ≤ k)
    (hOther : k ≠ pathLength n) :
    ¬ Binds n k := by
  intro hBinds
  unfold pathLength at hOther
  generalize hHeight : Nat.clog 2 (n + n % 2) = height at hOther
  -- the path starts at `first`, the shards are `leaf`
  let first := height - (k - 2)
  let leaf := k - 2 - height
  let sha := unarySha (height + leaf + 1)
  have hHash (x : Bytes) : (sha x).length = height + leaf + 1 :=
    length_unarySha _ x
  rcases @MerkleTree.newTree_chain _ sha n leaf hPos with
    ⟨levels, hTree, hLevels, hHashed⟩
  rw [hHeight] at hLevels
  rw [hLevels] at hTree hHashed
  have hSum : leaf + height = first + (k - 2) := by omega
  let siblings :=
    MerkleTree.ups sha (k - 2) (sha (MerkleTree.chain sha first))
  have hClimb :
      MerkleTree.climb sha 0 (sha (MerkleTree.chain sha first))
          siblings =
        sha (MerkleTree.chain sha (leaf + height)) := by
    rw [MerkleTree.climb_ups, MerkleTree.up_chain, hSum]
  have hSiblings : siblings.length = k - 2 :=
    MerkleTree.length_ups _ _
  have hSome : siblings ≠ [] := by
    intro hNil
    rw [hNil, List.length_nil] at hSiblings
    omega
  have hAll :
      ∀ x ∈ hashedWith sha
          (List.replicate n (MerkleTree.chain sha leaf)) levels
          (MerkleTree.chain sha first ::
            (siblings ++
              [sha (MerkleTree.chain sha (leaf + height))]))
          0,
        ∃ m ≤ leaf + height, x = MerkleTree.chain sha m := by
    rintro x (hTreeMem | hPathMem)
    · exact hHashed x hTreeMem
    · rcases List.mem_cons.mp hPathMem with rfl | hMem
      · exact ⟨first, by omega, rfl⟩
      · rw [List.dropLast_concat] at hMem
        rcases MerkleTree.mem_climbed_ups hMem with
          ⟨m, hm, rfl⟩
        rw [MerkleTree.up_chain]
        exact ⟨first + m + 1, by omega, rfl⟩
  have hInj :
      Set.InjOn sha
        (hashedWith sha
          (List.replicate n (MerkleTree.chain sha leaf)) levels
          (MerkleTree.chain sha first ::
            (siblings ++
              [sha (MerkleTree.chain sha (leaf + height))]))
          0) := by
    intro x hx y hy hEq
    rcases hAll x hx with ⟨a, ha, rfl⟩
    rcases hAll y hy with ⟨b, hb, rfl⟩
    have hCount := congrArg (List.count 1) hEq
    rw [count_unarySha (by omega), count_unarySha (by omega)]
      at hCount
    rw [Nat.succ.inj hCount]
  have hHead :=
    hBinds sha _ _ levels _ 0 (MerkleTree.chain sha leaf) _
      hHash (List.length_replicate) hTree
      (by rw [List.getElem?_replicate, if_pos hPos]) hInj
      (by
        rw [List.length_cons, List.length_append,
          List.length_singleton, hSiblings]
        omega)
      (verifyPath_iff.mpr ⟨_, siblings, rfl, hSome, hClimb⟩)
  have hSame :
      MerkleTree.chain sha first = MerkleTree.chain sha leaf :=
    Option.some.inj hHead
  rcases Nat.lt_or_gt_of_ne hOther with hShort | hMore
  · have hZero : leaf = 0 := by omega
    rw [hZero] at hSame
    exact
      MerkleTree.chain_ne hHash (Nat.succ_pos _) (by omega)
        hSame
  · have hZero : first = 0 := by omega
    rw [hZero] at hSame
    exact
      MerkleTree.chain_ne hHash (Nat.succ_pos _) (by omega)
        hSame.symm

/-
  Paths bind for lengths below three, where none is
  accepted, and for the right length.
-/
theorem binds_iff
    {n : Nat} (hPos : 0 < n) (k : Nat) :
    Binds n k ↔ k < 3 ∨ k = pathLength n := by
  constructor
  · intro hBinds
    by_contra hNot
    rcases not_or.mp hNot with ⟨hLong, hOther⟩
    exact
      not_binds_of_length hPos (Nat.le_of_not_lt hLong) hOther
        hBinds
  · rintro (hShort | rfl)
    · intro sha len shards levels root i shard path _ _ _ _ _
        hLength hVerify
      unfold verifyPath at hVerify
      rw [if_pos (by omega)] at hVerify
      cases hVerify
    · exact binds_full n

/- With four parties a path of four parts binds. -/
theorem binds_iff_four :
    Binds 4 4 ↔ 4 < 3 ∨ 4 = pathLength 4 :=
  binds_iff (by decide) 4

/- Four shards of one byte. -/
def leafShards : List Bytes := [[1], [2], [3], [4]]

/- The levels over them. -/
def leafLevels : List (List Bytes) :=
  [[[0], [1], [2], [3]], [[4], [5]]]

/- What is hashed there. -/
def leafTable : List Bytes :=
  [[1], [2], [3], [4], [0, 1], [2, 3], [4, 5]]

/-
  The two hashes under the first inner node pass for the first
  shard.
-/
theorem not_binds :
    ¬ ∀ n k, 0 < n → Binds n k := by
  intro hAll
  have hInj :
      Set.InjOn (tableSha leafTable)
        (hashedWith (tableSha leafTable) leafShards leafLevels
          [[0, 1], [5], [6]] 0) := by
    refine tableSha_injOn (by decide) ?_
    rintro x (hMem | hMem)
    · revert x
      decide
    · revert x
      decide
  have hHead :=
    hAll 4 3 (by decide) (tableSha leafTable) 1 leafShards
      leafLevels [6] 0 [1] [[0, 1], [5], [6]] (fun _ => rfl) rfl
      (by decide) rfl hInj rfl (by decide)
  exact absurd hHead (by decide)

end DumboMVBA

end Jumbo
