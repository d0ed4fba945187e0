import Jumbo.Lib.MerkleTree

/-
  Paths that a tree gives out, climbed at another index.

  A path belongs to a leaf; whoever climbs it takes the sides
  from an index. It ends at the root when the sides are those
  of the leaf wherever the nodes of a pair differ. In a tree
  of equal leaves every node of a level is the same, and a
  path from a node of any level looks like one from a leaf.

  Main declarations:
    * `sibling` and `Alike`
    * `climb_path_iff`
    * `up` and `ups`
    * `build_replicate`
    * `climb_ups`
    * `newTree_chain`
-/

------------------------------------------------------------
-- Another Index
------------------------------------------------------------

namespace Protocol

namespace MerkleTree

section Alike

variable {α : Type*} [DecidableEq α]

/- The node that a path takes from a level. -/
def sibling (nl : List (List α)) (i : Nat) : List α :=
  let left := nl.getD (2 * (i / 2)) []
  let right := nl[2 * (i / 2) + 1]?.getD left
  if left = nl.getD i [] then right else left

/-
  On the way up from `i` and from `j`, both are on the same
  side, or the node over `j` equals the one beside it.
-/
def Alike : List (List (List α)) → Nat → Nat → Prop
| [], _, _ => True
| nl :: levels, i, j =>
    (i % 2 = j % 2 ∨ nl.getD j [] = sibling nl j) ∧
      Alike levels (i / 2) (j / 2)

/- The positions are compared level by level. -/
instance decidableAlike
    (levels : List (List (List α))) (i j : Nat) :
    Decidable (Alike levels i j) :=
  match levels with
  | [] => isTrue trivial
  | _ :: levels =>
      have := decidableAlike levels (i / 2) (j / 2)
      inferInstanceAs (Decidable (_ ∧ _))

variable {hash : List α → List α} {Q : Set (List α)}
variable {len : Nat}

/- The pair of a node, put together from it. -/
theorem pairs_sibling
    {nl : List (List α)} {j : Nat} {x : List α}
    (hAt : nl[j]? = some x) :
    (pairs nl)[j / 2]? = some (join j x (sibling nl j)) := by
  have hNode : nl.getD j [] = x := by
    rw [List.getD_eq_getElem?_getD, hAt]
    rfl
  unfold sibling join
  rw [hNode]
  by_cases hEven : j % 2 = 0
  · have hIndex : 2 * (j / 2) = j := by omega
    have hLeft : nl[2 * (j / 2)]? = some x := by
      rw [hIndex]
      exact hAt
    rw [if_pos hEven, pairs_even hLeft, hIndex, hNode,
      if_pos rfl]
  · have hIndex : 2 * (j / 2) + 1 = j := by omega
    have hRight : nl[2 * (j / 2) + 1]? = some x := by
      rw [hIndex]
      exact hAt
    rcases pairs_odd hRight with ⟨left, hLeft, hPair⟩
    have hGet : nl.getD (2 * (j / 2)) [] = left := by
      rw [List.getD_eq_getElem?_getD, hLeft]
      rfl
    rw [if_neg hEven, hPair, hGet, hRight]
    dsimp only
    by_cases hSame : left = x
    · rw [if_pos hSame, hSame]
      rfl
    · rw [if_neg hSame]

/- Nodes of one length put together in two orders. -/
omit [DecidableEq α] in
/-
  Two pairs are joined to the same bytes only if their parts
  agree, or their parts are all the same.
-/
theorem join_eq_join_iff
    {i j : Nat} {last x s : List α}
    (hLast : last.length = len) (hx : x.length = len)
    (hs : s.length = len) :
    join i last s = join j x s ↔
      last = x ∧ (i % 2 = j % 2 ∨ x = s) := by
  unfold join
  constructor
  · intro hJoin
    split at hJoin
    · split at hJoin
      · have hSame := List.append_inj hJoin (by omega)
        exact ⟨hSame.1, .inl (by omega)⟩
      · have hSame := List.append_inj hJoin (by omega)
        exact ⟨hSame.1.trans hSame.2, .inr hSame.2.symm⟩
    · split at hJoin
      · have hSame := List.append_inj hJoin (by omega)
        exact ⟨hSame.2.trans hSame.1, .inr hSame.1.symm⟩
      · have hSame := List.append_inj hJoin (by omega)
        exact ⟨hSame.2, .inl (by omega)⟩
  · rintro ⟨rfl, hSide | rfl⟩
    · have hParity : i % 2 = 0 ↔ j % 2 = 0 := by omega
      simp only [hParity]
    · split
      · split
        · rfl
        · rfl
      · split
        · rfl
        · rfl

/- The sibling is a node of its level. -/
theorem sibling_mem
    {nl : List (List α)} {j : Nat} {x : List α}
    (hAt : nl[j]? = some x) :
    sibling nl j ∈ nl := by
  have hLt := (List.getElem?_eq_some_iff.mp hAt).1
  have hLeft :
      nl.getD (2 * (j / 2)) [] ∈ nl := by
    rw [List.getD_eq_getElem?_getD,
      List.getElem?_eq_getElem (by omega)]
    exact List.getElem_mem _
  unfold sibling
  dsimp only
  split
  · cases hRight : nl[2 * (j / 2) + 1]? with
    | none => exact hLeft
    | some right => exact List.mem_of_getElem? hRight
  · exact hLeft

/-
  The path of leaf `j`, climbed at index `i` from any node:
  the sides are taken from `i` only.
-/
theorem climb_path_iff
    (hHash : ∀ x, (hash x).length = len)
    (hInj : Set.InjOn hash Q)
    {fuel i j : Nat} {nl : List (List α)}
    {levels : List (List (List α))} {root last x : List α}
    (hBuild : build hash fuel nl = some (levels, root))
    (hLength : ∀ y ∈ nl, y.length = len)
    (hBuilt : ∀ level ∈ levels, ∀ p ∈ pairs level, p ∈ Q)
    (hAt : nl[j]? = some x) (hLast : last.length = len)
    (hClimbed :
      ∀ p ∈ climbed hash i last (path levels j), p ∈ Q) :
    climb hash i last (path levels j) = root ↔
      last = x ∧ Alike levels i j := by
  induction fuel generalizing nl levels i j last x with
  | zero => cases hBuild
  | succ fuel ih =>
      have hx := hLength x (List.mem_of_getElem? hAt)
      have hs := hLength _ (sibling_mem hAt)
      have hNode : nl.getD j [] = x := by
        rw [List.getD_eq_getElem?_getD, hAt]
        rfl
      have hPair := pairs_sibling hAt
      have hParent :
          (parents hash nl)[j / 2]? =
            some (hash (join j x (sibling nl j))) := by
        unfold parents
        rw [List.getElem?_map, hPair]
        rfl
      have hIn := List.mem_of_getElem? hPair
      have hJoin := join_eq_join_iff (i := i) (j := j)
        hLast hx hs
      unfold build at hBuild
      split at hBuild
      · rename_i hTwo
        rcases Option.map_eq_some_iff.mp hBuild with
          ⟨root', hHead, hEq⟩
        cases hEq
        have hLt := (List.getElem?_eq_some_iff.mp hAt).1
        have hFirst : j / 2 = 0 := by omega
        rw [hFirst, ← List.head?_eq_getElem?, hHead]
          at hParent
        have hStep :
            climb hash i last (path [nl] j) =
              hash (join i last (sibling nl j)) := rfl
        rw [hStep, Option.some.inj hParent]
        constructor
        · intro hSame
          have hBoth :=
            hJoin.mp
              (hInj (hClimbed _ List.mem_cons_self)
                (hBuilt nl List.mem_cons_self _ hIn) hSame)
          exact ⟨hBoth.1, by rw [hNode]; exact hBoth.2,
            trivial⟩
        · rintro ⟨hLeaf, hSide, _⟩
          rw [hNode] at hSide
          rw [hJoin.mpr ⟨hLeaf, hSide⟩]
      · rcases Option.map_eq_some_iff.mp hBuild with
          ⟨⟨up, root'⟩, hUp, hEq⟩
        cases hEq
        rw [List.forall_mem_cons] at hBuilt
        have hStep :
            climb hash i last (path (nl :: up) j) =
              climb hash (i / 2)
                (hash (join i last (sibling nl j)))
                (path up (j / 2)) := rfl
        have hAll :
            ∀ p ∈ climbed hash (i / 2)
                (hash (join i last (sibling nl j)))
                (path up (j / 2)), p ∈ Q :=
          fun p hMem =>
            hClimbed p (List.mem_cons_of_mem _ hMem)
        rw [hStep,
          ih hUp
            (by
              intro y hMem
              rcases List.mem_map.mp hMem with ⟨q, _, rfl⟩
              exact hHash q)
            hBuilt.2 hParent (hHash _) hAll]
        constructor
        · rintro ⟨hSame, hRest⟩
          have hBoth :=
            hJoin.mp
              (hInj (hClimbed _ List.mem_cons_self)
                (hBuilt.1 _ hIn) hSame)
          exact ⟨hBoth.1, by rw [hNode]; exact hBoth.2, hRest⟩
        · rintro ⟨hLeaf, hSide, hRest⟩
          rw [hNode] at hSide
          rw [hJoin.mpr ⟨hLeaf, hSide⟩]
          exact ⟨rfl, hRest⟩

/- A path has one node for each level. -/
theorem length_path
    (levels : List (List (List α))) (j : Nat) :
    (path levels j).length = levels.length := by
  induction levels generalizing j with
  | nil => rfl
  | cons nl levels ih => exact congrArg (· + 1) (ih _)

end Alike

end MerkleTree

end Protocol

------------------------------------------------------------
-- Trees of Equal Leaves
------------------------------------------------------------

namespace Protocol

namespace MerkleTree

section Equal

variable {α : Type*} {hash : List α → List α}

/- The node `k` levels over equal nodes. -/
def up (hash : List α → List α) : Nat → List α → List α
| 0, y => y
| k + 1, y => up hash k (hash (y ++ y))

/- The nodes on the way. -/
def ups (hash : List α → List α) :
    Nat → List α → List (List α)
| 0, _ => []
| k + 1, y => y :: ups hash k (hash (y ++ y))

theorem length_ups (k : Nat) (y : List α) :
    (ups hash k y).length = k := by
  induction k generalizing y with
  | zero => rfl
  | succ k ih => exact congrArg (· + 1) (ih _)

/- Nodes beside equal ones are climbed at every index. -/
theorem climb_ups (k i : Nat) (y : List α) :
    climb hash i y (ups hash k y) = up hash k y := by
  induction k generalizing i y with
  | zero => rfl
  | succ k ih =>
      have hJoin : join i y y = y ++ y := ite_self _
      have hStep :
          climb hash i y (ups hash (k + 1) y) =
            climb hash (i / 2) (hash (join i y y))
              (ups hash k (hash (y ++ y))) := rfl
      rw [hStep, hJoin]
      exact ih _ _

/- Climbing beside copies only joins copies. -/
theorem mem_climbed_ups
    {k i : Nat} {y p : List α}
    (hMem : p ∈ climbed hash i y (ups hash k y)) :
    ∃ m < k, p = up hash m y ++ up hash m y := by
  induction k generalizing i y with
  | zero => cases hMem
  | succ k ih =>
      have hJoin : join i y y = y ++ y := ite_self _
      have hStep :
          climbed hash i y (ups hash (k + 1) y) =
            join i y y ::
              climbed hash (i / 2) (hash (join i y y))
                (ups hash k (hash (y ++ y))) := rfl
      rw [hStep, hJoin] at hMem
      rcases List.mem_cons.mp hMem with rfl | hMem
      · exact ⟨0, Nat.succ_pos k, rfl⟩
      · rcases ih hMem with ⟨m, hm, rfl⟩
        exact ⟨m + 1, Nat.succ_lt_succ hm, rfl⟩

/- Pairs of copies are copies of one pair. -/
theorem pairs_replicate (m : Nat) (y : List α) :
    pairs (List.replicate m y) =
      List.replicate ((m + 1) / 2) (y ++ y) := by
  induction m using Nat.strongRecOn with
  | ind m ih =>
      match m with
      | 0 => rfl
      | 1 => rfl
      | m + 2 =>
          have hHalf : (m + 2 + 1) / 2 = (m + 1) / 2 + 1 := by
            omega
          rw [hHalf, List.replicate_succ, List.replicate_succ,
            List.replicate_succ]
          unfold pairs
          rw [ih m (by omega)]

/- The parents of copies are copies. -/
theorem parents_replicate (m : Nat) (y : List α) :
    parents hash (List.replicate m y) =
      List.replicate ((m + 1) / 2) (hash (y ++ y)) := by
  unfold parents
  rw [pairs_replicate, List.map_replicate]

/- All that is hashed is a node beside itself. -/
theorem build_replicate
    {fuel m : Nat} {y root : List α}
    {levels : List (List (List α))}
    (hBuild :
      build hash fuel (List.replicate m y) =
        some (levels, root)) :
    root = up hash levels.length y ∧
      ∀ level ∈ levels, ∀ p ∈ pairs level,
        ∃ k < levels.length, p = up hash k y ++ up hash k y := by
  induction fuel generalizing m y levels with
  | zero => cases hBuild
  | succ fuel ih =>
      unfold build at hBuild
      rw [parents_replicate] at hBuild
      split at hBuild
      · rename_i hTwo
        rcases Option.map_eq_some_iff.mp hBuild with
          ⟨root', hHead, hEq⟩
        cases hEq
        rw [List.length_replicate] at hTwo
        rw [hTwo] at hHead
        cases hHead
        refine ⟨rfl, ?_⟩
        intro level hLevel p hp
        rw [List.mem_singleton.mp hLevel, pairs_replicate]
          at hp
        exact
          ⟨0, Nat.one_pos, (List.mem_replicate.mp hp).2⟩
      · rcases Option.map_eq_some_iff.mp hBuild with
          ⟨⟨rest, root'⟩, hUp, hEq⟩
        cases hEq
        rcases ih hUp with ⟨hRoot, hPairs⟩
        refine ⟨hRoot, ?_⟩
        intro level hLevel p hp
        rcases List.mem_cons.mp hLevel with rfl | hLevel
        · rw [pairs_replicate] at hp
          exact
            ⟨0, Nat.succ_pos _, (List.mem_replicate.mp hp).2⟩
        · rcases hPairs level hLevel p hp with ⟨k, hk, rfl⟩
          exact ⟨k + 1, Nat.succ_lt_succ hk, rfl⟩

/- Copies are padded with one more copy. -/
theorem pad_replicate (m : Nat) (y : List α) :
    pad (List.replicate m y) = List.replicate (m + m % 2) y := by
  unfold pad
  rw [List.length_replicate]
  split
  · rename_i hOdd
    rw [List.getLast?_replicate, if_neg (by omega), hOdd,
      List.replicate_succ']
    rfl
  · rw [show m % 2 = 0 by omega, Nat.add_zero]

/- A leaf that is the pair of two such leaves, and so on. -/
def chain (hash : List α → List α) : Nat → List α
| 0 => []
| k + 1 => hash (chain hash k) ++ hash (chain hash k)

/- Going up from a node of the chain stays in the chain. -/
theorem up_chain (k e : Nat) :
    up hash k (hash (chain hash e)) =
      hash (chain hash (e + k)) := by
  induction k generalizing e with
  | zero => rfl
  | succ k ih =>
      rw [← Nat.add_assoc, Nat.add_right_comm]
      exact ih (e + 1)

/- The chain of hashes never comes back to its start. -/
theorem chain_ne
    {len e : Nat} (hHash : ∀ x, (hash x).length = len)
    (hPos : 0 < len) (hSucc : 0 < e) :
    chain hash e ≠ chain hash 0 := by
  cases e with
  | zero => exact absurd hSucc (Nat.lt_irrefl 0)
  | succ e =>
      intro hEq
      have hLength := congrArg List.length hEq
      have hSum :
          (chain hash (e + 1)).length = len + len := by
        unfold chain
        rw [List.length_append, hHash]
      rw [hSum] at hLength
      have hZero : len + len = 0 := hLength
      omega

/- A tree over equal leaves of the chain. -/
theorem newTree_chain
    {m e : Nat} (hPos : 0 < m) :
    ∃ levels,
      newTree hash (List.replicate m (chain hash e)) =
          some
            (levels, hash (chain hash (e + levels.length))) ∧
        levels.length = Nat.clog 2 (m + m % 2) ∧
          ∀ x ∈ hashed (List.replicate m (chain hash e))
              levels,
            ∃ k ≤ e + levels.length, x = chain hash k := by
  have hSome :
      List.replicate m (chain hash e) ≠ [] := by
    intro hNil
    rw [List.replicate_eq_nil_iff] at hNil
    omega
  rcases Option.isSome_iff_exists.mp
      (newTree_isSome hash hSome) with
    ⟨⟨levels, root⟩, hTree⟩
  rcases newTree_eq_some hTree with ⟨_, hBuild, hHeight⟩
  rw [List.map_replicate, pad_replicate] at hBuild
  rw [List.length_replicate] at hHeight
  rcases build_replicate hBuild with ⟨rfl, hPairs⟩
  refine ⟨levels, ?_, hHeight, ?_⟩
  · rw [hTree, up_chain]
  · intro x hMem
    rcases List.mem_append.mp hMem with hLeaf | hPair
    · exact
        ⟨e, Nat.le_add_right _ _,
          (List.mem_replicate.mp hLeaf).2⟩
    · rcases List.mem_flatMap.mp hPair with
        ⟨level, hLevel, hx⟩
      rcases hPairs level hLevel x hx with ⟨k, hk, rfl⟩
      rw [up_chain]
      exact ⟨e + k + 1, by omega, rfl⟩

end Equal

end MerkleTree

end Protocol
