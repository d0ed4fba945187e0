import Mathlib.Data.Set.Function
import Mathlib.Data.List.Basic
import Mathlib.Data.Nat.Log

/-
  Trees of hashes over a list of leaves.

  A level without a neighbour for its last node pairs that
  node with itself. A path climbs from a leaf to the root;
  whoever hands it over chooses the nodes beside it. Hashes
  have one length, and no two inputs that have been hashed
  collide; then a path that is as long as the tree is high
  ends at the root only from the leaf at its index.

  Main declarations:
    * `pairs` and `parents`
    * `build`
    * `newTree`
    * `climb`
    * `length_levels`
    * `build_binds` and `newTree_binds`
    * `build_inj` and `newTree_inj`
-/

------------------------------------------------------------
-- Levels
------------------------------------------------------------

namespace Protocol

namespace MerkleTree

section Levels

variable {α : Type*}

/- What is hashed to get from one level to the next. -/
def pairs : List (List α) → List (List α)
| [] => []
| [x] => [x ++ x]
| x :: y :: rest => (x ++ y) :: pairs rest

/- The level above: the hashes of the pairs. -/
def parents
    (hash : List α → List α) (nl : List (List α)) :
    List (List α) :=
  (pairs nl).map hash

/- All levels below the root, and the root. -/
def build (hash : List α → List α) :
    Nat → List (List α) →
      Option (List (List (List α)) × List α)
| 0, _ => none
| fuel + 1, nl =>
    if nl.length = 2 then
      (parents hash nl).head?.map fun root => ([nl], root)
    else
      (build hash fuel (parents hash nl)).map
        fun (levels, root) => (nl :: levels, root)

/- An odd number of leaves is made even. -/
def pad (leaves : List (List α)) : List (List α) :=
  if leaves.length % 2 = 1 then
    leaves ++ leaves.getLast?.toList
  else leaves

/- Build the levels over the hashes of the contents. -/
def newTree
    (hash : List α → List α) (contents : List (List α)) :
    Option (List (List (List α)) × List α) :=
  if contents = [] then none
  else
    build hash (contents.length + 1)
      (pad (contents.map hash))

/- The nodes beside the way from a leaf to the root. -/
def path [DecidableEq α] :
    List (List (List α)) → Nat → List (List α)
| [], _ => []
| nl :: levels, i =>
    let left := nl.getD (2 * (i / 2)) []
    let right := nl[2 * (i / 2) + 1]?.getD left
    (if left = nl.getD i [] then right else left) ::
      path levels (i / 2)

/- Everything that is hashed for a tree. -/
def hashed
    (contents : List (List α))
    (levels : List (List (List α))) : List (List α) :=
  contents ++ levels.flatMap pairs

/- Half as many pairs, and one for an odd node. -/
theorem length_pairs (nl : List (List α)) :
    (pairs nl).length = (nl.length + 1) / 2 := by
  induction nl using pairs.induct with
  | case1 => simp [pairs]
  | case2 x => simp [pairs]
  | case3 x y rest ih =>
      unfold pairs
      rw [List.length_cons, ih, List.length_cons,
        List.length_cons]
      omega

theorem length_parents
    (hash : List α → List α) (nl : List (List α)) :
    (parents hash nl).length = (nl.length + 1) / 2 := by
  unfold parents
  rw [List.length_map, length_pairs]

/- The levels shrink until two nodes are left. -/
theorem build_isSome
    (hash : List α → List α) {fuel : Nat}
    {nl : List (List α)}
    (hTwo : 2 ≤ nl.length) (hFuel : nl.length ≤ fuel) :
    (build hash fuel nl).isSome := by
  induction fuel generalizing nl with
  | zero => omega
  | succ fuel ih =>
      have hParents := length_parents hash nl
      unfold build
      split
      · rename_i hLength
        cases hNodes : parents hash nl with
        | nil =>
            rw [hNodes, List.length_nil] at hParents
            omega
        | cons root rest => rfl
      · rename_i hLength
        rw [Option.isSome_map]
        exact ih (by omega) (by omega)

/- Padding makes the number of leaves even. -/
theorem length_pad (leaves : List (List α)) :
    (pad leaves).length =
      leaves.length + leaves.length % 2 := by
  unfold pad
  split
  · rename_i hOdd
    have hNe : leaves ≠ [] := by
      rintro rfl
      cases hOdd
    rw [List.getLast?_eq_some_getLast hNe,
      Option.toList_some, List.length_append,
      List.length_singleton, hOdd]
  · omega

/- There is a tree over any contents that are not empty. -/
theorem newTree_isSome
    (hash : List α → List α) {contents : List (List α)}
    (hSome : contents ≠ []) :
    (newTree hash contents).isSome := by
  unfold newTree
  rw [if_neg hSome]
  have hPos := List.length_pos_iff.mpr hSome
  apply build_isSome
  · rw [length_pad, List.length_map]
    omega
  · rw [length_pad, List.length_map]
    omega

/- The height depends on the number of leaves only. -/
theorem length_levels
    {hash : List α → List α} {fuel : Nat}
    {nl : List (List α)} {levels : List (List (List α))}
    {root : List α} (hTwo : 2 ≤ nl.length)
    (hBuild : build hash fuel nl = some (levels, root)) :
    levels.length = Nat.clog 2 nl.length := by
  induction fuel generalizing nl levels with
  | zero => cases hBuild
  | succ fuel ih =>
      have hParents := length_parents hash nl
      rw [Nat.clog_of_two_le Nat.one_lt_two hTwo]
      unfold build at hBuild
      split at hBuild
      · rename_i hLength
        rcases Option.map_eq_some_iff.mp hBuild with
          ⟨_, _, hEq⟩
        cases hEq
        rw [hLength]
        rfl
      · rename_i hLength
        rcases Option.map_eq_some_iff.mp hBuild with
          ⟨⟨rest, _⟩, hUp, hEq⟩
        cases hEq
        rw [List.length_cons, ih (by omega) hUp, hParents]
        congr 2

/- What a tree is built from. -/
theorem newTree_eq_some
    {hash : List α → List α} {contents : List (List α)}
    {levels : List (List (List α))} {root : List α}
    (hTree : newTree hash contents = some (levels, root)) :
    contents ≠ [] ∧
      build hash (contents.length + 1)
          (pad (contents.map hash)) =
        some (levels, root) ∧
        levels.length =
          Nat.clog 2
            (contents.length + contents.length % 2) := by
  unfold newTree at hTree
  rcases Option.ite_none_left_eq_some.mp hTree with
    ⟨hSome, hBuild⟩
  refine ⟨hSome, hBuild, ?_⟩
  have hLength :
      (pad (contents.map hash)).length =
        contents.length + contents.length % 2 := by
    rw [length_pad, List.length_map]
  have hPos := List.length_pos_iff.mpr hSome
  rw [← hLength]
  exact length_levels (by omega) hBuild

/- A node in an even place is the left of its pair. -/
theorem pairs_even
    {nl : List (List α)} {m : Nat} {x : List α}
    (hAt : nl[2 * m]? = some x) :
    (pairs nl)[m]? =
      some (x ++ nl[2 * m + 1]?.getD x) := by
  induction nl using pairs.induct generalizing m with
  | case1 => cases hAt
  | case2 y =>
      cases m with
      | zero =>
          cases hAt
          rfl
      | succ m => cases hAt
  | case3 y z rest ih =>
      cases m with
      | zero =>
          cases hAt
          rfl
      | succ m => exact ih hAt

/- A node in an odd place is the right of its pair. -/
theorem pairs_odd
    {nl : List (List α)} {m : Nat} {y : List α}
    (hAt : nl[2 * m + 1]? = some y) :
    ∃ x, nl[2 * m]? = some x ∧
      (pairs nl)[m]? = some (x ++ y) := by
  induction nl using pairs.induct generalizing m with
  | case1 => cases hAt
  | case2 x => cases hAt
  | case3 x z rest ih =>
      cases m with
      | zero =>
          cases hAt
          exact ⟨x, rfl, rfl⟩
      | succ m => exact ih hAt

end Levels

end MerkleTree

end Protocol

------------------------------------------------------------
-- Paths
------------------------------------------------------------

namespace Protocol

namespace MerkleTree

section Paths

variable {α : Type*}

/- A node and the one beside it, in the order of the level. -/
def join (i : Nat) (last sibling : List α) : List α :=
  if i % 2 = 0 then last ++ sibling else sibling ++ last

/- From a node at an index up to the root. -/
def climb (hash : List α → List α) :
    Nat → List α → List (List α) → List α
| _, last, [] => last
| i, last, sibling :: rest =>
    climb hash (i / 2) (hash (join i last sibling)) rest

/- What is hashed on the way. -/
def climbed (hash : List α → List α) :
    Nat → List α → List (List α) → List (List α)
| _, _, [] => []
| i, last, sibling :: rest =>
    join i last sibling ::
      climbed hash (i / 2) (hash (join i last sibling)) rest

variable {hash : List α → List α} {Q : Set (List α)}
variable {len : Nat}

/- A pair has a node of the level at its index. -/
theorem join_binds
    {nl : List (List α)} {i : Nat}
    {last sibling x p : List α}
    (hLength : ∀ y ∈ nl, y.length = len)
    (hLast : last.length = len)
    (hAt : nl[i]? = some x)
    (hPair : (pairs nl)[i / 2]? = some p)
    (hJoin : join i last sibling = p) :
    last = x := by
  have hx := hLength x (List.mem_of_getElem? hAt)
  unfold join at hJoin
  split at hJoin
  · rename_i hEven
    have hIndex : i = 2 * (i / 2) := by omega
    rw [hIndex] at hAt
    rw [pairs_even hAt] at hPair
    cases hPair
    exact (List.append_inj hJoin (by rw [hLast, hx])).1
  · rename_i hOdd
    have hIndex : i = 2 * (i / 2) + 1 := by omega
    rw [hIndex] at hAt
    rcases pairs_odd hAt with ⟨y, _, hEq⟩
    rw [hEq] at hPair
    cases hPair
    exact (List.append_inj' hJoin (by rw [hLast, hx])).2

/-
  A path to the root that is as long as the tree is high
  starts at the node of its index.
-/
theorem build_binds
    (hHash : ∀ x, (hash x).length = len)
    (hInj : Set.InjOn hash Q)
    {fuel i : Nat} {nl : List (List α)}
    {levels : List (List (List α))} {root last x : List α}
    {siblings : List (List α)}
    (hBuild : build hash fuel nl = some (levels, root))
    (hLength : ∀ y ∈ nl, y.length = len)
    (hBuilt : ∀ level ∈ levels, ∀ p ∈ pairs level, p ∈ Q)
    (hAt : nl[i]? = some x)
    (hLast : last.length = len)
    (hFull : siblings.length = levels.length)
    (hClimbed : ∀ p ∈ climbed hash i last siblings, p ∈ Q)
    (hRoot : climb hash i last siblings = root) :
    last = x := by
  induction fuel generalizing nl levels i last x siblings with
  | zero => cases hBuild
  | succ fuel ih =>
      have hIndex : i < nl.length :=
        (List.getElem?_eq_some_iff.mp hAt).1
      have hIn : i / 2 < (pairs nl).length := by
        rw [length_pairs]
        omega
      have hPair := List.getElem?_eq_getElem hIn
      generalize (pairs nl)[i / 2] = p at hPair
      have hParent :
          (parents hash nl)[i / 2]? = some (hash p) := by
        unfold parents
        rw [List.getElem?_map, hPair]
        rfl
      unfold build at hBuild
      split at hBuild
      · rename_i hTwo
        rcases Option.map_eq_some_iff.mp hBuild with
          ⟨root', hHead, hEq⟩
        cases hEq
        rcases List.length_eq_one_iff.mp hFull with
          ⟨sibling, rfl⟩
        have hFirst : i / 2 = 0 := by omega
        rw [hFirst, ← List.head?_eq_getElem?, hHead]
          at hParent
        have hSame :
            hash (join i last sibling) = hash p :=
          hRoot.trans (Option.some.inj hParent)
        have hQ :=
          hBuilt nl (List.mem_singleton_self nl) p
            (List.mem_of_getElem? hPair)
        exact
          join_binds hLength hLast hAt hPair
            (hInj (hClimbed _ List.mem_cons_self) hQ hSame)
      · rcases Option.map_eq_some_iff.mp hBuild with
          ⟨⟨levels', root'⟩, hUp, hEq⟩
        cases hEq
        cases siblings with
        | nil => cases hFull
        | cons sibling rest =>
            rw [List.forall_mem_cons] at hBuilt
            have hJoin := hClimbed _ List.mem_cons_self
            have hSame :
                hash (join i last sibling) = hash p :=
              ih hUp
                (by
                  intro y hMem
                  rcases List.mem_map.mp hMem with
                    ⟨q, _, rfl⟩
                  exact hHash q)
                hBuilt.2 hParent (hHash _)
                (Nat.succ.inj hFull)
                (fun q hMem =>
                  hClimbed q (List.mem_cons_of_mem _ hMem))
                hRoot
            exact
              join_binds hLength hLast hAt hPair
                (hInj hJoin
                  (hBuilt.1 p (List.mem_of_getElem? hPair))
                  hSame)

/- All leaves have the length of a hash. -/
theorem length_of_mem_pad
    (hHash : ∀ x, (hash x).length = len)
    (contents : List (List α)) :
    ∀ y ∈ pad (contents.map hash), y.length = len := by
  have hMem : ∀ y ∈ contents.map hash, y.length = len := by
    intro y hMem
    rcases List.mem_map.mp hMem with ⟨z, _, rfl⟩
    exact hHash z
  intro y hIn
  unfold pad at hIn
  split at hIn
  · rcases List.mem_append.mp hIn with h | h
    · exact hMem y h
    · exact
        hMem y (List.mem_of_getLast? (Option.mem_toList.mp h))
  · exact hMem y hIn

/- Padding only adds at the end. -/
theorem take_pad (leaves : List (List α)) :
    (pad leaves).take leaves.length = leaves := by
  unfold pad
  split
  · exact List.take_left
  · exact List.take_length

theorem pad_getElem?
    {leaves : List (List α)} {i : Nat} {x : List α}
    (hAt : leaves[i]? = some x) :
    (pad leaves)[i]? = some x := by
  unfold pad
  split
  · rw [List.getElem?_append_left
      (List.getElem?_eq_some_iff.mp hAt).1]
    exact hAt
  · exact hAt

/- The same from the content of a leaf. -/
theorem newTree_binds
    (hHash : ∀ x, (hash x).length = len)
    (hInj : Set.InjOn hash Q)
    {contents siblings : List (List α)}
    {levels : List (List (List α))}
    {root content x : List α} {i : Nat}
    (hTree : newTree hash contents = some (levels, root))
    (hHashed : ∀ y ∈ hashed contents levels, y ∈ Q)
    (hAt : contents[i]? = some x)
    (hFull : siblings.length = levels.length)
    (hContent : content ∈ Q)
    (hClimbed :
      ∀ y ∈ climbed hash i (hash content) siblings, y ∈ Q)
    (hRoot : climb hash i (hash content) siblings = root) :
    content = x := by
  have hBuild := (newTree_eq_some hTree).2.1
  have hLeaf :
      (pad (contents.map hash))[i]? = some (hash x) := by
    apply pad_getElem?
    rw [List.getElem?_map, hAt]
    rfl
  have hSame :=
    build_binds hHash hInj hBuild
      (length_of_mem_pad hHash contents)
      (fun level hLevel p hPair =>
        hHashed p
          (List.mem_append_right _
            (List.mem_flatMap.mpr ⟨level, hLevel, hPair⟩)))
      hLeaf (hHash content) hFull hClimbed hRoot
  exact
    hInj hContent
      (hHashed x
        (List.mem_append_left _ (List.mem_of_getElem? hAt)))
      hSame

/- Levels whose pairs are the same are the same. -/
theorem pairs_inj
    {nl nl' : List (List α)}
    (hLength : ∀ y ∈ nl, y.length = len)
    (hLength' : ∀ y ∈ nl', y.length = len)
    (hSize : nl.length = nl'.length)
    (hPairs : pairs nl = pairs nl') :
    nl = nl' := by
  induction nl using pairs.induct generalizing nl' with
  | case1 => exact (List.length_eq_zero_iff.mp hSize.symm).symm
  | case2 x =>
      rcases List.length_eq_one_iff.mp hSize.symm with ⟨y, rfl⟩
      have hx := hLength x (List.mem_singleton_self x)
      have hy := hLength' y (List.mem_singleton_self y)
      have hSame := (List.cons.inj hPairs).1
      rw [(List.append_inj hSame (by rw [hx, hy])).1]
  | case3 x y rest ih =>
      match nl', hSize, hPairs with
      | x' :: y' :: rest', hSize, hPairs =>
          rw [List.forall_mem_cons, List.forall_mem_cons]
            at hLength hLength'
          rcases List.cons.inj hPairs with ⟨hFirst, hRest⟩
          rcases List.append_inj hFirst
            (by rw [hLength.1, hLength'.1]) with ⟨rfl, rfl⟩
          rw [ih hLength.2.2 hLength'.2.2
            (Nat.succ.inj (Nat.succ.inj hSize)) hRest]

/- A map that is injective on two lists keeps them apart. -/
theorem map_inj_of_injOn
    {a b : List (List α)} (hInj : Set.InjOn hash Q)
    (ha : ∀ y ∈ a, y ∈ Q) (hb : ∀ y ∈ b, y ∈ Q)
    (hEq : a.map hash = b.map hash) :
    a = b := by
  induction a generalizing b with
  | nil => exact (List.map_eq_nil_iff.mp hEq.symm).symm
  | cons x a ih =>
      cases b with
      | nil => cases hEq
      | cons y b =>
          rw [List.forall_mem_cons] at ha hb
          rcases List.cons.inj hEq with ⟨hHead, hTail⟩
          rw [hInj ha.1 hb.1 hHead, ih ha.2 hb.2 hTail]

/- Trees of one size with one root are the same. -/
theorem build_inj
    (hHash : ∀ x, (hash x).length = len)
    (hInj : Set.InjOn hash Q)
    {fuel : Nat} {nl nl' : List (List α)}
    {levels levels' : List (List (List α))} {root : List α}
    (hBuild : build hash fuel nl = some (levels, root))
    (hBuild' : build hash fuel nl' = some (levels', root))
    (hLength : ∀ y ∈ nl, y.length = len)
    (hLength' : ∀ y ∈ nl', y.length = len)
    (hSize : nl.length = nl'.length)
    (hBuilt : ∀ level ∈ levels, ∀ p ∈ pairs level, p ∈ Q)
    (hBuilt' : ∀ level ∈ levels', ∀ p ∈ pairs level, p ∈ Q) :
    nl = nl' := by
  have hDigest (l : List (List α)) :
      ∀ y ∈ parents hash l, y.length = len := by
    intro y hMem
    rcases List.mem_map.mp hMem with ⟨z, _, rfl⟩
    exact hHash z
  induction fuel generalizing nl nl' levels levels' with
  | zero => cases hBuild
  | succ fuel ih =>
      have hParents := length_parents hash nl
      have hParents' := length_parents hash nl'
      unfold build at hBuild hBuild'
      rw [← hSize] at hBuild' hParents'
      split at hBuild
      · rename_i hTwo
        rw [if_pos hTwo] at hBuild'
        rcases Option.map_eq_some_iff.mp hBuild with
          ⟨r, hHead, hEq⟩
        rcases Option.map_eq_some_iff.mp hBuild' with
          ⟨r', hHead', hEq'⟩
        cases hEq
        cases hEq'
        rw [List.forall_mem_singleton] at hBuilt hBuilt'
        rw [hTwo] at hParents hParents'
        rcases List.length_eq_one_iff.mp hParents with
          ⟨a, hOne⟩
        rcases List.length_eq_one_iff.mp hParents' with
          ⟨b, hOne'⟩
        rw [hOne, List.head?_cons] at hHead
        rw [hOne', List.head?_cons] at hHead'
        have hSame : parents hash nl = parents hash nl' := by
          rw [hOne, hOne', Option.some.inj hHead,
            Option.some.inj hHead']
        exact
          pairs_inj hLength hLength' hSize
            (map_inj_of_injOn hInj hBuilt hBuilt' hSame)
      · rename_i hMore
        rw [if_neg hMore] at hBuild'
        rcases Option.map_eq_some_iff.mp hBuild with
          ⟨⟨up, r⟩, hUp, hEq⟩
        rcases Option.map_eq_some_iff.mp hBuild' with
          ⟨⟨up', r'⟩, hUp', hEq'⟩
        cases hEq
        cases hEq'
        rw [List.forall_mem_cons] at hBuilt hBuilt'
        have hSame :=
          ih hUp hUp' (hDigest nl) (hDigest nl')
            (by rw [hParents, hParents']) hBuilt.2 hBuilt'.2
        exact
          pairs_inj hLength hLength' hSize
            (map_inj_of_injOn hInj hBuilt.1 hBuilt'.1 hSame)

/- With an injective hash, equal roots have equal contents. -/
theorem newTree_inj
    (hHash : ∀ x, (hash x).length = len)
    (hInj : Set.InjOn hash Q)
    {contents contents' : List (List α)}
    {levels levels' : List (List (List α))} {root : List α}
    (hTree : newTree hash contents = some (levels, root))
    (hTree' : newTree hash contents' = some (levels', root))
    (hSize : contents.length = contents'.length)
    (hHashed : ∀ y ∈ hashed contents levels, y ∈ Q)
    (hHashed' : ∀ y ∈ hashed contents' levels', y ∈ Q) :
    contents = contents' := by
  have hBuild := (newTree_eq_some hTree).2.1
  have hBuild' := (newTree_eq_some hTree').2.1
  rw [← hSize] at hBuild'
  have hPad :=
    build_inj hHash hInj hBuild hBuild'
      (length_of_mem_pad hHash contents)
      (length_of_mem_pad hHash contents')
      (by
        rw [length_pad, length_pad, List.length_map,
          List.length_map, hSize])
      (fun level hLevel p hPair =>
        hHashed p
          (List.mem_append_right _
            (List.mem_flatMap.mpr ⟨level, hLevel, hPair⟩)))
      (fun level hLevel p hPair =>
        hHashed' p
          (List.mem_append_right _
            (List.mem_flatMap.mpr ⟨level, hLevel, hPair⟩)))
  have hMap : contents.map hash = contents'.map hash := by
    rw [← take_pad (contents.map hash),
      ← take_pad (contents'.map hash), hPad, List.length_map,
      List.length_map, hSize]
  exact
    map_inj_of_injOn hInj
      (fun y hMem => hHashed y (List.mem_append_left _ hMem))
      (fun y hMem => hHashed' y (List.mem_append_left _ hMem))
      hMap

end Paths

end MerkleTree

end Protocol
