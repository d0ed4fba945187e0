import Jumbo.DumboMVBA.Availability

/-
  Whether parties put the same together.

  A shard is accepted when its path ends at the root. How
  long the path is is not checked, and a node inside the
  tree passes for a shard; and a party whose own number is
  decided returns its own proposal under whatever root.
  Where paths have their full length and a decision under
  the own number is for the own proposal, any shards lead to
  one result.

  Main declarations:
    * `Coding`
    * `Net.Regular`
    * `Bound`
    * `Result`
    * `reconstruction_agrees` and `reconstruction_disagrees`
-/

------------------------------------------------------------
-- Coding
------------------------------------------------------------

namespace Jumbo

namespace DumboMVBA

open Crypto (Bytes)
open Protocol
open Struct

variable {n : Nat}

/-
  The coding library: what it encodes to starts with the
  data, it keeps the shards it is given, needs `Threshold`
  of them, and as many determine a codeword.
-/
structure Coding
    (cfg : Config n) (Code : Set (List Bytes)) : Prop where
  length : ∀ shards ∈ Code, shards.length = n
  encode :
    ∀ msg shards, cfg.encode msg = some shards →
      shards ∈ Code ∧ msg <+: shards.flatten
  recover :
    ∀ (given : Fin n → Bytes) shards,
      cfg.recover ((List.finRange n).map given) =
          some shards →
        shards ∈ Code ∧
          (∀ i, given i ≠ [] →
            shards[i.val]? = some (given i)) ∧
            ∃ present : Finset (Fin n),
              threshold n ≤ present.card ∧
                ∀ i ∈ present, given i ≠ []
  determined :
    ∀ shards ∈ Code, ∀ shards' ∈ Code,
      ∀ common : Finset (Fin n),
        threshold n ≤ common.card →
          (∀ i ∈ common,
            shards[i.val]? = shards'[i.val]?) →
            shards = shards'

/- How long a path from a shard to the root is. -/
def pathLength (n : Nat) : Nat :=
  Nat.clog 2 (n + n % 2) + 2

/- What has been taken out of the shards. -/
theorem takeOut_eq
    {m i : Nat} {shards : List Bytes} {out res : Bytes}
    (hShort : out.length < m)
    (hTake : takeOut m shards i out = some res) :
    res = (out ++ shards.flatten).take m := by
  induction shards generalizing i out with
  | nil =>
      unfold takeOut at hTake
      rcases Option.ite_none_left_eq_some.mp hTake with
        ⟨_, hTake⟩
      rw [if_pos (by omega)] at hTake
      cases hTake
  | cons shard shards ih =>
      unfold takeOut at hTake
      split at hTake
      · dsimp only at hTake
        rw [Int.toNat_natCast] at hTake
        rw [List.flatten_cons, ← List.append_assoc]
        by_cases hEnough : m ≤ out.length + shard.length
        · have hLength :
              (out ++ shard.take (m - out.length)).length =
                m := by
            rw [List.length_append, List.length_take]
            omega
          rw [if_pos (by rw [hLength])] at hTake
          rw [← Option.some.inj hTake,
            List.take_append_of_le_length
              (by rw [List.length_append]; exact hEnough),
            List.take_append,
            List.take_of_length_le (Nat.le_of_lt hShort)]
        · have hWhole :
              shard.take (m - out.length) = shard :=
            List.take_of_length_le (by omega)
          rw [hWhole, List.length_append,
            if_neg (by omega)] at hTake
          exact
            ih (by rw [List.length_append]; omega) hTake
      · rw [if_pos (by omega)] at hTake
        cases hTake

/- As many bytes as asked for, none when none are. -/
theorem takeOut_start
    {msglen : Int} {shards : List Bytes} {res : Bytes}
    (hTake : takeOut msglen shards 0 [] = some res) :
    res = shards.flatten.take msglen.toNat := by
  by_cases hPos : 0 < msglen
  · have hCast : (msglen.toNat : Int) = msglen := by omega
    rw [← hCast] at hTake
    rw [takeOut_eq (by simp; omega) hTake, List.nil_append]
  · have hZero : msglen.toNat = 0 := by omega
    rw [hZero, List.take_zero]
    cases shards with
    | nil =>
        unfold takeOut at hTake
        rw [if_neg (by omega), if_neg (by simp; omega)]
          at hTake
        exact (Option.some.inj hTake).symm
    | cons shard shards =>
        unfold takeOut at hTake
        rw [if_neg (by omega), if_neg (by simp; omega)]
          at hTake
        exact (Option.some.inj hTake).symm

end DumboMVBA

end Jumbo

------------------------------------------------------------
-- Shards
------------------------------------------------------------

namespace Jumbo

namespace DumboMVBA

open Crypto (Bytes)
open Protocol
open Struct

variable {n : Nat}

/- A path of full length leads from the shard to the root. -/
def Bound
    (n : Nat) (sha : Bytes → Bytes) (hashed : List Bytes)
    (root : Bytes) (i : Nat) (shard : Bytes) : Prop :=
  ∃ siblings : List Bytes,
    siblings.length + 2 = pathLength n ∧ shard ∈ hashed ∧
      (∀ y ∈ MerkleTree.climbed sha i (sha shard) siblings,
        y ∈ hashed) ∧
        MerkleTree.climb sha i (sha shard) siblings = root

/- The tree over the shards has this root. -/
def Rooted
    (sha : Bytes → Bytes) (hashed shards : List Bytes)
    (root : Bytes) : Prop :=
  ∃ levels,
    MerkleTree.newTree sha shards = some (levels, root) ∧
      ∀ y ∈ MerkleTree.hashed shards levels, y ∈ hashed

/-
  What a reconstruction returns: what is in a codeword with
  the root decided, or nothing, when the codeword put
  together from shards has another root.
-/
inductive Result
    (cfg : Config n) (Code : Set (List Bytes))
    (hashed : List Bytes) (d : Decision) :
    Bytes × Bool → Prop
| matched (shards : List Bytes) :
    shards ∈ Code →
      Rooted cfg.sha hashed shards d.root →
        Result cfg Code hashed d
          (shards.flatten.take d.msglen.toInt.toNat, true)
| mismatched
    (given : Fin n → Bytes) (shards : List Bytes)
    (root : Bytes) :
    cfg.recover ((List.finRange n).map given) =
        some shards →
      (∀ i, given i ≠ [] →
        Bound n cfg.sha hashed d.root i.val (given i)) →
        Rooted cfg.sha hashed shards root →
          root ≠ d.root →
            Result cfg Code hashed d ([], false)

section Shards

variable {cfg : Config n} {Code : Set (List Bytes)}
variable {hashed hashed' : List Bytes} {d : Decision}

/- More hashed bytes keep a shard bound. -/
theorem Bound.mono
    {root shard : Bytes} {i : Nat}
    (hBound : Bound n cfg.sha hashed root i shard)
    (hSubset : ∀ y ∈ hashed, y ∈ hashed') :
    Bound n cfg.sha hashed' root i shard := by
  rcases hBound with
    ⟨siblings, hFull, hShard, hClimbed, hRoot⟩
  exact
    ⟨siblings, hFull, hSubset _ hShard,
      fun y hMem => hSubset y (hClimbed y hMem), hRoot⟩

/- More hashed bytes keep a root over its shards. -/
theorem Rooted.mono
    {shards : List Bytes} {root : Bytes}
    (hRooted : Rooted cfg.sha hashed shards root)
    (hSubset : ∀ y ∈ hashed, y ∈ hashed') :
    Rooted cfg.sha hashed' shards root := by
  rcases hRooted with ⟨levels, hTree, hHashed⟩
  exact
    ⟨levels, hTree, fun y hMem => hSubset y (hHashed y hMem)⟩

/- More hashed bytes keep a result right. -/
theorem Result.mono
    {x : Bytes × Bool}
    (hResult : Result cfg Code hashed d x)
    (hSubset : ∀ y ∈ hashed, y ∈ hashed') :
    Result cfg Code hashed' d x := by
  cases hResult with
  | matched shards hCode hRooted =>
      exact .matched shards hCode (hRooted.mono hSubset)
  | mismatched given shards root hRecover hBound hRooted
      hOther =>
      exact
        .mismatched given shards root hRecover
          (fun i hGiven => (hBound i hGiven).mono hSubset)
          (hRooted.mono hSubset) hOther

/- What the loop of a path that verifies has computed. -/
theorem verifyLoop_eq_true
    {sha : Bytes → Bytes} {i : Nat} {last : Bytes}
    {path : List Bytes}
    (hLoop : verifyLoop sha i last path = true) :
    path.getLast? =
      some (MerkleTree.climb sha i last path.dropLast) := by
  induction path generalizing i last with
  | nil => cases hLoop
  | cons hash rest ih =>
      cases rest with
      | nil =>
          unfold verifyLoop at hLoop
          rw [of_decide_eq_true hLoop]
          rfl
      | cons hash' rest =>
          unfold verifyLoop at hLoop
          have hDiv : (i : Int).tdiv 2 = ((i / 2 : Nat) : Int) :=
            (Int.ofNat_tdiv i 2).symm
          have hMod : (i : Int).tmod 2 = 0 ↔ i % 2 = 0 := by
            have hCast : (i : Int).tmod 2 = ((i % 2 : Nat) : Int) :=
              (Int.ofNat_tmod i 2).symm
            rw [hCast]
            omega
          have hJoin :
              (if i % 2 = 0 then sha (last ++ hash)
                else sha (hash ++ last)) =
                sha (MerkleTree.join i last hash) := by
            unfold MerkleTree.join
            split <;> rfl
          simp only [hDiv, hMod, hJoin] at hLoop
          rw [List.getLast?_cons_cons, List.dropLast_cons_cons]
          exact ih hLoop

/- A path of full length that verifies binds its shard. -/
theorem bound_of_verifyPath
    {root : Bytes} {path : List Bytes} {i : Nat}
    (hPath : verifyPath cfg.sha root path i = true)
    (hFull : path.length = pathLength n) :
    Bound n cfg.sha (hashedPath cfg.sha path i) root i
      (path.headD []) := by
  unfold verifyPath at hPath
  split at hPath
  · cases hPath
  split at hPath
  · cases hPath
  rename_i hLast
  cases path with
  | nil => cases hPath
  | cons shard rest =>
      have hClimb := verifyLoop_eq_true hPath
      have hSame := not_not.mp hLast
      have hRest : rest ≠ [] := by
        rintro rfl
        cases hPath
      rw [List.getLast?_cons_of_ne_nil hRest, hClimb,
        Option.some.injEq] at hSame
      refine
        ⟨rest.dropLast, ?_, List.mem_cons_self,
          fun y hMem => List.mem_cons_of_mem _ hMem, hSame⟩
      have hPos := List.length_pos_iff.mpr hRest
      rw [← hFull, List.length_dropLast, List.length_cons]
      omega

end Shards

end DumboMVBA

end Jumbo

------------------------------------------------------------
-- Runs
------------------------------------------------------------

namespace Jumbo

namespace DumboMVBA

open Crypto (Bytes)
open Protocol
open Struct

variable {n : Nat}

namespace Net

/-
  The condition on a step of a correct party. A decision
  under its own number is for its own proposal in the round,
  and a shard that passes has a path of full length.
-/
def Regular
    (cfg : Config n) (corrupted : Finset (Fin n))
    (s : Net n) : NetAction n → Prop
| .decide id round msg =>
    id ∉ corrupted → ∀ d, decision msg = some d →
      d.id.toInt = id.val + 1 →
        (s.dm id round).mypath.getLast? = some d.root ∧
          d.msglen.toInt = (s.dm id round).mymsg.length
| .shard id round msg =>
    id ∉ corrupted → ∀ d, (s.dm id round).decided = some d →
      verifyPath cfg.sha d.root msg.values
          (msg.id.toInt - 1) =
        true →
        msg.values.length = pathLength n
| _ => True

end Net

/- The shards of the proposal that has been dispersed. -/
def Own
    (cfg : Config n) (dm : Dumbomvba n)
    (hashed : List Bytes) : Prop :=
  ∃ shards root, cfg.encode dm.mymsg = some shards ∧
    Rooted cfg.sha hashed shards root ∧
      dm.mypath.getLast? = some root

/- What is known of a party in a round. -/
structure Reconstructs
    (cfg : Config n) (Code : Set (List Bytes))
    (dm : Dumbomvba n) : Prop where
  own : dm.mypath ≠ [] → Own cfg dm dm.hashed
  idle :
    dm.decided = none →
      (∀ i, dm.shards i = []) ∧ dm.returned = none
  bound :
    ∀ d, dm.decided = some d → ∀ i, dm.shards i ≠ [] →
      Bound n cfg.sha dm.hashed d.root i.val (dm.shards i)
  result :
    ∀ d x, dm.decided = some d → dm.returned = some x →
      Result cfg Code dm.hashed d x

section Handlers

variable {cfg : Config n} {Code : Set (List Bytes)}
variable {id : Fin n} {round : Nat} {dm dm' : Dumbomvba n}

/- More hashed bytes keep the own path right. -/
theorem Own.mono
    {hashed hashed' : List Bytes}
    (hOwn : Own cfg dm hashed)
    (hSubset : ∀ y ∈ hashed, y ∈ hashed') :
    Own cfg dm hashed' := by
  rcases hOwn with ⟨shards, root, hEncode, hRooted, hLast⟩
  exact
    ⟨shards, root, hEncode, hRooted.mono hSubset, hLast⟩

/- At the start there is nothing to reconstruct. -/
theorem reconstructs_new :
    Reconstructs cfg Code (Dumbomvba.new : Dumbomvba n) where
  own := fun h => absurd rfl h
  idle := fun _ => ⟨fun _ => rfl, rfl⟩
  bound := by
    intro d hDecided
    cases hDecided
  result := by
    intro d x hDecided
    cases hDecided

/- Dispersing the own input keeps the invariant. -/
theorem Reconstructs.mine
    {msg : Bytes}
    (h : Reconstructs cfg Code dm)
    (hMine :
      handleMineDispersal cfg id round dm msg = some dm') :
    Reconstructs cfg Code dm' := by
  rcases handleMineDispersal_cases hMine with
    ⟨_, shards, levels, root, mypath, sent, hEncode, hTree,
      hLast, rfl⟩
  have hSubset :
      ∀ y ∈ dm.hashed,
        y ∈ dm.hashed ++ MerkleTree.hashed shards levels :=
    fun _ hMem => List.mem_append_left _ hMem
  exact
    { own := fun _ =>
        ⟨shards, root, hEncode,
          ⟨levels, hTree, fun _ hMem =>
            List.mem_append_right _ hMem⟩, hLast⟩
      idle := h.idle
      bound := fun d hDecided i hShard =>
        (h.bound d hDecided i hShard).mono hSubset
      result := fun d x hDecided hReturned =>
        (h.result d x hDecided hReturned).mono hSubset }

/- More that has been hashed does no harm. -/
theorem Reconstructs.dispersal
    {msg : DumbomvbaMsg}
    (h : Reconstructs cfg Code dm)
    (hDispersal :
      handleDispersal cfg id round dm msg = some dm') :
    Reconstructs cfg Code dm' := by
  rcases handleDispersal_cases hDispersal with
    ⟨root, i, sent, _, _, _, rfl⟩
  have hSubset :
      ∀ y ∈ dm.hashed,
        y ∈ dm.hashed ++
          hashedPath cfg.sha msg.values id.val :=
    fun _ hMem => List.mem_append_left _ hMem
  exact
    { own := fun hStarted => (h.own hStarted).mono hSubset
      idle := h.idle
      bound := fun d hDecided i hShard =>
        (h.bound d hDecided i hShard).mono hSubset
      result := fun d x hDecided hReturned =>
        (h.result d x hDecided hReturned).mono hSubset }

/- A decision starts to count, or returns the own input. -/
theorem Reconstructs.decide
    {d : Decision}
    (hCoding : Coding cfg Code)
    (h : Reconstructs cfg Code dm)
    (hOwn :
      d.id.toInt = id.val + 1 →
        dm.mypath.getLast? = some d.root ∧
          d.msglen.toInt = dm.mymsg.length)
    (hDecide : handleReconstruct id round dm d = some dm') :
    Reconstructs cfg Code dm' := by
  rcases handleReconstruct_cases hDecide with
    ⟨hFirst, sent, rfl⟩
  rcases h.idle hFirst with ⟨hShards, hReturned⟩
  refine
    { own := h.own
      idle := fun hNone => (by cases hNone)
      bound := fun _ _ i hShard => absurd (hShards i) hShard
      result := ?_ }
  intro d' x hDecided hResult
  cases hDecided
  dsimp only at hResult
  split at hResult
  · -- the own proposal, taken from the own shards
    rename_i hThis
    rcases hOwn hThis with ⟨hRoot, hLength⟩
    have hStarted : dm.mypath ≠ [] := by
      intro hNil
      rw [hNil] at hRoot
      cases hRoot
    rcases h.own hStarted with
      ⟨shards, root, hEncode, hRooted, hLast⟩
    rw [hRoot, Option.some.injEq] at hLast
    rcases hCoding.encode _ _ hEncode with ⟨hCode, hPrefix⟩
    have hTake :
        shards.flatten.take d.msglen.toInt.toNat =
          dm.mymsg := by
      rw [hLength, Int.toNat_natCast]
      exact (List.prefix_iff_eq_take.mp hPrefix).symm
    rw [← Option.some.inj hResult, ← hTake]
    rw [← hLast] at hRooted
    exact .matched shards hCode hRooted
  · rw [hReturned] at hResult
    cases hResult

/- A shard with a path of full length is bound. -/
theorem Reconstructs.take
    {d : Decision} {msg : DumbomvbaMsg} {i : Fin n}
    (h : Reconstructs cfg Code dm)
    (hDecided : dm.decided = some d)
    (hReturned : dm.returned = none)
    (hPath :
      verifyPath cfg.sha d.root msg.values
          (msg.id.toInt - 1) =
        true)
    (hKey : Crypto.key n msg.id = some i)
    (hFull : msg.values.length = pathLength n) :
    Reconstructs cfg Code (dm.take cfg i msg.values) := by
  have hSubset :
      ∀ y ∈ dm.hashed,
        y ∈ (dm.take cfg i msg.values).hashed :=
    fun _ hMem => List.mem_append_left _ hMem
  have hIndex : msg.id.toInt - 1 = i.val := by
    have hNumber := Crypto.key_eq_some.mp hKey
    omega
  rw [hIndex] at hPath
  refine
    { own := fun hStarted => (h.own hStarted).mono hSubset
      idle := ?_
      bound := ?_
      result := ?_ }
  · intro hNone
    change dm.decided = none at hNone
    rw [hDecided] at hNone
    cases hNone
  · intro d' hThis j hShard
    change dm.decided = some d' at hThis
    rw [hDecided] at hThis
    cases hThis
    by_cases hEq : j = i
    · subst hEq
      unfold Dumbomvba.take
      dsimp only
      rw [Function.update_self]
      exact
        (bound_of_verifyPath hPath hFull).mono
          fun _ hMem => List.mem_append_right _ hMem
    · unfold Dumbomvba.take at hShard ⊢
      dsimp only at hShard ⊢
      rw [Function.update_of_ne hEq] at hShard ⊢
      exact (h.bound d hDecided j hShard).mono hSubset
  · intro d' x _ hThis
    change dm.returned = some x at hThis
    rw [hReturned] at hThis
    cases hThis

/- What has been put together from bound shards. -/
theorem Reconstructs.finish
    {d : Decision}
    (hCoding : Coding cfg Code)
    (h : Reconstructs cfg Code dm)
    (hDecided : dm.decided = some d)
    (hFinish : DumboMVBA.finish cfg dm d = some dm') :
    Reconstructs cfg Code dm' := by
  rcases finish_cases hFinish with
    ⟨shards, input, levels, root, hRecover, hTake, hTree,
      rfl⟩
  have hSubset :
      ∀ y ∈ dm.hashed,
        y ∈ dm.hashed ++ MerkleTree.hashed shards levels :=
    fun _ hMem => List.mem_append_left _ hMem
  have hRooted :
      Rooted cfg.sha
        (dm.hashed ++ MerkleTree.hashed shards levels) shards
        root :=
    ⟨levels, hTree, fun _ hMem =>
      List.mem_append_right _ hMem⟩
  refine
    { own := fun hStarted => (h.own hStarted).mono hSubset
      idle := ?_
      bound := fun d' hThis i hShard =>
        (h.bound d' hThis i hShard).mono hSubset
      result := ?_ }
  · intro hNone
    change dm.decided = none at hNone
    rw [hDecided] at hNone
    cases hNone
  · intro d' x hThis hResult
    change dm.decided = some d' at hThis
    rw [hDecided] at hThis
    cases hThis
    dsimp only at hResult ⊢
    by_cases hSame : root = d.root
    · rw [if_pos hSame, takeOut_start hTake] at hResult
      rw [← Option.some.inj hResult]
      rw [hSame] at hRooted
      exact
        .matched shards (hCoding.recover _ _ hRecover).1
          hRooted
    · rw [if_neg hSame] at hResult
      rw [← Option.some.inj hResult]
      exact
        .mismatched dm.shards shards root hRecover
          (fun i hShard =>
            (h.bound d hDecided i hShard).mono hSubset)
          hRooted hSame

end Handlers

section Runs

variable {cfg : Config n} {Code : Set (List Bytes)}
variable {corrupted : Finset (Fin n)} {s : Net n}

/- It holds in every round of a correct party. -/
theorem reconstructs
    (hCoding : Coding cfg Code)
    (hReach :
      (network cfg).ReachableBy
        (fun s a => s.Regular cfg corrupted a) s)
    {id : Fin n} (hCorrect : id ∉ corrupted) (round : Nat) :
    Reconstructs cfg Code (s.dm id round) := by
  refine
    dm_invariant
      (fun id _ dm =>
        id ∉ corrupted → Reconstructs cfg Code dm)
      (fun _ _ _ => reconstructs_new) ?_ hReach id round
      hCorrect
  intro s a id round dm' _ hRegular _ hHandles hBefore hCorrect
  have h := hBefore hCorrect
  cases a with
  | mine id' round' msg => exact h.mine hHandles.2.2
  | dispersal id' round' msg => exact h.dispersal hHandles.2.2
  | response id' round' msg =>
      rcases handleResponse_cases hHandles.2.2 with
        ⟨_, _, _, rfl⟩
      exact ⟨h.own, h.idle, h.bound, h.result⟩
  | accept id' msg => cases hHandles
  | decide id' round' msg =>
      rcases hHandles with ⟨rfl, rfl, d, hDecision, hDecide⟩
      exact
        h.decide hCoding (hRegular hCorrect d hDecision)
          hDecide
  | shard id' round' msg =>
      rcases hHandles with ⟨rfl, rfl, hShard⟩
      rcases handleShard_cases hShard with
        ⟨d, hDecided, hReturned, rfl |
          ⟨hPath, i, hKey, rfl | hFinish⟩⟩
      · exact h
      · exact
          h.take hDecided hReturned hPath hKey
            (hRegular hCorrect d hDecided hPath)
      · exact
          (h.take hDecided hReturned hPath hKey
            (hRegular hCorrect d hDecided hPath)).finish
            hCoding hDecided hFinish
  | next id' => cases hHandles

/- Everything that correct parties have hashed. -/
def Net.Hashed
    (corrupted : Finset (Fin n)) (s : Net n) : Set Bytes :=
  { y | ∃ id round, id ∉ corrupted ∧
      y ∈ (s.dm id round).hashed }

/- Bound shards belong to the codeword with the root. -/
theorem codeword_eq
    {Q : Set Bytes} {hashed hashed' : List Bytes}
    {given : Fin n → Bytes} {shards shards' : List Bytes}
    {root : Bytes}
    (hCoding : Coding cfg Code)
    (hHash : ∀ x, (cfg.sha x).length = 32)
    (hInj : Set.InjOn cfg.sha Q)
    (hQ : ∀ y ∈ hashed, y ∈ Q) (hQ' : ∀ y ∈ hashed', y ∈ Q)
    (hCode : shards ∈ Code)
    (hRooted : Rooted cfg.sha hashed shards root)
    (hRecover :
      cfg.recover ((List.finRange n).map given) =
        some shards')
    (hBound :
      ∀ i, given i ≠ [] →
        Bound n cfg.sha hashed' root i.val (given i)) :
    shards = shards' := by
  rcases hCoding.recover given shards' hRecover with
    ⟨hCode', hKept, present, hEnough, hPresent⟩
  refine
    hCoding.determined shards hCode shards' hCode' present
      hEnough ?_
  intro i hMem
  have hGiven := hPresent i hMem
  rw [hKept i hGiven]
  have hLength := hCoding.length shards hCode
  have hIndex : i.val < shards.length := by
    rw [hLength]
    exact i.isLt
  have hAt := List.getElem?_eq_getElem hIndex
  rcases hRooted with ⟨levels, hTree, hHashed⟩
  rcases hBound i hGiven with
    ⟨siblings, hFull, hShard, hClimbed, hRoot⟩
  have hHeight := (MerkleTree.newTree_eq_some hTree).2.2
  unfold pathLength at hFull
  rw [hLength] at hHeight
  have hSame :=
    MerkleTree.newTree_binds hHash hInj hTree
      (fun y h => hQ y (hHashed y h)) hAt (by omega)
      (hQ' _ hShard) (fun y h => hQ' y (hClimbed y h)) hRoot
  rw [hAt, hSame]

/- Two results of one decision. -/
theorem Result.agree
    {Q : Set Bytes} {hashed hashed' : List Bytes}
    {d : Decision} {x x' : Bytes × Bool}
    (hCoding : Coding cfg Code)
    (hHash : ∀ x, (cfg.sha x).length = 32)
    (hInj : Set.InjOn cfg.sha Q)
    (hQ : ∀ y ∈ hashed, y ∈ Q) (hQ' : ∀ y ∈ hashed', y ∈ Q)
    (hResult : Result cfg Code hashed d x)
    (hResult' : Result cfg Code hashed' d x') :
    x = x' := by
  cases hResult with
  | matched shards hCode hRooted =>
      cases hResult' with
      | matched shards' hCode' hRooted' =>
          rcases hRooted with ⟨levels, hTree, hHashed⟩
          rcases hRooted' with ⟨levels', hTree', hHashed'⟩
          rw [MerkleTree.newTree_inj hHash hInj hTree hTree'
            (by
              rw [hCoding.length _ hCode,
                hCoding.length _ hCode'])
            (fun y h => hQ y (hHashed y h))
            (fun y h => hQ' y (hHashed' y h))]
      | mismatched given shards' root hRecover hBound hRooted'
          hOther =>
          have hSame :=
            codeword_eq hCoding hHash hInj hQ hQ' hCode
              hRooted hRecover hBound
          rcases hRooted with ⟨levels, hTree, _⟩
          rcases hRooted' with ⟨levels', hTree', _⟩
          rw [hSame, hTree'] at hTree
          cases hTree
          exact absurd rfl hOther
  | mismatched given shards root hRecover hBound hRooted
      hOther =>
      cases hResult' with
      | matched shards' hCode' hRooted' =>
          have hSame :=
            codeword_eq hCoding hHash hInj hQ' hQ hCode'
              hRooted' hRecover hBound
          rcases hRooted with ⟨levels, hTree, _⟩
          rcases hRooted' with ⟨levels', hTree', _⟩
          rw [← hSame, hTree'] at hTree
          cases hTree
          exact absurd rfl hOther
      | mismatched => rfl

/-
  In every run whose steps meet the condition, all correct
  parties return the same for a decision, in whatever rounds
  and from whatever shards.
-/
theorem reconstruction_agrees
    (hCoding : Coding cfg Code)
    (hHash : ∀ x, (cfg.sha x).length = 32)
    (hReach :
      (network cfg).ReachableBy
        (fun s a => s.Regular cfg corrupted a) s)
    (hInj : Set.InjOn cfg.sha (s.Hashed corrupted)) :
    ∀ id id' round round' d x x',
      id ∉ corrupted → id' ∉ corrupted →
        (s.dm id round).decided = some d →
          (s.dm id' round').decided = some d →
            (s.dm id round).returned = some x →
              (s.dm id' round').returned = some x' →
                x = x' := by
  intro id id' round round' d x x' hCorrect hCorrect' hDecided
    hDecided' hReturned hReturned'
  exact
    Result.agree hCoding hHash hInj
      (fun _ hMem => ⟨id, round, hCorrect, hMem⟩)
      (fun _ hMem => ⟨id', round', hCorrect', hMem⟩)
      ((reconstructs hCoding hReach hCorrect round).result d x
        hDecided hReturned)
      ((reconstructs hCoding hReach hCorrect' round').result d
        x' hDecided' hReturned')

end Runs

end DumboMVBA

end Jumbo

------------------------------------------------------------
-- Four Parties
------------------------------------------------------------

namespace Jumbo

namespace DumboMVBA

open Crypto (Bytes)
open Protocol
open Struct

/- Twice and three times a byte, modulo `x^8+x^4+x^3+x^2+1`. -/
def double (b : UInt8) : UInt8 :=
  (b <<< 1) ^^^ (if 128 ≤ b then 29 else 0)

/- Three times a byte. -/
def triple (b : UInt8) : UInt8 :=
  double b ^^^ b

/- Two shards of data and two of parity. -/
def codeword (a b : Bytes) : List Bytes :=
  [a, b, List.zipWith (fun x y => triple x ^^^ double y) a b,
    List.zipWith (fun x y => double x ^^^ triple y) a b]

/- A hash of two bytes, that sees the order. -/
def codedSha (bytes : Bytes) : Bytes :=
  let (x, y) :=
    bytes.foldl
      (fun (acc : UInt8 × UInt8) b =>
        (acc.2 * 3 + b + 1, (acc.1 ^^^ b) * 5 + acc.2))
      (1, 2)
  x :: y :: List.replicate 30 0

/- The tree over the shards. -/
def codedTree
    (shards : List Bytes) : List (List Bytes) × Bytes :=
  (MerkleTree.newTree codedSha shards).getD ([], [])

/- The path of a party over the shards. -/
def codedPath (shards : List Bytes) (id : Fin 4) : List Bytes :=
  getMerklePath (codedTree shards).1 (codedTree shards).2
    shards (shards.getD id.val [])

/- The word of the first party. -/
def ownWord : List Bytes := codeword [1] [2]

/- Another word. -/
def otherWord : List Bytes := codeword [5] [6]

/- A word with long shards. -/
def longWord : List Bytes :=
  codeword (List.replicate 64 1) (List.replicate 64 2)

/- A node in the tree over the long shards. -/
def innerNode : Bytes :=
  (longWord.take 2).flatMap codedSha

/-
  The words there are; one has a node of the tree of another
  as a shard.
-/
def words : List (List Bytes) :=
  [ownWord, otherWord, longWord,
    codeword innerNode (List.replicate 64 2)]

/- What is signed for a dispersal of the shards. -/
def codedSigned (i : Fin 4) (shards : List Bytes) : SignMsg where
  id := number i
  round := 0
  type := 20
  msglen := Int32.ofNat (shards.take 2).flatten.length
  values := [(codedTree shards).2]

/- Only words of this list are encoded and recovered. -/
def codedConfig (signMsg : SignMsg) : Config 4 where
  prim :=
    { plainConfig.prim with
      verify := fun id sign msg =>
        sign = List.replicate 64 (UInt8.ofNat id.val) ∧
          msg = plainMarshal signMsg }
  type := .schnorr
  sign := plainConfig.sign
  sha := codedSha
  marshal := plainMarshal
  encode := fun msg =>
    words.find? fun word => (word.take 2).flatten = msg
  recover := fun given =>
    if 2 ≤ (given.filter (· ≠ [])).length then
      words.find? fun word =>
        (given.zip word).all fun pair =>
          pair.1 = [] ∨ pair.1 = pair.2
    else none

/- A certificate for these shards. -/
def codedMsg
    (i : Fin 4) (shards : List Bytes) (mems : List (Fin 4)) :
    DumbomvbaMsg :=
  { codedSigned i shards with
    sign := none
    ss :=
      some
        ⟨mems.flatMap fun id =>
            List.replicate 64 (UInt8.ofNat id.val),
          mems.map number⟩ }

/- A dispersal under the number of `i`. -/
def codedDispersal
    (i : Fin 4) (shards : List Bytes) (id : Fin 4) :
    NetAction 4 :=
  .dispersal id 0
    { codedSigned i shards with
      values := codedPath shards id
      sign := none
      ss := none }

/- A shard that is handed from one party to another. -/
def codedShard
    (id sender : Fin 4) (path : List Bytes) : NetAction 4 :=
  .shard id 0 (reconstructMsg sender 0 0 path)

/- Two of them have one shard in common at most. -/
theorem words_code :
    (∀ shards ∈ words, shards.length = 4) ∧
      ∀ shards ∈ words, ∀ shards' ∈ words,
        2 ≤ ((List.finRange 4).filter fun i =>
          shards[i.val]? = shards'[i.val]?).length →
          shards = shards' := by
  decide +kernel

/- Every word has four shards. -/
theorem length_words :
    ∀ shards ∈ words, shards.length = 4 :=
  words_code.1

/- The list of words is a code. -/
theorem coding_coded (signMsg : SignMsg) :
    Coding (codedConfig signMsg) { shards | shards ∈ words } where
  length := words_code.1
  encode := by
    intro msg shards hEncode
    have hFind :
        (words.find? fun word =>
          decide ((word.take 2).flatten = msg)) =
          some shards :=
      hEncode
    have hData := List.find?_some hFind
    refine ⟨List.mem_of_find?_eq_some hFind, ?_⟩
    rw [← of_decide_eq_true hData]
    exact List.IsPrefix.flatten <| List.take_prefix 2 shards
  recover := by
    intro given shards hRecover
    rcases Option.ite_none_right_eq_some.mp hRecover with
      ⟨hEnough, hFind⟩
    have hWord := List.mem_of_find?_eq_some hFind
    have hAll := List.find?_some hFind
    refine ⟨hWord, ?_, ?_⟩
    · intro i hGiven
      have hIndex : i.val < shards.length := by
        rw [words_code.1 shards hWord]
        exact i.isLt
      have hAt := List.getElem?_eq_getElem hIndex
      have hPair :
          (given i, shards[i.val]) ∈
            ((List.finRange 4).map given).zip shards := by
        refine List.mem_of_getElem? (i := i.val) ?_
        rw [List.getElem?_zip_eq_some]
        refine ⟨?_, hAt⟩
        simp
      have hSame :=
        of_decide_eq_true (List.all_eq_true.mp hAll _ hPair)
      rw [hAt]
      exact congrArg some (hSame.resolve_left hGiven).symm
    · -- as many are present as are counted
      refine
        ⟨((List.finRange 4).filter (given · ≠ [])).toFinset,
          ?_, ?_⟩
      · rw [List.toFinset_card_of_nodup
          ((List.nodup_finRange 4).filter _)]
        rw [List.filter_map, List.length_map] at hEnough
        exact hEnough
      · intro i hMem
        exact
          of_decide_eq_true
            (List.mem_filter.mp (List.mem_toFinset.mp hMem)).2
  determined := by
    intro shards hCode shards' hCode' common hEnough hSame
    refine words_code.2 shards hCode shards' hCode' ?_
    rw [← List.toFinset_card_of_nodup
      ((List.nodup_finRange 4).filter _)]
    refine
      Nat.le_trans hEnough (Finset.card_le_card fun i hMem => ?_)
    exact
      List.mem_toFinset.mpr
        (List.mem_filter.mpr
          ⟨List.mem_finRange i, decide_eq_true (hSame i hMem)⟩)

/- Where a run ends. -/
def codedNet
    (signMsg : SignMsg) (run : List (NetAction 4)) : Net 4 :=
  (network (codedConfig signMsg)).drive (fun _ _ => true)
    Net.new run

/- The first party proposes, and its proposal is decided. -/
def ownRun : List (NetAction 4) :=
  [.mine 0 0 [1, 2],
    .decide 0 0 (codedMsg 0 ownWord [1, 2, 3]),
    .decide 1 0 (codedMsg 0 ownWord [1, 2, 3]),
    codedShard 1 0 (codedPath ownWord 0),
    codedShard 1 2 (codedPath ownWord 2)]

/- The run with the own input. -/
def ownNet : Net 4 :=
  codedNet (codedSigned 0 ownWord) ownRun

/- What the proposer keeps, and where its run leads. -/
theorem ownNet_computed :
    (let s := codedNet (codedSigned 0 ownWord) (ownRun.take 1);
      (s.dm 0 0).mypath.getLast? = some (codedTree ownWord).2 ∧
        (codedSigned 0 ownWord).msglen.toInt =
          (s.dm 0 0).mymsg.length) ∧
      (∀ id, (codedPath ownWord id).length = pathLength 4) ∧
        (∀ id, ownNet.round id = 0 ∧
          ∀ y ∈ (ownNet.dm id 0).hashed,
            y ∈ (ownNet.dm 0 0).hashed) ∧
          (∀ x ∈ (ownNet.dm 0 0).hashed,
            ∀ y ∈ (ownNet.dm 0 0).hashed,
              codedSha x = codedSha y → x = y) ∧
            (ownNet.dm 0 0).returned = some ([1, 2], true) ∧
              (ownNet.dm 1 0).returned.isSome ∧
                (ownNet.dm 1 0).decided =
                    (ownNet.dm 0 0).decided ∧
                  (ownNet.dm 0 0).decided.isSome := by
  decide +kernel

/- It is a regular run. -/
theorem ownNet_reachable :
    (network
        (codedConfig (codedSigned 0 ownWord))).ReachableBy
      (fun s a =>
        s.Regular (codedConfig (codedSigned 0 ownWord)) {3} a)
      ownNet := by
  rcases ownNet_computed with ⟨hKept, hPaths, _⟩
  refine Machine.ReachableBy.run .init _ ?_
  intro i a hAction
  match i with
  | 0 =>
      rw [← Option.some.inj hAction]
      exact trivial
  | 1 =>
      rw [← Option.some.inj hAction]
      intro _ d hDecision _
      rw [← Option.some.inj hDecision]
      exact hKept
  | 2 =>
      rw [← Option.some.inj hAction]
      intro _ d hDecision hOwn
      rw [← Option.some.inj hDecision] at hOwn
      exact absurd hOwn (by decide)
  | 3 =>
      rw [← Option.some.inj hAction]
      exact fun _ _ _ _ => hPaths 0
  | 4 =>
      rw [← Option.some.inj hAction]
      exact fun _ _ _ _ => hPaths 2
  | i + 5 => cases hAction

/- What is hashed in the run does not collide. -/
theorem ownNet_injOn :
    Set.InjOn codedSha (ownNet.Hashed {3}) := by
  rcases ownNet_computed with ⟨_, _, hRound, hInj, _⟩
  have hOwn (id : Fin 4) (round : Nat) :
      ∀ y ∈ (ownNet.dm id round).hashed,
        y ∈ (ownNet.dm 0 0).hashed := by
    intro y hMem
    cases round with
    | zero => exact (hRound id).2 y hMem
    | succ round =>
        have hLater : ownNet.round id < round + 1 := by
          rw [(hRound id).1]
          exact Nat.succ_pos round
        rw [later_new ownNet_reachable id _ hLater] at hMem
        cases hMem
  rintro x ⟨id, round, _, hx⟩ y ⟨id', round', _, hy⟩ hEq
  exact
    hInj x (hOwn id round x hx) y (hOwn id' round' y hy) hEq

/- Both parties return the input. -/
theorem reconstruction_agrees_own :
    (ownNet.dm 0 0).returned = some ([1, 2], true) ∧
      (ownNet.dm 1 0).returned = some ([1, 2], true) := by
  rcases ownNet_computed with
    ⟨_, _, _, _, hReturned, hDone, hSame, hDecided⟩
  rcases Option.isSome_iff_exists.mp hDone with ⟨x, hDone⟩
  rcases Option.isSome_iff_exists.mp hDecided with
    ⟨d, hDecided⟩
  rw [hDecided] at hSame
  refine ⟨hReturned, ?_⟩
  rw [hDone,
    reconstruction_agrees (coding_coded _) (fun _ => rfl)
      ownNet_reachable ownNet_injOn 0 1 0 0 d _ x (by decide)
      (by decide) hDecided hSame hReturned hDone]

/- Correct parties have signed, whatever is accepted. -/
theorem authentic_coded
    {s : Net 4} {signMsg : SignMsg} {id : Fin 4}
    {msg : DumbomvbaMsg}
    (hSigned :
      ∀ q, q ≠ 3 → signMsg ∈ (s.dm q 0).signed) :
    s.Authentic (codedConfig signMsg) {3} (.accept id msg) := by
  intro batch _
  refine Crypto.genuine_verifyOnly fun q i bytes hVerify => ?_
  rcases of_decide_eq_true hVerify with ⟨_, rfl⟩
  by_cases hLast : q = 3
  · exact .inl (Finset.mem_singleton.mpr hLast)
  · exact .inr ⟨0, signMsg, hSigned q hLast, rfl⟩

/-
  The number of the first party is decided, with the root of
  another dispersal under the number.
-/
def otherRun : List (NetAction 4) :=
  [.mine 0 0 [1, 2], codedDispersal 0 otherWord 0,
    codedDispersal 0 otherWord 1, codedDispersal 0 otherWord 2,
    .accept 0 (codedMsg 0 otherWord [1, 2, 3]),
    .accept 1 (codedMsg 0 otherWord [1, 2, 3]),
    .decide 0 0 (codedMsg 0 otherWord [1, 2, 3]),
    .decide 1 0 (codedMsg 0 otherWord [1, 2, 3]),
    codedShard 1 3 (codedPath otherWord 3),
    codedShard 1 2 (codedPath otherWord 2)]

/- The run with another word under the own number. -/
def otherNet : Net 4 :=
  codedNet (codedSigned 0 otherWord) otherRun

/- One party is handed a node of the tree for a shard. -/
def longRun : List (NetAction 4) :=
  [codedDispersal 3 longWord 0, codedDispersal 3 longWord 1,
    codedDispersal 3 longWord 2,
    .accept 0 (codedMsg 3 longWord [0, 1, 2]),
    .accept 1 (codedMsg 3 longWord [0, 1, 2]),
    .decide 0 0 (codedMsg 3 longWord [0, 1, 2]),
    .decide 1 0 (codedMsg 3 longWord [0, 1, 2]),
    codedShard 0 1 (codedPath longWord 1),
    codedShard 0 2 (codedPath longWord 2),
    codedShard 1 0 (innerNode :: (codedPath longWord 0).drop 2),
    codedShard 1 1 (codedPath longWord 1)]

/- The run with a node in place of a shard. -/
def longNet : Net 4 :=
  codedNet (codedSigned 3 longWord) longRun

/- Before their acceptances all correct parties have signed. -/
theorem signed_before :
    (let net := network (codedConfig (codedSigned 0 otherWord));
      ∀ i ∈ [4, 5], ∀ q, q ≠ 3 →
        codedSigned 0 otherWord ∈
          ((net.drive (fun _ _ => true) net.init
            (otherRun.take i)).dm q 0).signed) ∧
      let net := network (codedConfig (codedSigned 3 longWord));
      ∀ i ∈ [3, 4], ∀ q, q ≠ 3 →
        codedSigned 3 longWord ∈
          ((net.drive (fun _ _ => true) net.init
            (longRun.take i)).dm q 0).signed := by
  decide +kernel

/- Nothing is forged there. -/
theorem otherNet_reachable :
    (network
        (codedConfig (codedSigned 0 otherWord))).ReachableBy
      (fun s a =>
        s.Authentic (codedConfig (codedSigned 0 otherWord))
          {3} a)
      otherNet := by
  refine Machine.ReachableBy.run .init _ ?_
  intro i a hAction
  match i with
  | 0 | 1 | 2 | 3 | 6 | 7 | 8 | 9 =>
      rw [← Option.some.inj hAction]
      exact trivial
  | 4 =>
      rw [← Option.some.inj hAction]
      exact authentic_coded (signed_before.1 4 (by decide))
  | 5 =>
      rw [← Option.some.inj hAction]
      exact authentic_coded (signed_before.1 5 (by decide))
  | i + 10 => cases hAction

/- Nor there. -/
theorem longNet_reachable :
    (network
        (codedConfig (codedSigned 3 longWord))).ReachableBy
      (fun s a =>
        s.Authentic (codedConfig (codedSigned 3 longWord))
          {3} a)
      longNet := by
  refine Machine.ReachableBy.run .init _ ?_
  intro i a hAction
  match i with
  | 0 | 1 | 2 | 5 | 6 | 7 | 8 | 9 | 10 =>
      rw [← Option.some.inj hAction]
      exact trivial
  | 3 =>
      rw [← Option.some.inj hAction]
      exact authentic_coded (signed_before.2 3 (by decide))
  | 4 =>
      rw [← Option.some.inj hAction]
      exact authentic_coded (signed_before.2 4 (by decide))
  | i + 11 => cases hAction

/-
  Two correct parties that accept and decide the same get
  other bytes, or another flag.
-/
theorem reconstruction_disagrees :
    (∃ signMsg msg, ∃ s : Net 4,
      (network (codedConfig signMsg)).ReachableBy
          (fun s a => s.Authentic (codedConfig signMsg) {3} a)
          s ∧
        ((0, 0, msg) ∈ s.accepted ∧ (1, 0, msg) ∈ s.accepted) ∧
          (s.dm 0 0).decided = Net.decision msg ∧
            (s.dm 1 0).decided = Net.decision msg ∧
              (s.dm 0 0).returned = some ([1, 2], true) ∧
                (s.dm 1 0).returned = some ([5, 6], true)) ∧
      ∃ signMsg msg, ∃ s : Net 4,
        (network (codedConfig signMsg)).ReachableBy
            (fun s a =>
              s.Authentic (codedConfig signMsg) {3} a)
            s ∧
          ((0, 0, msg) ∈ s.accepted ∧
              (1, 0, msg) ∈ s.accepted) ∧
            (s.dm 0 0).decided = Net.decision msg ∧
              (s.dm 1 0).decided = Net.decision msg ∧
                (s.dm 0 0).returned =
                    some ((longWord.take 2).flatten, true) ∧
                  (s.dm 1 0).returned = some ([], false) :=
  ⟨⟨_, codedMsg 0 otherWord [1, 2, 3], otherNet,
      otherNet_reachable, by decide +kernel⟩,
    ⟨_, codedMsg 3 longWord [0, 1, 2], longNet,
      longNet_reachable, by decide +kernel⟩⟩

end DumboMVBA

end Jumbo
