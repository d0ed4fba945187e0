import Mathlib.Data.List.ProdSigma
import Jumbo.Ordering.Input

/-
  What the loops of the checks compute.

  A loop accepts when every entry passes, and its count is
  the number of entries that it takes as higher.

  Main declarations:
    * `checkEntry_eq_true` and `checkEntry_eq_false`
    * `checkEntries_eq_some`
    * `countHigher_eq_some` and `countHigher_eq_error`
    * `countP_slots`
-/

------------------------------------------------------------
-- Positions
------------------------------------------------------------

namespace Jumbo

namespace Ordering

open Struct

section Positions

variable {n K : Nat}

/- The slots are all pairs. -/
theorem slots_eq_product (n K : Nat) :
    slots n K = List.finRange n ×ˢ List.finRange K :=
  rfl

/- No slot comes twice. -/
theorem slots_nodup (n K : Nat) :
    (slots n K).Nodup := by
  rw [slots_eq_product]
  exact (List.nodup_finRange n).product (List.nodup_finRange K)

/- Every slot has a position in the vector. -/
theorem position_lt (i : Fin n) (j : Fin K) :
    position i j < n * K := by
  unfold position
  have hi := i.isLt
  have hj : j.val + 1 ≤ K := j.isLt
  calc
    j.val * n + i.val < j.val * n + n := by omega
    _ = n * (j.val + 1) := by
      rw [Nat.mul_add, Nat.mul_one, Nat.mul_comm]
    _ ≤ n * K := Nat.mul_le_mul_left n hj

/- Different slots have different positions. -/
theorem position_inj
    {i i' : Fin n} {j j' : Fin K}
    (hEq : position i j = position i' j') :
    i = i' ∧ j = j' := by
  have hPos : 0 < n := i.pos
  unfold position at hEq
  have hMod := congrArg (· % n) hEq
  have hDiv := congrArg (· / n) hEq
  simp only [Nat.mul_add_mod', Nat.mod_eq_of_lt i.isLt,
    Nat.mod_eq_of_lt i'.isLt] at hMod
  simp only [Nat.mul_comm _ n, Nat.mul_add_div hPos,
    Nat.div_eq_of_lt i.isLt, Nat.div_eq_of_lt i'.isLt,
    Nat.add_zero] at hDiv
  exact ⟨Fin.ext hMod, Fin.ext hDiv⟩

/- Every position is that of a slot. -/
theorem exists_position
    {m : Nat} (hLt : m < n * K) :
    ∃ (i : Fin n) (j : Fin K), position i j = m := by
  have hPos : 0 < n := by
    by_contra hZero
    have hNil : n = 0 := by omega
    rw [hNil, Nat.zero_mul] at hLt
    omega
  refine
    ⟨⟨m % n, Nat.mod_lt m hPos⟩,
      ⟨m / n, Nat.div_lt_of_lt_mul hLt⟩, ?_⟩
  exact Nat.div_add_mod' m n

/- Every position is that of a slot. -/
theorem positions_perm (n K : Nat) :
    ((slots n K).map fun (i, j) => position i j).Perm
      (List.range (n * K)) := by
  apply (List.perm_ext_iff_of_nodup ?_ List.nodup_range).mpr
  · intro m
    rw [List.mem_map, List.mem_range]
    constructor
    · rintro ⟨⟨i, j⟩, _, rfl⟩
      exact position_lt i j
    · intro hLt
      rcases exists_position hLt with ⟨i, j, hEq⟩
      exact
        ⟨(i, j), List.pair_mem_product.mpr
          ⟨List.mem_finRange i, List.mem_finRange j⟩, hEq⟩
  · refine (List.nodup_map_iff_inj_on (slots_nodup n K)).mpr ?_
    rintro ⟨i, j⟩ _ ⟨i', j'⟩ _ hEq
    rcases position_inj hEq with ⟨rfl, rfl⟩
    rfl

/- Counting slots is counting positions. -/
theorem countP_slots (p : Nat → Bool) :
    ((slots n K).countP fun (i, j) => p (position i j)) =
      (List.range (n * K)).countP p := by
  rw [← (positions_perm n K).countP_eq p, List.countP_map]
  rfl

/- A list of rows of one length, by row and column. -/
theorem getElem?_flatMap_rows
    {α β : Type*} {f : β → List α} {rows : List β} {len : Nat}
    (hLength : ∀ x ∈ rows, (f x).length = len)
    {r : Nat} {x : β} (hRow : rows[r]? = some x)
    {m : Nat} (hm : m < len) :
    (rows.flatMap f)[r * len + m]? = (f x)[m]? := by
  induction rows generalizing r with
  | nil => cases hRow
  | cons first rows ih =>
      rw [List.forall_mem_cons] at hLength
      rw [List.flatMap_cons]
      cases r with
      | zero =>
          cases hRow
          rw [Nat.zero_mul, Nat.zero_add,
            List.getElem?_append_left
              (by rw [hLength.1]; exact hm)]
      | succ r =>
          have hIndex :
              (r + 1) * len + m - (f first).length =
                r * len + m := by
            rw [hLength.1, Nat.add_one_mul]
            omega
          rw [List.getElem?_append_right
            (by rw [hLength.1, Nat.add_one_mul]; omega),
            hIndex]
          exact ih hLength.2 hRow

/- A table is written as a vector. -/
theorem length_flat {α : Type*} (f : Fin n → Fin K → α) :
    (flat f).length = n * K := by
  unfold flat
  simp [List.length_flatMap, Nat.mul_comm]

/- The entry of a slot stands at its position. -/
theorem flat_position
    {α : Type*} (f : Fin n → Fin K → α) (i : Fin n)
    (j : Fin K) :
    (flat f)[position i j]? = some (f i j) := by
  have hRow : (List.finRange K)[j.val]? = some j := by
    simp
  have hEntry :=
    getElem?_flatMap_rows
      (f := fun j => (List.finRange n).map fun i => f i j)
      (fun _ _ => by simp) hRow i.isLt
  unfold flat position
  rw [hEntry]
  simp

/- Counting the elements of a list by their positions. -/
theorem countP_range_getElem?
    {α : Type*} (p : α → Bool) (xs : List α) :
    ((List.range xs.length).countP fun m => xs[m]?.any p) =
      xs.countP p := by
  induction xs with
  | nil => rfl
  | cons x xs ih =>
      rw [List.length_cons, List.range_succ_eq_map,
        List.countP_cons, List.countP_map, List.countP_cons,
        ← ih]
      rfl

end Positions

end Ordering

end Jumbo

------------------------------------------------------------
-- High Proofs
------------------------------------------------------------

namespace Jumbo

namespace Ordering

open Struct

section HighProofs

variable {n K : Nat} {cfg : Config n} {table : Table n K}
variable {hp old : HighProof}

/- The check of an entry that counts as higher. -/
def checkHigher
    (cfg : Config n) (table : Table n K) (hp : HighProof)
    (rawBC : RawBC) (diff : Int32) (i : Fin n) (j : Fin K) :
    Except Fault Bool :=
  if diff.toInt < (table i j).length then
    checkTable (table i j) hp rawBC
  else checkCertificate cfg hp rawBC

/- An entry that is higher is checked in full. -/
theorem checkEntry_eq_true :
    checkEntry cfg table hp old = .ok (some true) ↔
      ∃ rawBC oldBC i j,
        hp.rawBC = some rawBC ∧ old.rawBC = some oldBC ∧
          0 < rawBC.height - oldBC.height ∧
            Crypto.key n rawBC.leader = some i ∧
              Crypto.key K rawBC.k = some j ∧
                checkHigher cfg table hp rawBC
                  (rawBC.height - oldBC.height) i j =
                  .ok true := by
  unfold checkEntry
  constructor
  · intro hCheck
    split at hCheck
    · rename_i rawBC oldBC hRaw hOld
      dsimp only at hCheck
      split at hCheck
      · rename_i hPos
        split at hCheck
        · rename_i i j hLeader hSid
          refine
            ⟨rawBC, oldBC, i, j, hRaw, hOld, hPos, hLeader,
              hSid, ?_⟩
          change
            (checkHigher cfg table hp rawBC
              (rawBC.height - oldBC.height) i j).map _ = _
            at hCheck
          cases hHigher :
              checkHigher cfg table hp rawBC
                (rawBC.height - oldBC.height) i j with
          | error fault =>
              rw [hHigher] at hCheck
              cases hCheck
          | ok res =>
              rw [hHigher] at hCheck
              cases res with
              | true => rfl
              | false => cases hCheck
        · cases hCheck
      · split at hCheck <;> cases hCheck
    · cases hCheck
  · rintro
      ⟨rawBC, oldBC, i, j, hRaw, hOld, hPos, hLeader, hSid,
        hHigher⟩
    rw [hRaw, hOld]
    dsimp only
    rw [if_pos hPos, hLeader, hSid]
    change (checkHigher cfg table hp rawBC _ i j).map _ = _
    rw [hHigher]
    rfl

/- An entry that is as high as before is not. -/
theorem checkEntry_eq_false :
    checkEntry cfg table hp old = .ok (some false) ↔
      ∃ rawBC oldBC,
        hp.rawBC = some rawBC ∧ old.rawBC = some oldBC ∧
          ¬ 0 < rawBC.height - oldBC.height ∧
            ¬ rawBC.height < oldBC.height := by
  unfold checkEntry
  constructor
  · intro hCheck
    split at hCheck
    · rename_i rawBC oldBC hRaw hOld
      dsimp only at hCheck
      split at hCheck
      · split at hCheck
        · rename_i i j _ _
          change
            (checkHigher cfg table hp rawBC
              (rawBC.height - oldBC.height) i j).map _ = _
            at hCheck
          cases hHigher :
              checkHigher cfg table hp rawBC
                (rawBC.height - oldBC.height) i j with
          | error fault =>
              rw [hHigher] at hCheck
              cases hCheck
          | ok res =>
              rw [hHigher] at hCheck
              cases res <;> cases hCheck
        · cases hCheck
      · rename_i hNot
        split at hCheck
        · cases hCheck
        · rename_i hLow
          exact ⟨rawBC, oldBC, hRaw, hOld, hNot, hLow⟩
    · cases hCheck
  · rintro ⟨rawBC, oldBC, hRaw, hOld, hNot, hLow⟩
    rw [hRaw, hOld]
    dsimp only
    rw [if_neg hNot, if_neg hLow]

/- The entry passes, as higher or not. -/
def passes
    (cfg : Config n) (table : Table n K)
    (entry : HighProof × HighProof) : Bool :=
  match checkEntry cfg table entry.1 entry.2 with
  | .ok (some _) => true
  | _ => false

/- The entry is higher than before and passes. -/
def higher
    (cfg : Config n) (table : Table n K)
    (entry : HighProof × HighProof) : Bool :=
  match checkEntry cfg table entry.1 entry.2 with
  | .ok (some res) => res
  | _ => false

/- The loop counts the entries that pass as higher. -/
theorem checkEntries_eq_some
    {entries : List (HighProof × HighProof)}
    {count total : Nat} :
    checkEntries cfg table entries count = .ok (some total) ↔
      (∀ entry ∈ entries, passes cfg table entry = true) ∧
        total =
          count + entries.countP (higher cfg table) := by
  induction entries generalizing count with
  | nil =>
      constructor
      · intro h
        cases h
        exact ⟨fun _ hMem => (List.not_mem_nil hMem).elim, rfl⟩
      · rintro ⟨_, rfl⟩
        rfl
  | cons entry entries ih =>
      rw [List.forall_mem_cons, List.countP_cons]
      cases hCheck :
          checkEntry cfg table entry.1 entry.2 with
      | error fault =>
          have hPass : passes cfg table entry = false := by
            unfold passes
            rw [hCheck]
          unfold checkEntries
          rw [hCheck, hPass]
          simp
      | ok outcome =>
          cases outcome with
          | none =>
              have hPass : passes cfg table entry = false := by
                unfold passes
                rw [hCheck]
              unfold checkEntries
              rw [hCheck, hPass]
              simp
          | some res =>
              have hPass : passes cfg table entry = true := by
                unfold passes
                rw [hCheck]
              have hHigher :
                  higher cfg table entry = res := by
                unfold higher
                rw [hCheck]
              unfold checkEntries
              rw [hCheck, hPass, hHigher]
              dsimp only
              rw [ih]
              cases res with
              | true =>
                  rw [if_pos rfl, if_pos rfl, Nat.add_assoc,
                    Nat.add_comm 1, eq_self, true_and]
              | false =>
                  rw [if_neg Bool.false_ne_true,
                    if_neg Bool.false_ne_true, Nat.add_zero,
                    eq_self, true_and]

/- The loop fails at the first entry that fails. -/
theorem checkEntries_eq_error
    {entries : List (HighProof × HighProof)} {count : Nat}
    {fault : Fault} :
    checkEntries cfg table entries count = .error fault ↔
      ∃ before entry after,
        entries = before ++ entry :: after ∧
          (∀ e ∈ before, passes cfg table e = true) ∧
            checkEntry cfg table entry.1 entry.2 =
              .error fault := by
  induction entries generalizing count with
  | nil => simp [checkEntries]
  | cons first entries ih =>
      constructor
      · intro hLoop
        unfold checkEntries at hLoop
        split at hLoop
        · rename_i hCheck
          cases hLoop
          exact ⟨[], first, entries, rfl, by simp, hCheck⟩
        · cases hLoop
        · rename_i res hCheck
          rcases ih.mp hLoop with
            ⟨before, entry, after, hEq, hPass, hFault⟩
          refine
            ⟨first :: before, entry, after, by rw [hEq]; rfl,
              List.forall_mem_cons.mpr ⟨?_, hPass⟩, hFault⟩
          unfold passes
          rw [hCheck]
      · rintro ⟨before, entry, after, hEq, hPass, hFault⟩
        unfold checkEntries
        cases before with
        | nil =>
            injection hEq with hFirst hRest
            subst hFirst
            rw [hFault]
        | cons head before =>
            injection hEq with hFirst hRest
            subst hFirst
            rcases List.forall_mem_cons.mp hPass with
              ⟨hHead, hTail⟩
            unfold passes at hHead
            split at hHead
            · rename_i res hCheck
              rw [hCheck]
              exact
                ih.mpr
                  ⟨before, entry, after, hRest, hTail, hFault⟩
            · cases hHead

/- When the check of a vector accepts. -/
theorem checkInputs_eq_true
    {num : Nat} {new old : List HighProof} :
    checkInputs cfg num table (some old) new = .ok true ↔
      old.length = num ∧ new.length = num ∧
        (∀ entry ∈ new.zip old,
          passes cfg table entry = true) ∧
          num * 2 / 3 <
            (new.zip old).countP (higher cfg table) := by
  unfold checkInputs
  dsimp only
  split
  · rename_i hLength
    constructor
    · intro h
      cases h
    · rintro ⟨hOld, hNew, _⟩
      rcases hLength with h | h
      · exact absurd hOld h
      · exact absurd hNew h
  · rename_i hLength
    push Not at hLength
    rw [← and_assoc, and_iff_right hLength]
    have hSome
        (hPass :
          ∀ entry ∈ new.zip old,
            passes cfg table entry = true) :
        checkEntries cfg table (new.zip old) 0 =
          .ok
            (some
              (0 + (new.zip old).countP (higher cfg table))) :=
      checkEntries_eq_some.mpr ⟨hPass, rfl⟩
    cases hLoop : checkEntries cfg table (new.zip old) 0 with
    | error fault =>
        constructor
        · intro h
          cases h
        · rintro ⟨hPass, _⟩
          rw [hSome hPass] at hLoop
          cases hLoop
    | ok outcome =>
        cases outcome with
        | none =>
            constructor
            · intro h
              cases h
            · rintro ⟨hPass, _⟩
              rw [hSome hPass] at hLoop
              cases hLoop
        | some total =>
            rcases checkEntries_eq_some.mp hLoop with
              ⟨hPass, hTotal⟩
            rw [Nat.zero_add] at hTotal
            rw [and_iff_right hPass, ← hTotal,
              Except.ok.injEq, decide_eq_true_iff]

end HighProofs

end Ordering

end Jumbo

------------------------------------------------------------
-- Heights
------------------------------------------------------------

namespace Jumbo

namespace Ordering

open Struct

section Heights

variable {n K : Nat} {new old : List Int32}

/- The loop over the heights of an aggregated proof. -/
theorem countHigher_eq_some
    {is : List Nat} {count total : Nat} :
    countHigher new old is count = .ok (some total) ↔
      (∀ i ∈ is, ∃ height oldHeight,
        new[i]? = some height ∧ old[i]? = some oldHeight ∧
          oldHeight ≤ height) ∧
        total =
          count +
            is.countP fun i =>
              new[i]?.any fun height =>
                old[i]?.any (· < height) := by
  induction is generalizing count with
  | nil =>
      constructor
      · intro h
        cases h
        exact ⟨fun _ hMem => (List.not_mem_nil hMem).elim, rfl⟩
      · rintro ⟨_, rfl⟩
        rfl
  | cons i is ih =>
      rw [List.forall_mem_cons, List.countP_cons]
      unfold countHigher
      cases hNew : new[i]? with
      | none => simp
      | some height =>
          cases hOld : old[i]? with
          | none => simp
          | some oldHeight =>
              dsimp only
              split
              · rename_i hLt
                rw [ih]
                simp [hLt, Int32.le_of_lt hLt]
                omega
              · rename_i hNotLt
                split
                · rename_i hLow
                  simp [hLow]
                · rename_i hNotLow
                  rw [ih]
                  simp [hNotLt, Int32.not_lt.mp hNotLow]

/- A height that is there and not below the last one. -/
def NotLower (new old : List Int32) (i : Nat) : Prop :=
  ∃ height oldHeight,
    new[i]? = some height ∧ old[i]? = some oldHeight ∧
      oldHeight ≤ height

/- The loop fails at the first height that is missing. -/
theorem countHigher_eq_error
    {is : List Nat} {count : Nat} {fault : Fault} :
    countHigher new old is count = .error fault ↔
      fault = .index ∧
        ∃ before i after, is = before ++ i :: after ∧
          (∀ m ∈ before, NotLower new old m) ∧
            (new[i]? = none ∨ old[i]? = none) := by
  induction is generalizing count with
  | nil => simp [countHigher]
  | cons first is ih =>
      constructor
      · intro hLoop
        unfold countHigher at hLoop
        split at hLoop
        · rename_i height oldHeight hNew hOld
          have hNext {total : Nat}
              (hLe : oldHeight ≤ height)
              (hLoop :
                countHigher new old is total =
                  .error fault) :
              fault = .index ∧
                ∃ before i after,
                  first :: is = before ++ i :: after ∧
                    (∀ m ∈ before, NotLower new old m) ∧
                      (new[i]? = none ∨ old[i]? = none) := by
            rcases ih.mp hLoop with
              ⟨hFault, before, i, after, hEq, hAll, hNone⟩
            exact
              ⟨hFault, first :: before, i, after,
                by rw [hEq]; rfl,
                List.forall_mem_cons.mpr
                  ⟨⟨_, _, hNew, hOld, hLe⟩, hAll⟩, hNone⟩
          split at hLoop
          · rename_i hLt
            exact hNext (Int32.le_of_lt hLt) hLoop
          · split at hLoop
            · cases hLoop
            · rename_i hNotLow
              exact hNext (Int32.not_lt.mp hNotLow) hLoop
        · rename_i hNone
          cases hLoop
          refine ⟨rfl, [], first, is, rfl, by simp, ?_⟩
          cases hNew : new[first]? with
          | none => exact .inl rfl
          | some height =>
              cases hOld : old[first]? with
              | none => exact .inr rfl
              | some oldHeight =>
                  exact (hNone _ _ hNew hOld).elim
      · rintro
          ⟨rfl, before, i, after, hEq, hAll, hNone⟩
        unfold countHigher
        cases before with
        | nil =>
            injection hEq with hFirst _
            subst hFirst
            split
            · rename_i hNew hOld
              rw [hNew, hOld] at hNone
              simp at hNone
            · rfl
        | cons head before =>
            injection hEq with hFirst hRest
            subst hFirst
            rcases List.forall_mem_cons.mp hAll with
              ⟨⟨height, oldHeight, hNew, hOld, hLe⟩, hTail⟩
            rw [hNew, hOld]
            have hLoop (total : Nat) :
                countHigher new old is total =
                  .error .index :=
              ih.mpr
                ⟨rfl, before, i, after, hRest, hTail, hNone⟩
            dsimp only
            rw [hLoop, hLoop, if_neg (Int32.not_lt.mpr hLe),
              ite_self]

end Heights

end Ordering

end Jumbo
