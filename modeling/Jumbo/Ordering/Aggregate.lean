import Mathlib.Data.Finset.Card
import Jumbo.Ordering.Forward

/-
  What the check of an aggregated proof guarantees.

  The signers of an entry are read off a bitmap and nothing
  counts them; a back end without aggregation accepts every
  proof; lists that are too short are read out of range; and
  every position is taken for the leader of that number and
  the first instance.

  Main declarations:
    * `Backed`
    * `checkInputsQCagg_eq_true`
    * `Panics`
    * `Enforced`
    * `checkInputsQCagg_sound_iff`
    * `empty_bitmaps_accepted`
-/

------------------------------------------------------------
-- Entries with a Block
------------------------------------------------------------

namespace Jumbo

namespace Ordering

open Crypto (Bytes)
open Struct

section Blocks

variable {n : Nat}

/- The proposal has a block at this position. -/
def hasBlock (proof : QCaggProof) (i : Nat) : Bool :=
  proof.heights[i]?.any (0 ≤ ·)

/- The positions that are aggregated, in their order. -/
def withBlock (proof : QCaggProof) (num : Nat) : List Nat :=
  (List.range num).filter (hasBlock proof)

/- What the members of the entry at `i` have to sign. -/
def message (proof : QCaggProof) (i : Nat) : Bytes :=
  Struct.signbyte (proof.messageHash.getD i [])
    (proof.heights.getD i 0) (Int32.ofNat (i + 1)) 1

/- The numbers that signed the block there. -/
def members
    (proof : QCaggProof) (num i : Nat) : List Int32 :=
  bytes2int32s (proof.mems.getD i []) num

/- Those of them that are parties. -/
def signers
    (n : Nat) (proof : QCaggProof) (num i : Nat) :
    List (Fin n) :=
  (members proof num i).filterMap (Crypto.key n)

/- The loop has what it reads at the position. -/
def Present (proof : QCaggProof) (i : Nat) : Prop :=
  ∃ height, proof.heights[i]? = some height ∧
    (0 ≤ height →
      proof.messageHash[i]?.isSome ∧ proof.mems[i]?.isSome)

variable {proof : QCaggProof} {num : Nat}

/- A position has a block if its height is not negative. -/
theorem mem_withBlock {i : Nat} :
    i ∈ withBlock proof num ↔
      i < num ∧ ∃ height,
        proof.heights[i]? = some height ∧ 0 ≤ height := by
  unfold withBlock hasBlock
  rw [List.mem_filter, List.mem_range,
    Option.any_eq_true]
  simp only [decide_eq_true_iff]

/- The loop panics where an entry is missing. -/
theorem collect_eq_error
    {is : List Nat} {fault : Fault}
    (hLoop : collect proof num is = .error fault) :
    fault = .index ∧ ∃ i ∈ is, ¬ Present proof i := by
  induction is with
  | nil => cases hLoop
  | cons i is ih =>
      have hRest
          (hLoop : collect proof num is = .error fault) :
          fault = .index ∧
            ∃ m ∈ i :: is, ¬ Present proof m := by
        rcases ih hLoop with ⟨hFault, m, hMem, hAbsent⟩
        exact
          ⟨hFault, m, List.mem_cons_of_mem _ hMem, hAbsent⟩
      unfold collect at hLoop
      split at hLoop
      · rename_i hNone
        cases hLoop
        refine ⟨rfl, i, List.mem_cons_self, ?_⟩
        rintro ⟨height, hHeight, _⟩
        rw [hNone] at hHeight
        cases hHeight
      · rename_i height hHeight
        split at hLoop
        · rename_i hBlock
          split at hLoop
          · cases hTail : collect proof num is with
            | error fault' =>
                rw [hTail] at hLoop
                cases hLoop
                exact hRest hTail
            | ok entries =>
                rw [hTail] at hLoop
                cases hLoop
          · rename_i hNone
            cases hLoop
            refine ⟨rfl, i, List.mem_cons_self, ?_⟩
            rintro ⟨height', hHeight', hBoth⟩
            rw [hHeight] at hHeight'
            cases hHeight'
            rcases hBoth hBlock with ⟨hHash, hMems⟩
            rcases Option.isSome_iff_exists.mp hHash with
              ⟨hash, hHash⟩
            rcases Option.isSome_iff_exists.mp hMems with
              ⟨mems, hMems⟩
            exact hNone _ _ hHash hMems
        · exact hRest hLoop

/- Else it gathers the messages and their members. -/
theorem collect_eq_ok
    {is : List Nat} {entries : List (Bytes × List Int32)}
    (hLoop : collect proof num is = .ok entries) :
    (∀ i ∈ is, Present proof i) ∧
      entries =
        (is.filter (hasBlock proof)).map fun i =>
          (message proof i, members proof num i) := by
  induction is generalizing entries with
  | nil =>
      cases hLoop
      exact ⟨fun _ hMem => (List.not_mem_nil hMem).elim, rfl⟩
  | cons i is ih =>
      rw [List.forall_mem_cons, List.filter_cons]
      unfold collect at hLoop
      split at hLoop
      · cases hLoop
      · rename_i height hHeight
        have hHas : hasBlock proof i = decide (0 ≤ height) := by
          unfold hasBlock
          rw [hHeight, Option.any_some]
        rw [hHas]
        split at hLoop
        · rename_i hBlock
          split at hLoop
          · rename_i hash mems hHash hMems
            cases hTail : collect proof num is with
            | error fault =>
                rw [hTail] at hLoop
                cases hLoop
            | ok rest =>
                rw [hTail] at hLoop
                cases hLoop
                rcases ih hTail with ⟨hAll, rfl⟩
                refine ⟨⟨⟨height, hHeight, ?_⟩, hAll⟩, ?_⟩
                · intro _
                  rw [hHash, hMems]
                  exact ⟨rfl, rfl⟩
                · rw [if_pos (decide_eq_true hBlock),
                    List.map_cons]
                  unfold message members
                  rw [List.getD_eq_getElem?_getD,
                    List.getD_eq_getElem?_getD,
                    List.getD_eq_getElem?_getD, hHash, hMems,
                    hHeight]
                  rfl
          · cases hLoop
        · rename_i hNoBlock
          rcases ih hLoop with ⟨hAll, rfl⟩
          refine
            ⟨⟨⟨height, hHeight, fun h => absurd h hNoBlock⟩,
                hAll⟩, ?_⟩
          rw [if_neg (by simpa using hNoBlock)]

end Blocks

end Ordering

end Jumbo

------------------------------------------------------------
-- Outcomes
------------------------------------------------------------

namespace Jumbo

namespace Ordering

open Crypto (Bytes)
open Struct

/- Enough heights are raised and none is lowered. -/
def Raised (num : Nat) (old new : QCaggProof) : Prop :=
  (∀ i < num, NotLower new.heights old.heights i) ∧
    num * 2 / 3 <
      (List.range num).countP fun i =>
        new.heights[i]?.any fun height =>
          old.heights[i]?.any (· < height)

/- A height is there when all before it are not lower. -/
def Readable (num : Nat) (old new : QCaggProof) : Prop :=
  ∀ i < num,
    (∀ m < i, NotLower new.heights old.heights m) →
      new.heights[i]?.isSome ∧ old.heights[i]?.isSome

section Outcomes

variable {n : Nat} {cfg : Config n} {num : Nat}
variable {old new : QCaggProof}

/- Enough heights are above those before. -/
theorem raised_iff :
    Raised num old new ↔
      ∃ count,
        countHigher new.heights old.heights
            (List.range num) 0 =
          .ok (some count) ∧
        num * 2 / 3 < count := by
  unfold Raised NotLower
  simp only [countHigher_eq_some, List.mem_range,
    Nat.zero_add]
  constructor
  · rintro ⟨hAll, hCount⟩
    exact ⟨_, ⟨hAll, rfl⟩, hCount⟩
  · rintro ⟨count, ⟨hAll, rfl⟩, hCount⟩
    exact ⟨hAll, hCount⟩

/- A number splits the range before it. -/
theorem range_eq_append
    {before after : List Nat} {i : Nat}
    (hEq : List.range num = before ++ i :: after) :
    i < num ∧ before = List.range i := by
  have hAt : (List.range num)[before.length]? = some i := by
    rw [hEq, List.getElem?_append_right (Nat.le_refl _),
      Nat.sub_self]
    rfl
  rw [List.getElem?_eq_some_iff] at hAt
  rcases hAt with ⟨hLt, hAt⟩
  rw [List.getElem_range] at hAt
  rw [List.length_range] at hLt
  refine ⟨hAt ▸ hLt, ?_⟩
  have hTake := congrArg (List.take before.length) hEq
  rw [List.take_range, Nat.min_eq_left (Nat.le_of_lt hLt),
    List.take_left, hAt] at hTake
  exact hTake.symm

/- The range is cut at each of its numbers. -/
theorem range_split {i : Nat} (hLt : i < num) :
    ∃ after, List.range num = List.range i ++ i :: after := by
  refine ⟨(List.range num).drop (i + 1), ?_⟩
  have hLength : i < (List.range num).length := by
    rwa [List.length_range]
  have hDrop := List.drop_eq_getElem_cons hLength
  rw [List.getElem_range] at hDrop
  calc
    List.range num =
        (List.range num).take i ++ (List.range num).drop i :=
      (List.take_append_drop i _).symm
    _ = _ := by
      rw [hDrop, List.take_range,
        Nat.min_eq_left (Nat.le_of_lt hLt)]

/- The loop over the heights runs to its end when it can. -/
theorem readable_iff :
    Readable num old new ↔
      ∀ fault,
        countHigher new.heights old.heights
            (List.range num) 0 ≠
          .error fault := by
  constructor
  · intro hReadable fault hLoop
    rcases countHigher_eq_error.mp hLoop with
      ⟨_, before, i, after, hEq, hAll, hNone⟩
    rcases range_eq_append hEq with ⟨hLt, rfl⟩
    have hBoth :=
      hReadable i hLt fun m hm =>
        hAll m (List.mem_range.mpr hm)
    rcases hNone with h | h
    · rw [h] at hBoth
      cases hBoth.1
    · rw [h] at hBoth
      cases hBoth.2
  · intro hLoop i hLt hAll
    rcases range_split hLt with ⟨after, hEq⟩
    have hNot :
        ¬ (new.heights[i]? = none ∨
          old.heights[i]? = none) := by
      intro hNone
      exact
        hLoop .index
          (countHigher_eq_error.mpr
            ⟨rfl, _, i, after, hEq,
              fun m hm => hAll m (List.mem_range.mp hm),
              hNone⟩)
    push Not at hNot
    exact
      ⟨Option.isSome_iff_ne_none.mpr hNot.1,
        Option.isSome_iff_ne_none.mpr hNot.2⟩

/- Heights that were compared are there. -/
theorem Raised.readable
    (hRaised : Raised num old new) :
    Readable num old new := by
  intro i hLt _
  rcases hRaised.1 i hLt with ⟨_, _, hNew, hOld, _⟩
  rw [hNew, hOld]
  exact ⟨rfl, rfl⟩

/- The check panics where a height is missing. -/
theorem checkInputsQCagg_unreadable
    (hNot : ¬ Readable num old new) :
    ∃ fault,
      checkInputsQCagg cfg num (some old) new =
        .error fault := by
  rw [readable_iff] at hNot
  push Not at hNot
  rcases hNot with ⟨fault, hLoop⟩
  refine ⟨fault, ?_⟩
  unfold checkInputsQCagg
  dsimp only
  rw [hLoop]

/- Without enough progress the input is refused. -/
theorem checkInputsQCagg_notRaised
    (hReadable : Readable num old new)
    (hNot : ¬ Raised num old new) :
    checkInputsQCagg cfg num (some old) new =
      .ok false := by
  unfold checkInputsQCagg
  dsimp only
  split
  · rename_i fault hLoop
    exact absurd hLoop (readable_iff.mp hReadable fault)
  · rfl
  · rename_i count hLoop
    rw [if_pos]
    by_contra hEnough
    exact
      hNot
        (raised_iff.mpr
          ⟨count, hLoop, Nat.lt_of_not_le hEnough⟩)

/- Else the signature decides. -/
theorem checkInputsQCagg_raised
    (hRaised : Raised num old new) :
    checkInputsQCagg cfg num (some old) new =
      match collect new num (List.range num) with
      | .error fault => .error fault
      | .ok entries =>
          match Crypto.qcAggregateVerify cfg.prim cfg.type
              new.aggQC (entries.map Prod.fst)
              (entries.map Prod.snd) with
          | none => .error .signature
          | some res => .ok res := by
  rcases raised_iff.mp hRaised with ⟨count, hLoop, hCount⟩
  unfold checkInputsQCagg
  dsimp only
  rw [hLoop]
  dsimp only
  exact (if_neg (Nat.not_le.mpr hCount)).trans rfl

/- It panics where an entry is missing. -/
theorem checkInputsQCagg_absent
    (hRaised : Raised num old new)
    (hNot : ¬ ∀ i < num, Present new i) :
    checkInputsQCagg cfg num (some old) new =
      .error .index := by
  rw [checkInputsQCagg_raised hRaised]
  split
  · rename_i fault hLoop
    rw [(collect_eq_error hLoop).1]
  · rename_i entries hLoop
    exfalso
    apply hNot
    intro i hLt
    exact (collect_eq_ok hLoop).1 i (List.mem_range.mpr hLt)

/- Else the signature under all blocks decides. -/
theorem checkInputsQCagg_present
    (hRaised : Raised num old new)
    (hPresent : ∀ i < num, Present new i) :
    checkInputsQCagg cfg num (some old) new =
      match Crypto.qcAggregateVerify cfg.prim cfg.type
          new.aggQC ((withBlock new num).map (message new))
          ((withBlock new num).map (members new num)) with
      | none => .error .signature
      | some res => .ok res := by
  rw [checkInputsQCagg_raised hRaised]
  split
  · rename_i fault hLoop
    rcases (collect_eq_error hLoop).2 with ⟨i, hMem, hNot⟩
    exact
      absurd (hPresent i (List.mem_range.mp hMem)) hNot
  · rename_i entries hLoop
    rw [(collect_eq_ok hLoop).2, List.map_map, List.map_map]
    rfl

end Outcomes

end Ordering

end Jumbo

------------------------------------------------------------
-- Signers of an Entry
------------------------------------------------------------

namespace Jumbo

namespace Ordering

open Crypto (Bytes)
open Struct

variable {n : Nat}

/- The aggregate verifies, and these are among its parts. -/
def InAggregate
    (cfg : Config n) (aggQC : Bytes) (ids : List (Fin n))
    (msg : Bytes) : Prop :=
  cfg.type = .bls ∧
    ∃ pks msgs,
      cfg.prim.verifyAggregateHashes aggQC pks msgs =
          some true ∧
        (ids, msg) ∈ pks.zip msgs

/-
  What the parties sign for the block of the entry at `i`.
  It is the block of leader `i % n` and instance `i / n`,
  as `handle_rcvOutputCH` and `generate_input` place them.
-/
def ownMessage
    (n : Nat) (proof : QCaggProof) (i : Nat) : Bytes :=
  Struct.signbyte (proof.messageHash.getD i [])
    (proof.heights.getD i 0) (Int32.ofNat (i % n + 1))
    (Int32.ofNat (i / n + 1))

/-
  An entry with a block: the parties its bitmap names are
  more than two thirds, and each of them has signed for the
  leader and the instance of the entry.
-/
def Backed
    (cfg : Config n) (signed : Fin n → Bytes → Prop)
    (num : Nat) (proof : QCaggProof) (i : Nat) : Prop :=
  proof.messageHash[i]?.isSome ∧ proof.mems[i]?.isSome ∧
    InAggregate cfg proof.aggQC (signers n proof num i)
        (ownMessage n proof i) ∧
      n * 2 / 3 < (signers n proof num i).toFinset.card ∧
        ∀ id ∈ signers n proof num i,
          signed id (ownMessage n proof i)

/- The aggregate over the entries with a block. -/
def aggregated
    (cfg : Config n) (num : Nat) (proof : QCaggProof) :
    Option Bool :=
  cfg.prim.verifyAggregateHashes proof.aggQC
    ((withBlock proof num).map (signers n proof num))
    ((withBlock proof num).map (message proof))

/- The bitmap at `i` names a party, and only known ones. -/
def KnownMembers
    (n : Nat) (proof : QCaggProof) (num i : Nat) : Prop :=
  members proof num i ≠ [] ∧
    ∀ mem ∈ members proof num i, (Crypto.key n mem).isSome

instance
    (proof : QCaggProof) (num i : Nat) :
    Decidable (KnownMembers n proof num i) :=
  @instDecidableAnd _ _ _ (List.decidableBAll _ _)

/- What is read out of range or panics in the library. -/
def Panics
    (cfg : Config n) (num : Nat) (old new : QCaggProof) :
    Prop :=
  ¬ Readable num old new ∨
    (Raised num old new ∧
      ((∃ i < num, ¬ Present new i) ∨
        (cfg.type = .bls ∧
          ((∃ i ∈ withBlock new num,
              ¬ KnownMembers n new num i) ∨
            aggregated cfg num new = none))))

/-
  The proof and the last commit are of the form that the
  check relies on and does not look at.

  The lists are long enough, only the first instances have a
  block, the back end aggregates, and every bitmap names
  known parties, more than two thirds of them.
-/
structure Enforced
    (cfg : Config n) (num : Nat) (old new : QCaggProof) :
    Prop where
  heights : num ≤ new.heights.length
  oldHeights : num ≤ old.heights.length
  present :
    ∀ i ∈ withBlock new num,
      new.messageHash[i]?.isSome ∧ new.mems[i]?.isSome
  placed : ∀ i ∈ withBlock new num, i < n
  backend : cfg.type = .bls ∨ withBlock new num = []
  known :
    ∀ i ∈ withBlock new num, ∀ mem ∈ members new num i,
      (Crypto.key n mem).isSome
  quorum :
    ∀ i ∈ withBlock new num,
      n * 2 / 3 < (signers n new num i).toFinset.card
  decodable : cfg.type = .bls → aggregated cfg num new ≠ none

section Sound

variable {cfg : Config n} {signed : Fin n → Bytes → Prop}
variable {num : Nat} {old new : QCaggProof}

/- The check at BLS, once the heights are passed. -/
theorem checkInputsQCagg_bls
    (hRaised : Raised num old new)
    (hPresent : ∀ i < num, Present new i)
    (hType : cfg.type = .bls) :
    checkInputsQCagg cfg num (some old) new =
      match
        if ∀ i ∈ withBlock new num,
            KnownMembers n new num i then
          aggregated cfg num new
        else none
      with
      | none => .error .signature
      | some res => .ok res := by
  have hSame :
      (∀ i ∈ withBlock new num, members new num i ≠ [] ∧
          ∀ mem ∈ members new num i,
            (Crypto.key n mem).isSome) ↔
        ∀ i ∈ withBlock new num, KnownMembers n new num i :=
    Iff.rfl
  rw [checkInputsQCagg_present hRaised hPresent, hType,
    Crypto.qcAggregateVerify_bls, if_congr hSame rfl rfl]
  rfl

/- Other types than BLS are accepted unseen. -/
theorem checkInputsQCagg_other
    (hRaised : Raised num old new)
    (hPresent : ∀ i < num, Present new i)
    (hType : cfg.type ≠ .bls) :
    checkInputsQCagg cfg num (some old) new = .ok true := by
  rw [checkInputsQCagg_present hRaised hPresent]
  cases hBackend : cfg.type with
  | ecdsa => rfl
  | schnorr => rfl
  | schnorrAggregate => rfl
  | bls => exact absurd hBackend hType

/- When the check of an aggregated proof accepts. -/
theorem checkInputsQCagg_eq_true :
    checkInputsQCagg cfg num (some old) new = .ok true ↔
      Raised num old new ∧ (∀ i < num, Present new i) ∧
        (cfg.type = .bls →
          (∀ i ∈ withBlock new num,
              KnownMembers n new num i) ∧
            aggregated cfg num new = some true) := by
  constructor
  · intro hAccept
    have hReadable : Readable num old new := by
      by_contra hNot
      rcases
        (checkInputsQCagg_unreadable hNot :
          ∃ fault,
            checkInputsQCagg cfg num (some old) new =
              .error fault) with
        ⟨fault, hError⟩
      rw [hError] at hAccept
      cases hAccept
    have hRaised : Raised num old new := by
      by_contra hNot
      rw [checkInputsQCagg_notRaised hReadable hNot]
        at hAccept
      cases hAccept
    have hPresent : ∀ i < num, Present new i := by
      by_contra hNot
      rw [checkInputsQCagg_absent hRaised hNot] at hAccept
      cases hAccept
    refine ⟨hRaised, hPresent, fun hType => ?_⟩
    rw [checkInputsQCagg_bls hRaised hPresent hType]
      at hAccept
    split at hAccept
    · cases hAccept
    · rename_i res hRes
      rcases Option.ite_none_right_eq_some.mp hRes with
        ⟨hMembers, hVerify⟩
      rw [Except.ok.inj hAccept] at hVerify
      exact ⟨hMembers, hVerify⟩
  · rintro ⟨hRaised, hPresent, hBls⟩
    by_cases hType : cfg.type = .bls
    · rw [checkInputsQCagg_bls hRaised hPresent hType,
        if_pos (hBls hType).1, (hBls hType).2]
    · exact checkInputsQCagg_other hRaised hPresent hType

/- When the check panics. -/
theorem checkInputsQCagg_eq_error :
    (∃ fault,
        checkInputsQCagg cfg num (some old) new =
          .error fault) ↔
      Panics cfg num old new := by
  unfold Panics
  by_cases hReadable : Readable num old new
  · rw [or_iff_right (not_not.mpr hReadable)]
    by_cases hRaised : Raised num old new
    · rw [and_iff_right hRaised]
      by_cases hPresent : ∀ i < num, Present new i
      · have hAll : ¬ ∃ i < num, ¬ Present new i := by
          push Not
          exact hPresent
        rw [or_iff_right hAll]
        by_cases hType : cfg.type = .bls
        · rw [checkInputsQCagg_bls hRaised hPresent hType,
            and_iff_right hType]
          by_cases hMembers :
              ∀ i ∈ withBlock new num,
                KnownMembers n new num i
          · have hNone :
                ¬ ∃ i ∈ withBlock new num,
                  ¬ KnownMembers n new num i := by
              push Not
              exact hMembers
            rw [if_pos hMembers, or_iff_right hNone]
            cases aggregated cfg num new <;> simp
          · rw [if_neg hMembers]
            push Not at hMembers
            exact
              ⟨fun _ => .inl hMembers, fun _ => ⟨_, rfl⟩⟩
        · rw [checkInputsQCagg_other hRaised hPresent hType]
          simp [hType]
      · rw [checkInputsQCagg_absent hRaised hPresent]
        push Not at hPresent
        exact ⟨fun _ => .inl hPresent, fun _ => ⟨_, rfl⟩⟩
    · rw [checkInputsQCagg_notRaised hReadable hRaised]
      simp [hRaised]
  · exact
      ⟨fun _ => .inl hReadable,
        fun _ => checkInputsQCagg_unreadable hReadable⟩

/- In the first instances the code looks at the right key. -/
theorem message_eq
    {i : Nat} (hLt : i < n) :
    message new i = ownMessage n new i := by
  unfold message ownMessage
  rw [Nat.mod_eq_of_lt hLt, Nat.div_eq_of_lt hLt]
  rfl

/- Further on it looks at a key that no block has. -/
theorem message_ne
    {i : Nat} (hNum : i < 2 ^ 31) (hPos : 0 < n)
    (hBeyond : n ≤ i) :
    message new i ≠ ownMessage n new i := by
  intro hSame
  have hInstance := (Struct.signbyte_inj hSame).2.2.2
  have hDiv : 0 < i / n := Nat.div_pos hBeyond hPos
  have hLe : i / n ≤ i := Nat.div_le_self i n
  have hOne : 1 = i / n + 1 :=
    Struct.int32_ofNat_inj (by omega) (by omega) hInstance
  omega

/- Where all is enforced, all heights are there. -/
theorem Enforced.readable
    (hEnforced : Enforced cfg num old new) :
    Readable num old new := by
  intro i hLt _
  have hNew : i < new.heights.length :=
    Nat.lt_of_lt_of_le hLt hEnforced.heights
  have hOld : i < old.heights.length :=
    Nat.lt_of_lt_of_le hLt hEnforced.oldHeights
  rw [List.getElem?_eq_getElem hNew,
    List.getElem?_eq_getElem hOld]
  exact ⟨rfl, rfl⟩

/- So are all entries. -/
theorem Enforced.presentAll
    (hEnforced : Enforced cfg num old new)
    {i : Nat} (hLt : i < num) :
    Present new i := by
  have hNew : i < new.heights.length :=
    Nat.lt_of_lt_of_le hLt hEnforced.heights
  refine ⟨_, List.getElem?_eq_getElem hNew, fun hBlock => ?_⟩
  apply hEnforced.present
  exact
    mem_withBlock.mpr
      ⟨hLt, _, List.getElem?_eq_getElem hNew, hBlock⟩

/- A quorum has a member. -/
theorem members_ne_nil
    {i : Nat}
    (hQuorum :
      n * 2 / 3 < (signers n new num i).toFinset.card) :
    members new num i ≠ [] := by
  intro hNil
  unfold signers at hQuorum
  rw [hNil] at hQuorum
  exact Nat.not_lt_zero _ hQuorum

/- So the check does not panic. -/
theorem Enforced.not_panics
    (hEnforced : Enforced cfg num old new) :
    ¬ Panics cfg num old new := by
  rintro (hNot | ⟨_, ⟨i, hLt, hNot⟩ | ⟨hType, hLibrary⟩⟩)
  · exact hNot hEnforced.readable
  · exact hNot (hEnforced.presentAll hLt)
  · rcases hLibrary with ⟨i, hMem, hNot⟩ | hNone
    · exact
        hNot
          ⟨members_ne_nil (hEnforced.quorum i hMem),
            hEnforced.known i hMem⟩
    · exact hEnforced.decodable hType hNone

/- An entry of an accepted proof that BLS has looked at. -/
theorem accepted_backed
    (hGenuine :
      Crypto.GenuineAggregate cfg.prim signed new.aggQC)
    (hAccept :
      checkInputsQCagg cfg num (some old) new = .ok true)
    (hType : cfg.type = .bls)
    {i : Nat} (hMem : i ∈ withBlock new num) (hOwn : i < n)
    (hQuorum :
      n * 2 / 3 < (signers n new num i).toFinset.card) :
    Backed cfg signed num new i := by
  rcases checkInputsQCagg_eq_true.mp hAccept with
    ⟨_, hPresent, hBls⟩
  have hVerified := (hBls hType).2
  rcases mem_withBlock.mp hMem with
    ⟨hLt, height, hHeight, hBlock⟩
  rcases hPresent i hLt with ⟨height', hHeight', hBoth⟩
  rw [hHeight] at hHeight'
  cases hHeight'
  rcases hBoth hBlock with ⟨hHash, hMems⟩
  have hPart :
      (signers n new num i, ownMessage n new i) ∈
        ((withBlock new num).map (signers n new num)).zip
          ((withBlock new num).map (message new)) := by
    rw [List.zip_map', ← message_eq hOwn]
    exact List.mem_map.mpr ⟨i, hMem, rfl⟩
  exact
    ⟨hHash, hMems, ⟨hType, _, _, hVerified, hPart⟩, hQuorum,
      hGenuine _ _ hVerified _ hPart⟩

/- What an accepted proof leaves to the one who made it. -/
theorem accepted_backed_iff
    (hGenuine :
      Crypto.GenuineAggregate cfg.prim signed new.aggQC)
    (hAccept :
      checkInputsQCagg cfg num (some old) new = .ok true)
    (hPlaced : ∀ i ∈ withBlock new num, i < n) :
    (∀ i ∈ withBlock new num,
        Backed cfg signed num new i) ↔
      (cfg.type = .bls ∨ withBlock new num = []) ∧
        ∀ i ∈ withBlock new num,
          n * 2 / 3 < (signers n new num i).toFinset.card := by
  constructor
  · intro hBacked
    constructor
    · rcases hBlocks : withBlock new num with _ | ⟨i, is⟩
      · exact .inr rfl
      · have hMem : i ∈ withBlock new num := by
          rw [hBlocks]
          exact List.mem_cons_self
        rcases hBacked i hMem with ⟨_, _, ⟨hType, _⟩, _⟩
        exact .inl hType
    · intro i hMem
      rcases hBacked i hMem with ⟨_, _, _, hQuorum, _⟩
      exact hQuorum
  · rintro ⟨hType | hNil, hQuorum⟩ i hMem
    · exact
        accepted_backed hGenuine hAccept hType hMem
          (hPlaced i hMem) (hQuorum i hMem)
    · rw [hNil] at hMem
      exact (List.not_mem_nil hMem).elim

/-
  What the check guarantees, for every proof and commit.

  Where the condition holds it does not panic, and what it
  accepts is backed. Elsewhere: it panics exactly where it
  reads out of range or the library cannot go on; of the
  proofs it accepts with blocks of first instances only, the
  ones backed are those with quorums and a back end that
  aggregates; and for a block of a later instance it looks at
  signatures over other bytes than those of its entry.
-/
theorem checkInputsQCagg_sound_iff
    (hGenuine :
      Crypto.GenuineAggregate cfg.prim signed new.aggQC) :
    (Enforced cfg num old new →
        (∀ fault,
            checkInputsQCagg cfg num (some old) new ≠
              .error fault) ∧
          (checkInputsQCagg cfg num (some old) new =
              .ok true →
            ∀ i ∈ withBlock new num,
              Backed cfg signed num new i)) ∧
      ((∃ fault,
          checkInputsQCagg cfg num (some old) new =
            .error fault) ↔
        Panics cfg num old new) ∧
      (checkInputsQCagg cfg num (some old) new = .ok true →
        (∀ i ∈ withBlock new num, i < n) →
          ((∀ i ∈ withBlock new num,
              Backed cfg signed num new i) ↔
            (cfg.type = .bls ∨ withBlock new num = []) ∧
              ∀ i ∈ withBlock new num,
                n * 2 / 3 <
                  (signers n new num i).toFinset.card)) ∧
      (0 < n → num ≤ 2 ^ 31 →
        ∀ i ∈ withBlock new num, n ≤ i →
          message new i ≠ ownMessage n new i) := by
  refine
    ⟨fun hEnforced => ⟨fun fault hError => ?_,
        fun hAccept => ?_⟩,
      checkInputsQCagg_eq_error,
      accepted_backed_iff hGenuine,
      fun hPos hNum i hMem hBeyond => ?_⟩
  · exact
      hEnforced.not_panics
        (checkInputsQCagg_eq_error.mp ⟨fault, hError⟩)
  · exact
      (accepted_backed_iff hGenuine hAccept
        hEnforced.placed).mpr
        ⟨hEnforced.backend, hEnforced.quorum⟩
  · have hLt : i < num := (mem_withBlock.mp hMem).1
    exact message_ne (Nat.lt_of_lt_of_le hLt hNum) hPos hBeyond

end Sound

------------------------------------------------------------
-- Bitmaps without a Member
------------------------------------------------------------

/- What is signed for the first blocks of eight leaders. -/
def firstBlocks : List Bytes :=
  (List.range 8).map fun i =>
    Struct.signbyte [] 0 (Int32.ofNat (i + 1)) 1

/- The aggregate is genuine for the first blocks only. -/
def blsConfig : Config 4 where
  prim :=
    { plainConfig.prim with
      verifyAggregateHashes := fun qcs pks msgs =>
        if pks = [] then none
        else some (qcs = [1] ∧ ∀ msg ∈ msgs, msg ∈ firstBlocks) }
  type := .bls
  hash := plainConfig.hash

/- What it verifies was signed. -/
theorem blsConfig_genuine (qcs : Bytes) :
    Crypto.GenuineAggregate blsConfig.prim
      (fun _ msg => msg ∈ firstBlocks) qcs := by
  intro pks msgs hVerify pair hPair id _
  rcases Option.ite_none_left_eq_some.mp hVerify with
    ⟨_, hVerify⟩
  injection hVerify with hVerify
  exact
    (of_decide_eq_true hVerify).2 _ (List.of_mem_zip hPair).2

/- No party has a block. -/
def noBlocks : QCaggProof where
  aggQC := []
  messageHash := [[], [], [], []]
  heights := [-1, -1, -1, -1]
  mems := [[], [], [], []]

/- The first blocks of three leaders, with their signers. -/
def threeBlocks (bitmap : Bytes) : QCaggProof where
  aggQC := [1]
  messageHash := [[], [], [], []]
  heights := [0, 0, 0, -1]
  mems := [bitmap, bitmap, bitmap, []]

/- The same height at all positions of two instances. -/
def twoInstances (height : Int32) : QCaggProof where
  aggQC := [1]
  messageHash := List.replicate 8 []
  heights := List.replicate 8 height
  mems := List.replicate 8 [7]

/- All members of the three blocks are parties. -/
theorem threeBlocks_known :
    ∀ i ∈ withBlock (threeBlocks [7]) 4,
      KnownMembers 4 (threeBlocks [7]) 4 i := by
  decide +kernel

/- The three blocks meet the condition. -/
theorem threeBlocks_enforced :
    Enforced blsConfig 4 noBlocks (threeBlocks [7]) where
  heights := by decide
  oldHeights := by decide
  present := by decide +kernel
  placed := by decide +kernel
  backend := .inl rfl
  known := fun i hMem => (threeBlocks_known i hMem).2
  quorum := by decide +kernel
  decodable := fun _ => by decide +kernel

/- They are accepted and backed. -/
theorem checkInputsQCagg_sound_iff_bls :
    checkInputsQCagg blsConfig 4 (some noBlocks)
          (threeBlocks [7]) =
        .ok true ∧
      ∀ i ∈ withBlock (threeBlocks [7]) 4,
        Backed blsConfig (fun _ msg => msg ∈ firstBlocks) 4
          (threeBlocks [7]) i := by
  have hAccept :
      checkInputsQCagg blsConfig 4 (some noBlocks)
          (threeBlocks [7]) =
        .ok true := by
    decide +kernel
  exact
    ⟨hAccept,
      ((checkInputsQCagg_sound_iff
        (blsConfig_genuine _)).1 threeBlocks_enforced).2
        hAccept⟩

/-
  One signer is enough for BLS, none is for Schnorr, a bitmap
  without a member makes BLS panic, and with two instances
  the fifth entry is accepted with signatures for a leader 5
  where it stands for the second instance of leader 1.
-/
theorem empty_bitmaps_accepted :
    (checkInputsQCagg blsConfig 4 (some noBlocks)
          (threeBlocks [1]) =
        .ok true ∧
      ¬ Backed blsConfig (fun _ msg => msg ∈ firstBlocks) 4
          (threeBlocks [1]) 0) ∧
      (checkInputsQCagg plainConfig 4 (some noBlocks)
            (threeBlocks []) =
          .ok true ∧
        ∀ signed,
          ¬ Backed plainConfig signed 4 (threeBlocks []) 0) ∧
        checkInputsQCagg blsConfig 4 (some noBlocks)
            (threeBlocks []) =
          .error .signature ∧
          (checkInputsQCagg blsConfig 8
                (some (twoInstances (-1)))
                (twoInstances 0) =
              .ok true ∧
            ¬ Backed blsConfig
                (fun _ msg => msg ∈ firstBlocks) 8
                (twoInstances 0) 4) := by
  refine
    ⟨⟨by decide +kernel, ?_⟩, ⟨by decide +kernel, ?_⟩,
      by decide +kernel, by decide +kernel, ?_⟩
  · rintro ⟨_, _, _, hQuorum, _⟩
    revert hQuorum
    decide
  · rintro signed ⟨_, _, hPart, _⟩
    cases hPart.1
  · rintro ⟨_, _, _, _, hSigned⟩
    have hFirst := hSigned 0 (by decide +kernel)
    revert hFirst
    decide +kernel

end Ordering

end Jumbo
