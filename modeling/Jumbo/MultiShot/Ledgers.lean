import Jumbo.MultiShot.Rounds

/-
  The ledgers over the rounds.

  The party that cuts blocks takes the outputs of the rounds
  one after the other, however late. Where orders get the
  same out of a round, two parties are given the same
  decisions, and their ledgers agree.

  Main declarations:
    * `System.orderly`
    * `Follows`
    * `ledgers_comparable`
-/

------------------------------------------------------------
-- Outputs and Decisions
------------------------------------------------------------

namespace Jumbo

namespace MultiShot

open Crypto (Bytes)
open Jumbo.Ordering
open Protocol
open Struct

variable {n K : Nat} {type : BroadcastType} {σ α : Type}

/-
  Blocks are those of `rawBC`, and a cut finds what has been
  decided.
-/
def System.orderly
    (rawBC : Fin n → Fin K → Int → RawBC)
    (s : System n K type σ) : SystemAction n α → Prop
| .arrive _ block =>
    Order.uniform rawBC (.arrive block : OrderAction type)
| .cut id => (s.party id).order.complete .cut = true
| _ => True

/- The outputs that the blocks have been cut for. -/
def Consumed (od : Order n K type) (m : Nat) : Prop :=
  ∀ i j,
    (od.ledger i j).length + od.cutting.isSome.toNat = m

/-
  A party has handed on what its rounds have decided, and has
  come to some point in it.
-/
structure HandsOn
    (decode : Bytes → Option (Ordering.Input type))
    (party : Party n K type) : Prop where
  decoded : ∀ values ∈ party.commits,
    (decode values).isSome
  waiting :
    ∃ m, (party.commits.drop m).map decode =
        party.outputCH.map some ∧
      m ≤ party.commits.length ∧ Consumed party.order m

/- The decisions of the rounds, as far as a party knows. -/
def Decodes
    (decode : Bytes → Option (Ordering.Input type))
    (decisions : Nat → Ordering.Input type)
    (party : Party n K type) : Prop :=
  ∀ (round : Nat) values,
    party.commits[round]? = some values →
      decode values = some (decisions round)

/- The blocks are cut as any such decisions say. -/
structure Follows
    (decode : Bytes → Option (Ordering.Input type))
    (rawBC : Fin n → Fin K → Int → RawBC)
    (party : Party n K type) : Prop where
  handsOn : HandsOn decode party
  ordered :
    ∀ decisions, Decodes decode decisions party →
      (order n K type).ReachableBy
        (Order.orderly decisions rawBC) party.order

section Steps

variable {decode : Bytes → Option (Ordering.Input type)}
variable {rawBC : Fin n → Fin K → Int → RawBC}
variable {party : Party n K type} {od : Order n K type}

/- A party that has not started follows its commits. -/
theorem follows_new :
    Follows decode rawBC (Party.new : Party n K type) where
  handsOn :=
    { decoded := List.forall_mem_nil _
      waiting := ⟨0, rfl, Nat.le_refl 0, fun _ _ => rfl⟩ }
  ordered := fun _ _ => .init

/- The output of one more round. -/
theorem Follows.back
    (hFollows : Follows decode rawBC party)
    {values : Bytes} {hps : Ordering.Input type}
    (hDecode : decode values = some hps) :
    Follows decode rawBC
      { party with
        commits := party.commits ++ [values]
        outputCH := party.outputCH ++ [hps] } where
  handsOn := by
    rcases hFollows.handsOn.waiting with
      ⟨m, hWaiting, hLe, hConsumed⟩
    refine
      { decoded := ?_
        waiting := ⟨m, ?_, ?_, hConsumed⟩ }
    · intro other hMem
      rcases List.mem_append.mp hMem with hOld | hNew
      · exact hFollows.handsOn.decoded other hOld
      · rw [List.mem_singleton.mp hNew, hDecode]
        rfl
    · rw [List.drop_append_of_le_length hLe, List.map_append,
        List.map_append, hWaiting, List.map_singleton,
        List.map_singleton, hDecode]
    · rw [List.length_append]
      omega
  ordered := by
    intro decisions hDecodes
    apply hFollows.ordered
    intro round other hAt
    apply hDecodes
    exact
      List.getElem?_append_left
        (List.getElem?_eq_some_iff.mp hAt).1 ▸ hAt

/- The next output starts a cut. -/
theorem Follows.output
    (hFollows : Follows decode rawBC party)
    {hps : Ordering.Input type}
    {rest : List (Ordering.Input type)}
    (hOutput : party.outputCH = hps :: rest)
    (hExec : party.order.exec (.output hps) = some od) :
    Follows decode rawBC
      { party with outputCH := rest, order := od } := by
  rcases hFollows.handsOn.waiting with
    ⟨m, hWaiting, hLe, hConsumed⟩
  rcases rcvOutput_cases hExec with
    ⟨hCutting, commit, _, rfl⟩
  have hLength :
      ∀ i j, (party.order.ledger i j).length = m := by
    intro i j
    have hLedger := hConsumed i j
    rw [hCutting] at hLedger
    exact hLedger
  rw [hOutput, List.map_cons] at hWaiting
  -- what is waiting first is the output of the round `m`
  rcases List.map_eq_cons_iff.mp hWaiting with
    ⟨values, later, hDrop, hDecode, hLater⟩
  have hAt : party.commits[m]? = some values := by
    rw [← List.head?_drop, hDrop]
    rfl
  constructor
  · refine
      { decoded := hFollows.handsOn.decoded
        waiting := ⟨m + 1, ?_, ?_, ?_⟩ }
    · dsimp only
      rw [← List.tail_drop, hDrop]
      exact hLater
    · exact (List.getElem?_eq_some_iff.mp hAt).1
    · intro i j
      dsimp only
      rw [hLength i j]
      rfl
  · intro decisions hDecodes
    refine
      Machine.ReachableBy.step (a := .output hps)
        (hFollows.ordered decisions hDecodes)
        ⟨?_, trivial, rfl⟩ hExec
    intro i j
    rw [hLength i j]
    have hDecision := hDecodes m values hAt
    rw [hDecode] at hDecision
    exact Option.some.inj hDecision

/- Steps of the party that do not take an output. -/
theorem Follows.step
    (hFollows : Follows decode rawBC party)
    {a : OrderAction type}
    (hNot : ∀ output, a ≠ .output output)
    (hUniform : Order.uniform rawBC a)
    (hComplete : party.order.complete a = true)
    (hExec : party.order.exec a = some od) :
    Follows decode rawBC { party with order := od } := by
  have hOrderly :
      ∀ decisions,
        party.order.orderly decisions rawBC a := by
    intro decisions
    refine ⟨?_, hUniform, hComplete⟩
    cases a with
    | arrive block => trivial
    | output output => exact absurd rfl (hNot output)
    | cut => trivial
  refine
    ⟨⟨hFollows.handsOn.decoded, ?_⟩,
      fun decisions hDecodes =>
        (hFollows.ordered decisions hDecodes).step
          (hOrderly decisions) hExec⟩
  rcases hFollows.handsOn.waiting with
    ⟨m, hWaiting, hLe, hConsumed⟩
  refine ⟨m, hWaiting, hLe, fun i j => ?_⟩
  have hLedger := hConsumed i j
  cases a with
  | arrive block =>
      rcases update_filed hExec with
        ⟨_, _, _, _, _, _, rfl⟩
      exact hLedger
  | output output => exact absurd rfl (hNot output)
  | cut =>
      rcases cut_cases hExec with ⟨old, hCutting, _, hCut⟩
      rcases Order.cutBlock_eq_some.mp hCut with ⟨_, rfl⟩
      rw [hCutting] at hLedger
      dsimp only
      rw [List.length_append]
      exact hLedger

end Steps

end MultiShot

end Jumbo

------------------------------------------------------------
-- Systems
------------------------------------------------------------

namespace Jumbo

namespace MultiShot

open Crypto (Bytes)
open Jumbo.Ordering
open Protocol
open Struct

variable {n K : Nat} {type : BroadcastType} {σ α : Type}

section System

variable {decode : Bytes → Option (Ordering.Input type)}
variable {rawBC : Fin n → Fin K → Int → RawBC}
variable {mvba : Shots (Fin n) σ α Bytes}
variable {s : System n K type σ}

/- The change of one party is looked at by itself. -/
theorem follows_setParty
    {id : Fin n} {next : Party n K type}
    (hAll : ∀ q, Follows decode rawBC (s.party q))
    (hNext : Follows decode rawBC next) (q : Fin n) :
    Follows decode rawBC ((s.setParty id next).party q) := by
  unfold System.setParty
  dsimp only
  by_cases hEq : q = id
  · subst hEq
    rw [Function.update_self]
    exact hNext
  · rw [Function.update_of_ne hEq]
    exact hAll q

/- In every run a party orders what it has committed. -/
theorem follows
    (hReach :
      (multiShot K mvba decode).ReachableBy
        (System.orderly rawBC) s)
    (q : Fin n) :
    Follows decode rawBC (s.party q) := by
  refine
    hReach.invariant
      (fun s => ∀ q, Follows decode rawBC (s.party q))
      (fun _ => follows_new) ?_ q
  intro s a s' _ hAll hOrderly hExec
  cases a with
  | mvba round a =>
      rcases Option.map_eq_some_iff.mp hExec with
        ⟨net, _, rfl⟩
      exact hAll
  | back id =>
      rcases Option.bind_eq_some_iff.mp hExec with
        ⟨values, _, hRest⟩
      rcases Option.bind_eq_some_iff.mp hRest with
        ⟨hps, hDecode, hEq⟩
      cases hEq
      exact follows_setParty hAll ((hAll id).back hDecode)
  | output id =>
      dsimp only [multiShot, System.exec] at hExec
      split at hExec
      · cases hExec
      · rename_i hps rest hOutput
        rcases Option.map_eq_some_iff.mp hExec with
          ⟨od, hStep, rfl⟩
        exact
          follows_setParty hAll
            ((hAll id).output hOutput hStep)
  | arrive id block =>
      rcases Option.map_eq_some_iff.mp hExec with
        ⟨od, hStep, rfl⟩
      exact
        follows_setParty hAll
          ((hAll id).step (a := .arrive block)
            (fun _ h => by cases h) hOrderly rfl hStep)
  | cut id =>
      rcases Option.map_eq_some_iff.mp hExec with
        ⟨od, hStep, rfl⟩
      exact
        follows_setParty hAll
          ((hAll id).step (a := .cut)
            (fun _ h => by cases h) trivial hOrderly hStep)

/- There is an input of every kind. -/
theorem input_nonempty
    (type : BroadcastType) : Nonempty (Ordering.Input type) :=
  match type with
  | .rbc => ⟨([] : List Int32)⟩
  | .wrbc => ⟨([] : List Int32)⟩
  | .cbc => ⟨([] : List HighProof)⟩
  | .cbcQCagg => ⟨(⟨[], [], [], []⟩ : QCaggProof)⟩

/- The longer one of two lists of commits decides for both. -/
theorem decodes_both
    {party party' : Party n K type}
    (hHandsOn : HandsOn decode party')
    (hPrefix : party.commits <+: party'.commits)
    (hps : Ordering.Input type) :
    ∃ decisions, Decodes decode decisions party ∧
      Decodes decode decisions party' := by
  let decisions : Nat → Ordering.Input type := fun round =>
    (party'.commits[round]?.bind decode).getD hps
  have hLong : Decodes decode decisions party' := by
    intro round values hAt
    have hMem := List.mem_of_getElem? hAt
    rcases Option.isSome_iff_exists.mp
        (hHandsOn.decoded values hMem) with
      ⟨output, hDecode⟩
    have hHere : decisions round = output := by
      dsimp only [decisions]
      rw [hAt, Option.bind_some, hDecode]
      rfl
    rw [hDecode, hHere]
  refine ⟨decisions, fun round values hAt => ?_, hLong⟩
  apply hLong
  rcases hPrefix with ⟨more, hMore⟩
  rw [← hMore,
    List.getElem?_append_left
      (List.getElem?_eq_some_iff.mp hAt).1]
  exact hAt

/-
  Orders in whatever rounds: the ledgers of two parties agree
  as far as the shorter one goes.
-/
theorem ledgers_comparable
    {decided : Nat → σ → Bytes → Prop}
    {Valid : Nat → Bytes → Bytes → Prop}
    (hSound : mvba.Sound decided Valid)
    (hReach :
      (multiShot K mvba decode).ReachableBy
        (System.orderly rawBC) s)
    (p q : Fin n) :
    (∀ i j, (s.party p).order.records i j <+:
        (s.party q).order.records i j) ∨
      ∀ i j, (s.party q).order.records i j <+:
        (s.party p).order.records i j := by
  have hP := follows hReach p
  have hQ := follows hReach q
  have hBoth :
      ∃ decisions, Decodes decode decisions (s.party p) ∧
        Decodes decode decisions (s.party q) := by
    rcases input_nonempty type with ⟨hps⟩
    rcases commits_comparable hSound hReach.reachable p q with
      hPrefix | hPrefix
    · exact decodes_both hQ.handsOn hPrefix hps
    · rcases decodes_both hP.handsOn hPrefix hps with
        ⟨decisions, hDecodes, hDecodes'⟩
      exact ⟨decisions, hDecodes', hDecodes⟩
  rcases hBoth with ⟨decisions, hDecodes, hDecodes'⟩
  exact
    (recorded (hP.ordered decisions hDecodes)).comparable
      (recorded (hQ.ordered decisions hDecodes'))

end System

end MultiShot

end Jumbo

------------------------------------------------------------
-- Plain Blocks
------------------------------------------------------------

namespace Jumbo

namespace MultiShot

open Crypto (Bytes)
open Jumbo.Ordering
open Protocol
open Struct

/- An input is a byte for each height, one too large. -/
def plainDecode (values : Bytes) :
    Option (Ordering.Input .rbc) :=
  some
    (values.map fun b => Int32.ofNat b.toNat - 1 : List Int32)

/- Every party leaves out one height. -/
def plainInput (id : Fin 4) : Bytes :=
  [1, 1, 1, 1].set ((id.val + 2) % 4) 0

section Runs

variable {σ α : Type}

/- A party takes an output and cuts; the blocks come last. -/
def earlyCut (id : Fin 4) : List (SystemAction 4 α) :=
  [.back id, .output id, .arrive id (plainBlock 1 0),
    .arrive id (plainBlock 2 0), .arrive id (plainBlock 3 0),
    .arrive id (plainBlock 4 0), .cut id]

/- The same, with the blocks first and in another order. -/
def lateCut (id : Fin 4) : List (SystemAction 4 α) :=
  [.arrive id (plainBlock 4 0), .arrive id (plainBlock 3 0),
    .arrive id (plainBlock 2 0), .arrive id (plainBlock 1 0),
    .back id, .output id, .cut id]

/- The blocks are the plain ones and the cuts complete. -/
def plainSystemOrderly
    (s : System 4 1 .rbc σ) : SystemAction 4 α → Bool
| .arrive _ block =>
    decide
      (∀ i j, Crypto.key 4 block.rawBC.leader = some i →
        Crypto.key 1 block.rawBC.k = some j →
          block.rawBC = plainRawBC i j (height block))
| .cut id => (s.party id).order.complete .cut
| _ => true

/- So the steps are orderly. -/
theorem orderly_of_plain
    {s : System 4 1 .rbc σ}
    {a : SystemAction 4 α}
    (hOk : plainSystemOrderly s a = true) :
    System.orderly plainRawBC s a := by
  cases a with
  | arrive id block =>
      have hUniform :
          ∀ (i : Fin 4) (j : Fin 1),
            Crypto.key 4 block.rawBC.leader = some i →
              Crypto.key 1 block.rawBC.k = some j →
                block.rawBC = plainRawBC i j (height block) :=
        of_decide_eq_true hOk
      exact hUniform
  | cut id => exact hOk
  | mvba round a => trivial
  | back id => trivial
  | output id => trivial

end Runs

end MultiShot

end Jumbo
