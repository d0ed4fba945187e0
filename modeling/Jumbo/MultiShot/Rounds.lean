import Jumbo.Lib.Shots
import Jumbo.Ordering.Consistency

/-
  One MVBA after the other.

  An order starts an MVBA for every round, with the output of
  the last round to check inputs against, and hands what
  comes out to the party that cuts the blocks. The orders are
  in different rounds, and goroutines of a round may still
  run when its output has been taken. Which input is put in,
  and when, is open.

  Which MVBA it is, and unmarshalling, are parameters; what
  cannot be unmarshalled stops the order.

  Main declarations:
    * `Party` and `System`
    * `System.exec`
    * `multiShot`
    * `reachable_rounds`
    * `commits_comparable`
-/

------------------------------------------------------------
-- The System
------------------------------------------------------------

namespace Jumbo

namespace MultiShot

open Crypto (Bytes)
open Jumbo.Ordering (BroadcastType Order OrderAction)
open Protocol
open Struct

variable {n K : Nat} {type : BroadcastType} {σ α : Type}

/-
  An order and the party behind it. `Round` is the number of
  commits, and `lastCommit` is the last one of them.
-/
structure Party (n K : Nat) (type : BroadcastType) where
  commits : List Bytes
  outputCH : List (Ordering.Input type)
  order : Order n K type

/- The states `σ` of the MVBA of each round. -/
structure System
    (n K : Nat) (type : BroadcastType) (σ : Type) where
  mvba : Nat → σ
  party : Fin n → Party n K type

/-
  `mvba` is a step of a round, `back` takes the output of a
  round, `output` takes it on to the party that cuts blocks,
  which also has steps of its own.
-/
inductive SystemAction (n : Nat) (α : Type) where
| mvba (round : Nat) (a : α)
| back (id : Fin n)
| output (id : Fin n)
| arrive (id : Fin n) (block : BCBlock)
| cut (id : Fin n)

/- A party that has committed nothing. -/
def Party.new : Party n K type where
  commits := []
  outputCH := []
  order := Order.new

namespace System

/- What one party has changed. -/
def setParty
    (s : System n K type σ) (id : Fin n)
    (next : Party n K type) : System n K type σ :=
  { s with party := Function.update s.party id next }

/- A step of the party that cuts blocks. -/
def orderStep
    (s : System n K type σ) (id : Fin n)
    (a : OrderAction type) : Option (System n K type σ) :=
  let party := s.party id
  (party.order.exec a).map fun order =>
    s.setParty id { party with order := order }

/- `handle_rcvCH` with the MVBA that it starts. -/
def exec
    (mvba : Shots (Fin n) σ α Bytes)
    (decode : Bytes → Option (Ordering.Input type))
    (s : System n K type σ) :
    SystemAction n α → Option (System n K type σ)
| .mvba round a =>
    let lastCommit :=
      (mvba.actor a).elim (some mvba.start) fun id =>
        mvba.goesBy (s.party id).commits round
    (lastCommit.bind fun lastCommit =>
      mvba.exec round lastCommit (s.mvba round) a).map
        fun next =>
          { s with
            mvba := Function.update s.mvba round next }
| .back id => do
    let party := s.party id
    let round := party.commits.length
    let values ← mvba.output round (s.mvba round) id
    let hps ← decode values
    some
      (s.setParty id
        { party with
          commits := party.commits ++ [values]
          outputCH := party.outputCH ++ [hps] })
| .output id =>
    let party := s.party id
    match party.outputCH with
    | [] => none
    | hps :: rest =>
        (party.order.exec (.output hps)).map fun order =>
          s.setParty id
            { party with outputCH := rest, order := order }
| .arrive id block => s.orderStep id (.arrive block)
| .cut id => s.orderStep id .cut

end System

/- The rounds, and what each party does between them. -/
def multiShot
    (K : Nat) (mvba : Shots (Fin n) σ α Bytes)
    (decode : Bytes → Option (Ordering.Input type)) :
    Machine (System n K type σ) (SystemAction n α) where
  init := ⟨mvba.init, fun _ => Party.new⟩
  exec := System.exec mvba decode

end MultiShot

end Jumbo

------------------------------------------------------------
-- Rounds Are Shots
------------------------------------------------------------

namespace Jumbo

namespace MultiShot

open Crypto (Bytes)
open Jumbo.Ordering (BroadcastType Order)
open Protocol

variable {n K : Nat} {type : BroadcastType} {σ α : Type}

/- What is left of a system without what is handed on. -/
def System.rounds
    (s : System n K type σ) :
    Shots.State (Fin n) σ Bytes where
  shot := s.mvba
  commits := fun id => (s.party id).commits

section System

variable {mvba : Shots (Fin n) σ α Bytes}
variable {decode : Bytes → Option (Ordering.Input type)}
variable {s : System n K type σ}

/- A step between the rounds changes commits only. -/
theorem rounds_setParty
    (id : Fin n) (next : Party n K type) :
    (s.setParty id next).rounds =
      { s.rounds with
        commits :=
          Function.update s.rounds.commits id
            next.commits } := by
  unfold System.rounds System.setParty
  congr 1
  exact
    Function.comp_update (fun party => party.commits)
      s.party id next

/- What a party hands on does not change its commits. -/
theorem rounds_handOn
    (id : Fin n) (outputCH : List (Ordering.Input type))
    (order : Order n K type) :
    (s.setParty id
        { s.party id with
          outputCH := outputCH, order := order }).rounds =
      s.rounds := by
  rw [rounds_setParty]
  exact
    congrArg (fun commits => { s.rounds with commits })
      (Function.update_eq_self id s.rounds.commits)

/- In every run the rounds are run in order. -/
theorem reachable_rounds
    (hReach : (multiShot K mvba decode).Reachable s) :
    mvba.machine.Reachable s.rounds := by
  refine Machine.Reachable.map System.rounds ?_ ?_ hReach
  · exact .init (M := mvba.machine)
  intro s a s' _ hRounds hExec
  cases a with
  | mvba round a =>
      rcases Option.map_eq_some_iff.mp hExec with
        ⟨net, hStep, rfl⟩
      refine hRounds.step (a := .act round a) ?_
      exact Option.map_eq_some_iff.mpr ⟨net, hStep, rfl⟩
  | back id =>
      rcases Option.bind_eq_some_iff.mp hExec with
        ⟨values, hOutput, hRest⟩
      rcases Option.bind_eq_some_iff.mp hRest with
        ⟨hps, _, hEq⟩
      cases hEq
      rw [rounds_setParty]
      refine hRounds.step (a := .back id) ?_
      exact
        Option.map_eq_some_iff.mpr ⟨values, hOutput, rfl⟩
  | output id =>
      dsimp only [multiShot, System.exec] at hExec
      split at hExec
      · cases hExec
      · rcases Option.map_eq_some_iff.mp hExec with
          ⟨order, _, rfl⟩
        rw [rounds_handOn]
        exact hRounds
  | arrive id block =>
      rcases Option.map_eq_some_iff.mp hExec with
        ⟨order, _, rfl⟩
      rw [rounds_handOn]
      exact hRounds
  | cut id =>
      rcases Option.map_eq_some_iff.mp hExec with
        ⟨order, _, rfl⟩
      rw [rounds_handOn]
      exact hRounds

/- The orders while nobody has got further than one round. -/
def System.first
    (mvba : Shots (Fin n) σ α Bytes) (state : σ) :
    System n K type σ where
  mvba := Function.update mvba.init 0 state
  party := fun _ => Party.new

/- A run of the first round is a run of the orders. -/
theorem reachable_first
    (K : Nat) (mvba : Shots (Fin n) σ α Bytes)
    (decode : Bytes → Option (Ordering.Input type))
    {ok : System n K type σ → SystemAction n α → Prop}
    (hOk : ∀ s a, ok s (.mvba 0 a)) {state : σ}
    (hReach : (mvba.shot 0 mvba.start).Reachable state) :
    (multiShot K mvba decode).ReachableBy ok
      (System.first mvba state) := by
  refine
    hReach.invariant
      (fun state =>
        (multiShot K mvba decode).ReachableBy ok
          (System.first mvba state))
      ?_ ?_
  · have hInit :
        (System.first mvba (mvba.init 0) : System n K type σ) =
          (multiShot K mvba decode).init := by
      unfold System.first
      rw [Function.update_eq_self]
      rfl
    change
      (multiShot K mvba decode).ReachableBy ok
        (System.first mvba (mvba.init 0))
    rw [hInit]
    exact .init
  · intro state a next _ hBefore hExec
    refine
      Machine.ReachableBy.step (a := .mvba 0 a) hBefore
        (hOk _ _) ?_
    have hStart :
        ((mvba.actor a).elim (some mvba.start) fun id =>
            mvba.goesBy
              ((System.first mvba state :
                System n K type σ).party id).commits 0) =
          some mvba.start := by
      cases mvba.actor a with
      | none => rfl
      | some id => rfl
    dsimp only [multiShot, System.exec]
    rw [hStart, Option.bind_some]
    unfold System.first
    dsimp only
    rw [Function.update_self]
    change (mvba.exec 0 mvba.start state a).map _ = _
    rw [show mvba.exec 0 mvba.start state a = some next
      from hExec]
    simp only [Option.map_some, Function.update_idem]

/-
  Of what two orders have taken as outputs, one is the
  beginning of the other.
-/
theorem commits_comparable
    {decided : Nat → σ → Bytes → Prop}
    {Valid : Nat → Bytes → Bytes → Prop}
    (hSound : mvba.Sound decided Valid)
    (hReach : (multiShot K mvba decode).Reachable s)
    (p q : Fin n) :
    (s.party p).commits <+: (s.party q).commits ∨
      (s.party q).commits <+: (s.party p).commits := by
  have hRounds := reachable_rounds hReach
  rcases Nat.le_total (s.party p).commits.length
      (s.party q).commits.length with
    hLe | hLe
  · exact .inl (hSound.comparable hRounds hLe)
  · exact .inr (hSound.comparable hRounds hLe)

end System

end MultiShot

end Jumbo
