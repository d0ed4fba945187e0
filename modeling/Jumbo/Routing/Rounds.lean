import Jumbo.Lib.RouterRounds
import Jumbo.DumboMVBA.Basic

/-
  The routers of the MVBA rounds at one node.

  `handle_rcvCH_normal` starts one router for each round,
  `handle_rcvCH_dumbomvba` one for each dispersal and one for
  each MVBA in it. The first one has no old buffer, or one
  that nobody fills. Round numbers stay below 2^31.

  A router that ends leaves its old buffer as it is, so what
  it has not taken out of it is lost for the rounds to come.

  Main declarations:
    * `Msg`
    * `normal`
    * `Dumbo` and `dumbo`
    * `rounds_routed`
-/

------------------------------------------------------------
-- The Routers
------------------------------------------------------------

namespace Jumbo

namespace Routing

open Protocol
open DumboMVBA (DumbomvbaMsg)

/- What the routers read of a message, and the rest. -/
structure Msg (α : Type*) where
  id : Int32
  round : Int32
  type : Int32
  loop : Int32
  content : α
deriving DecidableEq

/- `handle_msgfrommvbaCH`. -/
def msgRouting (α : Type*) : Routing (Msg α) where
  level m := m.round.toInt
  express _ := false
  panics _ _ := false
  drains := false
  stops := true
  halts := false

/-
  `handle_dumbomvbamsgCH`, with one channel of the instance
  for each of the types 20, 21 and 22.
-/
def dumbomvbaRouting : Routing DumbomvbaMsg where
  level m := m.round.toInt
  express _ := false
  panics r m :=
    decide (m.round.toInt = r) &&
      !([20, 21, 22] : List Int32).contains m.type
  drains := false
  stops := true
  halts := false

/- The routers of `handle_rcvCH_dumbomvba`. -/
structure Dumbo (α : Type*) where
  msgs : RouterChain (Numbered (Msg α))
  dms : RouterChain (Numbered DumbomvbaMsg)

/- A step of one of the two chains of routers. -/
inductive DumboAction (α : Type*) where
| msg (a : ChainAction (Msg α))
| dm (a : ChainAction DumbomvbaMsg)

namespace Dumbo

variable {α : Type*}

/-
  An MVBA is run in a round of the dispersal, and the round
  ends after it. There is one of them in each round: when its
  result is not legal the code panics.
-/
def mayRun (d : Dumbo α) : DumboAction α → Bool
| .msg (.act .next) =>
    decide (d.dms.switch = .running) &&
      decide (d.msgs.rounds + 1 = d.dms.rounds)
| .dm (.act .close) =>
    decide (d.msgs.switch = .idle) &&
      decide (d.msgs.rounds = d.dms.rounds)
| _ => true

/- A step that both switches allow. -/
def exec (d : Dumbo α) (a : DumboAction α) :
    Option (Dumbo α) :=
  if d.mayRun a then
    match a with
    | .msg a =>
        (d.msgs.execNumbered (msgRouting α) a).map
          fun msgs => { d with msgs := msgs }
    | .dm a =>
        (d.dms.execNumbered dumbomvbaRouting a).map
          fun dms => { d with dms := dms }
  else none

/- The condition on the steps of either kind of router. -/
def careful (d : Dumbo α) : DumboAction α → Bool
| .msg a => d.msgs.careful (msgRouting α) a
| .dm a => d.dms.careful dumbomvbaRouting a

end Dumbo

/- The routers of the rounds as a machine. -/
def dumbo (α : Type*) :
    Machine (Dumbo α) (DumboAction α) where
  init := ⟨RouterChain.new, RouterChain.new⟩
  exec := Dumbo.exec

end Routing

end Jumbo

------------------------------------------------------------
-- What Is Handed to the Rounds
------------------------------------------------------------

namespace Jumbo

namespace Routing

open Protocol
open DumboMVBA (DumbomvbaMsg)
open RouterChain (Routed Kept Chained)

variable {α : Type*} [DecidableEq α]

/- Every message is handed once, in its round or before. -/
def RoundsRouted (c : RouterChain (Numbered (Msg α))) : Prop :=
  Routed (msgRouting α).numbered c

namespace Dumbo

/- Both kinds of messages come to their own round. -/
def RoundsRouted (d : Dumbo α) : Prop :=
  Routed (msgRouting α).numbered d.msgs ∧
    Routed dumbomvbaRouting.numbered d.dms

/- What the runs of both kinds of routers keep. -/
structure Routes (d : Dumbo α) : Prop where
  msgs : Chained (msgRouting α) d.msgs
  dms : Chained dumbomvbaRouting d.dms
  msgsKept : Kept (msgRouting α).numbered d.msgs
  dmsKept : Kept dumbomvbaRouting.numbered d.dms

variable {d d' : Dumbo α} {a : DumboAction α}

theorem Routes.roundsRouted (hRoutes : Routes d) :
    d.RoundsRouted :=
  ⟨hRoutes.msgsKept.routed hRoutes.msgs.placed
      hRoutes.msgs.located,
    hRoutes.dmsKept.routed hRoutes.dms.placed
      hRoutes.dms.located⟩

/- A careful step keeps both chains in order. -/
theorem Routes.step
    (hRoutes : Routes d) (hExec : d.exec a = some d')
    (hOk : d.careful a = true) :
    Routes d' := by
  rcases Option.ite_none_right_eq_some.mp hExec with
    ⟨_, hRun⟩
  cases a with
  | msg a =>
      rcases Option.map_eq_some_iff.mp hRun with
        ⟨msgs, hStep, rfl⟩
      exact
        { hRoutes with
          msgs := hRoutes.msgs.exec hStep
          msgsKept :=
            hRoutes.msgsKept.exec rfl hRoutes.msgs hStep hOk }
  | dm a =>
      rcases Option.map_eq_some_iff.mp hRun with
        ⟨dms, hStep, rfl⟩
      exact
        { hRoutes with
          dms := hRoutes.dms.exec hStep
          dmsKept :=
            hRoutes.dmsKept.exec rfl hRoutes.dms hStep hOk }

/- A step routes rightly exactly if it is careful. -/
theorem Routes.routed_iff
    (hRoutes : Routes d) (hExec : d.exec a = some d') :
    d'.RoundsRouted ↔ d.careful a = true := by
  have hBefore := hRoutes.roundsRouted
  rcases Option.ite_none_right_eq_some.mp hExec with
    ⟨_, hRun⟩
  cases a with
  | msg a =>
      rcases Option.map_eq_some_iff.mp hRun with
        ⟨msgs, hStep, rfl⟩
      have hIff :=
        hRoutes.msgsKept.routed_iff rfl hRoutes.msgs hStep
      exact
        ⟨fun h => hIff.mp h.1,
          fun h => ⟨hIff.mpr h, hBefore.2⟩⟩
  | dm a =>
      rcases Option.map_eq_some_iff.mp hRun with
        ⟨dms, hStep, rfl⟩
      have hIff :=
        hRoutes.dmsKept.routed_iff rfl hRoutes.dms hStep
      exact
        ⟨fun h => hIff.mp h.2,
          fun h => ⟨hBefore.1, hIff.mpr h⟩⟩

/- Both chains are in order in every careful run. -/
theorem routes
    (hReach :
      (dumbo α).ReachableBy
        (fun d a => d.careful a = true) d) :
    Routes d := by
  refine Machine.ReachableBy.invariant Routes ?_ ?_ hReach
  · exact
      { msgs := RouterChain.chained_new _
        dms := RouterChain.chained_new _
        msgsKept := RouterChain.kept_new
        dmsKept := RouterChain.kept_new }
  · intro d a d' _ hRoutes hOk hExec
    exact hRoutes.step hExec hOk

end Dumbo

/- A message of a round, and the router that takes it. -/
def roundMsg (round : Int32) : Msg Unit :=
  ⟨1, round, 1, 0, ()⟩

/- A router takes a message that comes in. -/
def fromInput (r : Nat) : List (ChainAction (Msg Unit)) :=
  [.act (.check r), .act (.readInput r), .act (.forward r)]

/- A router takes a message that was kept. -/
def fromBuffer (r : Nat) : List (ChainAction (Msg Unit)) :=
  [.act (.check r), .act (.readBuffer r), .act (.forward r)]

/- The main loop starts the next round. -/
def startRound : List (ChainAction (Msg Unit)) :=
  [.act .next, .act .start]

/-
  A message two rounds ahead is still in the old buffer when
  the round between ends, and its own round ends without it.
-/
def lostRun : List (ChainAction (Msg Unit)) :=
  startRound ++ [.arrive (roundMsg 2)] ++ fromInput 0 ++
    [.act .close] ++ startRound ++ [.act .close] ++
      startRound ++ [.act .close]

end Routing

end Jumbo
