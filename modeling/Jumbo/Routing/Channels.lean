import Jumbo.Routing.Node
import Jumbo.Lib.RouterBounds

/-
  The channels of the node with the capacities of the source.

  A router that puts a message into a full channel waits, and
  so does the goroutine that empties a buffer into the next.
  Behind the routers the goroutines of the agreements and
  broadcasts take the messages of their channels, whenever
  they like.

  Main declarations:
    * `BoundedNode` and `boundedNode`
    * `BoundedNode.leavesRoom`
    * `BoundedNode.Spacious`
-/

------------------------------------------------------------
-- The Capacities
------------------------------------------------------------

namespace Jumbo

namespace Routing

open Protocol
open RouterChain (Roomy execBounded waits)

/-
  The buffers that are put into: `bafuturebuf` and
  `rbcfuturebuf` of a round, `newbabuf` and `newloopbuf`. The
  smaller ones made before the first round stay empty.
-/
def futureBound : Nat := 10000

/- The length of the buffer for the broadcasts to come. -/
def rbcFutureBound : Nat := 100000

/- `bamsgCH` and `rbcmsgCH` of an MVBA. -/
def bamsgBound : Nat := 2000

/- The length of the channel of one broadcast round. -/
def rbcmsgBound : Nat := 100000

/- `bamsgCH` of a binary agreement. -/
def agreementBound : Nat := 1000

/- `valCH`, `auxCH`, `confCH`, `finishCH`, `rbcmsgCHs[i]`. -/
def instanceBound : Nat := 500

/-
  The node with what the goroutines behind the routers have
  taken: of the messages of each type in a loop, of the
  finish messages of an agreement, and of the messages for
  the broadcast of a leader in a round.
-/
structure BoundedNode (α β : Type*) extends Node α β where
  loopTaken : Nat × Nat × Nat → Int32 → Nat
  finishTaken : Nat × Nat → Nat
  rbcTaken : Nat × Int32 → Nat

/- A step of the routers, or a handler takes a message. -/
inductive BoundedAction (α β : Type*) where
| act (a : NodeAction α β)
| takeLoop (r b l : Nat) (type : Int32)
| takeFinish (r b : Nat)
| takeRBC (r : Nat) (leader : Int32)

namespace BoundedNode

variable {α β : Type*}

/- No message has come and none has been taken. -/
def new : BoundedNode α β where
  toNode := Node.new
  loopTaken := fun _ _ => 0
  finishTaken := fun _ => 0
  rbcTaken := fun _ => 0

/- What waits in `valCH`, `auxCH` or `confCH` of a loop. -/
def loopCH
    (s : BoundedNode α β) (r b l : Nat) (type : Int32) :
    List (Numbered (BAMsg α)) :=
  (((s.loops (r, b)).handed l).filter
      fun m => decide (m.msg.type = type)).drop
    (s.loopTaken (r, b, l) type)

/- The FINISH messages that the handler has not taken. -/
def finishCH
    (s : BoundedNode α β) (r b : Nat) :
    List (Numbered (BAMsg α)) :=
  (s.loops (r, b)).expressed.drop (s.finishTaken (r, b))

/- What waits in `rbcmsgCHs` for the broadcast of a leader. -/
def leaderCH
    (s : BoundedNode α β) (r : Nat) (leader : Int32) :
    List (Numbered (RBCMsg β)) :=
  (s.rbcmsgCH r leader).drop (s.rbcTaken (r, leader))

/- The full channels behind the routers of each chain. -/
def basFull
    (s : BoundedNode α β) :
    Place → Numbered (BAMsg α) → Bool
| .buffer r, _ =>
    decide (futureBound ≤ (s.bas.buffers r).length)
| .handed r, _ =>
    decide (bamsgBound ≤ (s.baloops r).input.length)
| _, _ => false

/- A channel between the broadcast routers is full. -/
def rbcsFull
    (s : BoundedNode α β) :
    Place → Numbered (RBCMsg β) → Bool
| .buffer r, _ =>
    decide (rbcFutureBound ≤ (s.rbcs.buffers r).length)
| .handed r, _ =>
    decide
      (rbcmsgBound ≤
        ((s.rbcs.handed r).drop (s.routed r)).length)
| _, _ => false

/- A channel between the instance routers is full. -/
def baloopsFull
    (s : BoundedNode α β) (r : Nat) :
    Place → Numbered (BAMsg α) → Bool
| .buffer b, _ =>
    decide (futureBound ≤ ((s.baloops r).buffers b).length)
| .handed b, _ =>
    decide (agreementBound ≤ (s.loops (r, b)).input.length)
| _, _ => false

/- A channel between the loop routers is full. -/
def loopsFull
    (s : BoundedNode α β) (r b : Nat) :
    Place → Numbered (BAMsg α) → Bool
| .buffer l, _ =>
    decide (futureBound ≤ ((s.loops (r, b)).buffers l).length)
| .handed l, m =>
    decide (instanceBound ≤ (s.loopCH r b l m.msg.type).length)
| .expressed, _ =>
    decide (instanceBound ≤ (s.finishCH r b).length)
| _, _ => false

/- Does a step put a message into a full channel? -/
def waits (s : BoundedNode α β) : NodeAction α β → Bool
| .ba a => s.bas.waits (bamsgRouting α).numbered s.basFull a
| .rbc a =>
    s.rbcs.waits (rbcmsgRouting β).numbered s.rbcsFull a
| .baloop r a =>
    (s.baloops r).waits (baloopRouting α).numbered
      (s.baloopsFull r) a
| .loop r b a =>
    (s.loops (r, b)).waits (loopmsgRouting α r b).numbered
      (s.loopsFull r b) a
| .route r =>
    (s.rbcs.handed r)[s.routed r]?.any fun m =>
      decide
        (instanceBound ≤ (s.leaderCH r m.msg.leader).length)
| _ => false

/- A step of a router waits where its channel is full. -/
def exec (N : Nat) (s : BoundedNode α β) :
    BoundedAction α β → Option (BoundedNode α β)
| .act a =>
    if s.waits a then none
    else
      (s.toNode.exec N a).map fun node =>
        { s with toNode := node }
| .takeLoop r b l type =>
    if (s.loopCH r b l type).isEmpty then none
    else
      some { s with
        loopTaken :=
          Function.update s.loopTaken (r, b, l)
            (Function.update (s.loopTaken (r, b, l)) type
              (s.loopTaken (r, b, l) type + 1)) }
| .takeFinish r b =>
    if (s.finishCH r b).isEmpty then none
    else
      some { s with
        finishTaken :=
          Function.update s.finishTaken (r, b)
            (s.finishTaken (r, b) + 1) }
| .takeRBC r leader =>
    if (s.leaderCH r leader).isEmpty then none
    else
      some { s with
        rbcTaken :=
          Function.update s.rbcTaken (r, leader)
            (s.rbcTaken (r, leader) + 1) }

/- The condition that no put fills a buffer. -/
def leavesRoom (s : BoundedNode α β) : NodeAction α β → Bool
| .ba a =>
    s.bas.leavesRoom (bamsgRouting α).numbered futureBound a
| .rbc a =>
    s.rbcs.leavesRoom (rbcmsgRouting β).numbered
      rbcFutureBound a
| .baloop r a =>
    (s.baloops r).leavesRoom (baloopRouting α).numbered
      futureBound a
| .loop r b a =>
    (s.loops (r, b)).leavesRoom
      (loopmsgRouting α r b).numbered futureBound a
| _ => true

end BoundedNode

/- The routers with the channels as long as in the source. -/
def boundedNode (α β : Type*) (N : Nat) :
    Machine (BoundedNode α β) (BoundedAction α β) where
  init := BoundedNode.new
  exec := BoundedNode.exec N

------------------------------------------------------------
-- Every Run Is One without Bounds
------------------------------------------------------------

namespace BoundedNode

variable {α β : Type*} {N : Nat}

/- A step is one of the node, or takes from a channel. -/
theorem exec_cases
    {s s' : BoundedNode α β} {a : BoundedAction α β}
    (hExec : s.exec N a = some s') :
    (∃ act, a = .act act ∧ s.waits act = false ∧
      s.toNode.exec N act = some s'.toNode) ∨
      (∀ act, a ≠ .act act) ∧ s'.toNode = s.toNode := by
  cases a with
  | act act =>
      rcases Option.ite_none_left_eq_some.mp hExec with
        ⟨hWaits, hRest⟩
      rcases Option.map_eq_some_iff.mp hRest with
        ⟨node, hNode, rfl⟩
      exact
        .inl ⟨act, rfl, Bool.eq_false_iff.mpr hWaits, hNode⟩
  | takeLoop | takeFinish | takeRBC =>
      rcases Option.ite_none_left_eq_some.mp hExec with
        ⟨_, hEq⟩
      cases hEq
      exact .inr ⟨by simp, rfl⟩

/- Under a condition on the steps of the node. -/
theorem reachable_node
    {ok : Node α β → NodeAction α β → Prop}
    {okBounded :
      BoundedNode α β → BoundedAction α β → Prop}
    (hOk :
      ∀ s act, okBounded s (.act act) → ok s.toNode act)
    {s : BoundedNode α β}
    (hReach : (boundedNode α β N).ReachableBy okBounded s) :
    (node α β N).ReachableBy ok s.toNode := by
  refine Machine.ReachableBy.invariant
    (fun s : BoundedNode α β =>
      (node α β N).ReachableBy ok s.toNode) .init ?_ hReach
  intro s a s' _ hBefore hStepOk hExec
  rcases exec_cases hExec with
    ⟨act, rfl, _, hNode⟩ | ⟨_, hSame⟩
  · exact .step hBefore (hOk s act hStepOk) hNode
  · rw [hSame]
    exact hBefore

end BoundedNode

------------------------------------------------------------
-- Room in the Buffers
------------------------------------------------------------

namespace BoundedNode

open RouterChain (step_of_exec)

variable {α β : Type*} {N : Nat}

/- No buffer of the node is full. -/
structure Spacious (s : Node α β) : Prop where
  bas : Roomy futureBound s.bas
  rbcs : Roomy rbcFutureBound s.rbcs
  baloops : ∀ r, Roomy futureBound (s.baloops r)
  loops : ∀ i, Roomy futureBound (s.loops i)

theorem spacious_new : Spacious (Node.new : Node α β) := by
  have hPos : 0 < futureBound := by decide
  exact
    { bas := RouterChain.roomy_new hPos
      rbcs := RouterChain.roomy_new (by decide)
      baloops := fun _ => RouterChain.roomy_new hPos
      loops := fun _ => RouterChain.roomy_new hPos }

/- The routers of the rounds keep room. -/
theorem Spacious.setBas
    {s : Node α β} (hSpacious : Spacious s)
    {c : RouterChain (Numbered (BAMsg α))}
    (hRoomy : Roomy futureBound c) :
    Spacious (s.setBas c) where
  bas := hRoomy
  rbcs := hSpacious.rbcs
  baloops := fun r => hSpacious.baloops r
  loops := hSpacious.loops

/- The routers of the instances keep room. -/
theorem Spacious.setBaloop
    {s : Node α β} (hSpacious : Spacious s) (r : Nat)
    {c : RouterChain (Numbered (BAMsg α))}
    (hRoomy : Roomy futureBound c) :
    Spacious (s.setBaloop r c) where
  bas := hSpacious.bas
  rbcs := hSpacious.rbcs
  baloops := by
    intro r'
    change Roomy _ (Function.update s.baloops r c r')
    by_cases hEq : r' = r
    · subst hEq
      rw [Function.update_self]
      exact hRoomy
    · rw [Function.update_of_ne hEq]
      exact hSpacious.baloops r'
  loops := fun i => hSpacious.loops i

/- The routers of the loops keep room. -/
theorem Spacious.setLoop
    {s : Node α β} (hSpacious : Spacious s) (i : Nat × Nat)
    {c : RouterChain (Numbered (BAMsg α))}
    (hRoomy : Roomy futureBound c) :
    Spacious (s.setLoop i c) where
  bas := hSpacious.bas
  rbcs := hSpacious.rbcs
  baloops := hSpacious.baloops
  loops := by
    intro j
    change Roomy _ (Function.update s.loops i c j)
    by_cases hEq : j = i
    · subst hEq
      rw [Function.update_self]
      exact hRoomy
    · rw [Function.update_of_ne hEq]
      exact hSpacious.loops j

/- A step that leaves room keeps room in every buffer. -/
theorem Spacious.run
    {s : BoundedNode α β} {node : Node α β}
    {a : NodeAction α β} (hSpacious : Spacious s.toNode)
    (hOk : s.leavesRoom a = true)
    (hRun : s.toNode.run a = some node) :
    Spacious node := by
  cases a with
  | receiveBA m | receiveRBC m | output | route =>
      cases hRun
      exact { hSpacious with }
  | ba a =>
      rcases Option.map_eq_some_iff.mp hRun with
        ⟨c, hExec, rfl⟩
      exact
        hSpacious.setBas
          (hSpacious.bas.step (step_of_exec hExec) hOk)
  | rbc a =>
      rcases Option.map_eq_some_iff.mp hRun with
        ⟨c, hExec, rfl⟩
      exact
        { hSpacious with
          rbcs :=
            hSpacious.rbcs.step (step_of_exec hExec) hOk }
  | done =>
      rcases Option.bind_eq_some_iff.mp hRun with
        ⟨c, hExec, hRest⟩
      rcases Option.map_eq_some_iff.mp hRest with
        ⟨c', hExec', rfl⟩
      have hBas :=
        hSpacious.setBas
          (hSpacious.bas.step (step_of_exec hExec) rfl)
      exact
        { hBas with
          rbcs :=
            hSpacious.rbcs.step (step_of_exec hExec') rfl }
  | baloop r a =>
      rcases Option.map_eq_some_iff.mp hRun with
        ⟨c, hExec, rfl⟩
      exact
        hSpacious.setBaloop r
          ((hSpacious.baloops r).step (step_of_exec hExec)
            hOk)
  | loop r b a =>
      rcases Option.map_eq_some_iff.mp hRun with
        ⟨c, hExec, rfl⟩
      have hRecord :
          Spacious (s.toNode.record r b a) :=
        { hSpacious with }
      exact
        hRecord.setLoop (r, b)
          ((hSpacious.loops (r, b)).step (step_of_exec hExec)
            hOk)

/- In every run in which no put fills a buffer. -/
theorem spacious
    {ok : BoundedNode α β → BoundedAction α β → Prop}
    (hOk :
      ∀ s act, ok s (.act act) → s.leavesRoom act = true)
    {s : BoundedNode α β}
    (hReach : (boundedNode α β N).ReachableBy ok s) :
    Spacious s.toNode := by
  refine Machine.ReachableBy.invariant
    (fun s : BoundedNode α β => Spacious s.toNode)
    spacious_new ?_ hReach
  intro s a s' _ hBefore hStepOk hExec
  rcases exec_cases hExec with
    ⟨act, rfl, _, hNode⟩ | ⟨_, hSame⟩
  · exact
      hBefore.run (hOk s act hStepOk)
        (Option.ite_none_right_eq_some.mp hNode).2
  · rw [hSame]
    exact hBefore

end BoundedNode

end Routing

end Jumbo
