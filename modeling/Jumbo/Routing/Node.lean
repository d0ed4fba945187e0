import Jumbo.Lib.RouterDrains

/-
  The routers of the signature-free MVBA at one node.

  The messages of the binary agreements go through a router
  for each round, in it through one for each agreement, and
  in that through one for each loop. The messages of the
  reliable broadcasts of a round only go through the first.
  Every goroutine that starts routers empties the buffer
  before. Round numbers stay below 2^31.

  Main declarations:
    * `BAMsg` and `RBCMsg`
    * `Node` and `node`
    * `Routes`
    * `Exact`
-/

------------------------------------------------------------
-- The Routers
------------------------------------------------------------

namespace Jumbo

namespace Routing

open Protocol
open RouterChain (Sound Counted Alive)

/- What the routers read of a message, and the rest. -/
structure BAMsg (α : Type*) where
  id : Int32
  mvbaRound : Int32
  baRound : Int32
  loop : Int32
  type : Int32
  content : α
deriving DecidableEq

/- A broadcast message with what the routers look at. -/
structure RBCMsg (β : Type*) where
  id : Int32
  leader : Int32
  round : Int32
  type : Int32
  content : β
deriving DecidableEq

/- `handle_bamsgCH`. -/
def bamsgRouting (α : Type*) : Routing (BAMsg α) where
  level m := m.mvbaRound.toInt
  express _ := false
  panics _ _ := false
  drains := true
  stops := true
  halts := false

/- `handle_rbcmsgCH`. -/
def rbcmsgRouting (β : Type*) : Routing (RBCMsg β) where
  level m := m.round.toInt
  express _ := false
  panics _ _ := false
  drains := true
  stops := true
  halts := false

/- `handle_baloopmsg`. -/
def baloopRouting (α : Type*) : Routing (BAMsg α) where
  level m := m.baRound.toInt
  express _ := false
  panics _ _ := false
  drains := true
  stops := true
  halts := true

/- The three panics of `handle_loopmsg`. -/
def wrongMVBARound (round : Nat) (m : BAMsg α) : Bool :=
  decide (m.mvbaRound.toInt ≠ round)

/- The loop router panics on another instance. -/
def wrongBARound (baRound : Nat) (m : BAMsg α) : Bool :=
  decide (m.baRound.toInt ≠ baRound)

/- It also panics on a type it does not know. -/
def wrongType (loop : Nat) (m : BAMsg α) : Bool :=
  decide (m.type ≠ 4) && decide (m.loop.toInt = loop) &&
    !([1, 2, 3] : List Int32).contains m.type

/- `handle_loopmsg`, with its finish messages at once. -/
def loopmsgRouting (α : Type*) (round baRound : Nat) :
    Routing (BAMsg α) where
  level m := m.loop.toInt
  express m := decide (m.type = 4)
  panics loop m :=
    wrongMVBARound round m || wrongBARound baRound m ||
      wrongType loop m
  drains := true
  stops := true
  halts := true

/-
  Chain `baloops r` is that of MVBA `r`, and `loops (r, b)`
  that of binary agreement `b` in it. `routed r` counts what
  `routerbcmsg` has taken, and `finished` and `closed` keep
  what had arrived at the node when a loop was over and when
  an agreement was.
-/
structure Node (α β : Type*) where
  bas : RouterChain (Numbered (BAMsg α))
  rbcs : RouterChain (Numbered (RBCMsg β))
  baloops : Nat → RouterChain (Numbered (BAMsg α))
  loops : Nat × Nat → RouterChain (Numbered (BAMsg α))
  routed : Nat → Nat
  outputs : Nat × Nat → Bool
  finished :
    Nat × Nat × Nat → Option (List (Numbered (BAMsg α)))
  closed : Nat × Nat → Option (List (Numbered (BAMsg α)))

/- A message comes, or one of the routers takes a step. -/
inductive NodeAction (α β : Type*) where
| receiveBA (m : BAMsg α)
| receiveRBC (m : RBCMsg β)
| ba (a : RouterAction)
| rbc (a : RouterAction)
| done
| baloop (r : Nat) (a : RouterAction)
| loop (r b : Nat) (a : RouterAction)
| output (r b : Nat)
| route (r : Nat)

namespace Node

variable {α β : Type*}

/- No message has come and no router runs. -/
def new : Node α β where
  bas := RouterChain.new
  rbcs := RouterChain.new
  baloops := fun _ => RouterChain.new
  loops := fun _ => RouterChain.new
  routed := fun _ => 0
  outputs := fun _ => false
  finished := fun _ => none
  closed := fun _ => none

/-
  The order in which the goroutines of the node go on. Both
  routers of a round are there before its MVBA, and that of
  an agreement before its loops. An agreement puts out its
  value before it closes its loops, and the MVBA goes on to
  the next or is done with it; a round ends with its MVBA.
-/
def mayRun (N : Nat) (s : Node α β) : NodeAction α β → Bool
| .ba .next =>
    decide (s.rbcs.switch = .idle) &&
      decide (s.rbcs.rounds = s.bas.rounds)
| .rbc .next =>
    decide (s.bas.switch = .running) &&
      decide (s.rbcs.rounds + 1 = s.bas.rounds)
| .ba .close | .ba .stop | .rbc .close | .rbc .stop => false
| .done => (s.baloops (s.bas.rounds - 1)).stopped
| .baloop r .next | .baloop r .drain | .baloop r .start =>
    decide (r < s.rbcs.rounds) && !(s.baloops r).stopped
| .baloop r .close | .baloop r .stop =>
    decide ((s.baloops r).switch = .running) &&
      !(s.baloops r).stopped &&
        s.outputs (r, (s.baloops r).rounds - 1)
| .loop r b .next | .loop r b .drain | .loop r b .start
| .loop r b .close | .output r b =>
    decide (b < (s.baloops r).rounds)
| .loop r b .stop =>
    decide (b < (s.baloops r).rounds) && s.outputs (r, b)
| .route r =>
    -- another leader is an index out of range
    (s.rbcs.handed r)[s.routed r]?.any fun m =>
      decide (1 ≤ m.msg.leader.toInt) &&
        decide (m.msg.leader.toInt ≤ (N : Int))
| _ => true

/- What a chain hands on is in the channel of the next. -/
def setBas
    (s : Node α β) (c : RouterChain (Numbered (BAMsg α))) :
    Node α β :=
  { s with
    bas := c
    baloops := fun r => (s.baloops r).feed (c.handed r) }

/-
  The instance routers of a round go on, and the loop
  routers below see what is handed on.
-/
def setBaloop
    (s : Node α β) (r : Nat)
    (c : RouterChain (Numbered (BAMsg α))) : Node α β :=
  { s with
    baloops := Function.update s.baloops r c
    loops := fun i =>
      (s.loops i).feed
        ((Function.update s.baloops r c i.1).handed i.2) }

/- The loop routers of one instance go on. -/
def setLoop
    (s : Node α β) (i : Nat × Nat)
    (c : RouterChain (Numbered (BAMsg α))) : Node α β :=
  { s with loops := Function.update s.loops i c }

/-
  What is kept when a loop ends, and when the agreement does
  and its last loop with it.
-/
def record (s : Node α β) (r b : Nat) (a : RouterAction) :
    Node α β :=
  let c := s.loops (r, b)
  let isStop := decide (a = .stop) && !c.stopped
  let isEnd :=
    decide (a = .close) && !c.stopped ||
      isStop && decide (c.switch = .running)
  { s with
    finished :=
      if isEnd then
        Function.update s.finished (r, b, c.rounds - 1)
          (some s.bas.arrived)
      else s.finished
    closed :=
      if isStop then
        Function.update s.closed (r, b) (some s.bas.arrived)
      else s.closed }

/- What a step does, if it may be taken. -/
def run (s : Node α β) : NodeAction α β → Option (Node α β)
| .receiveBA m =>
    some { s with
      bas := s.bas.arrive ⟨s.bas.arrived.length, m⟩ }
| .receiveRBC m =>
    some { s with
      rbcs := s.rbcs.arrive ⟨s.rbcs.arrived.length, m⟩ }
| .ba a =>
    (s.bas.exec (bamsgRouting α).numbered a).map s.setBas
| .rbc a =>
    (s.rbcs.exec (rbcmsgRouting β).numbered a).map
      fun c => { s with rbcs := c }
| .done =>
    (s.bas.exec (bamsgRouting α).numbered .close).bind
      fun c =>
        (s.rbcs.exec (rbcmsgRouting β).numbered .close).map
          fun c' => { s.setBas c with rbcs := c' }
| .baloop r a =>
    ((s.baloops r).exec (baloopRouting α).numbered a).map
      (s.setBaloop r)
| .loop r b a =>
    ((s.loops (r, b)).exec
        (loopmsgRouting α r b).numbered a).map
      ((s.record r b a).setLoop (r, b))
| .output r b =>
    some { s with
      outputs := Function.update s.outputs (r, b) true }
| .route r =>
    some { s with
      routed :=
        Function.update s.routed r (s.routed r + 1) }

/- A step of one node. -/
def exec (N : Nat) (s : Node α β) (a : NodeAction α β) :
    Option (Node α β) :=
  if s.mayRun N a then s.run a else none

/- The channel of the broadcast of a leader in a round. -/
def rbcmsgCH
    (s : Node α β) (r : Nat) (leader : Int32) :
    List (Numbered (RBCMsg β)) :=
  ((s.rbcs.handed r).take (s.routed r)).filter
    fun m => decide (m.msg.leader = leader)

end Node

/- All routers of one node. -/
def node (α β : Type*) (N : Nat) :
    Machine (Node α β) (NodeAction α β) where
  init := Node.new
  exec := Node.exec N

end Routing

end Jumbo

------------------------------------------------------------
-- The Chains in Every Run
------------------------------------------------------------

namespace Jumbo

namespace Routing

open Protocol
open RouterChain (Sound Counted Alive Step step_of_exec)

namespace Node

variable {α β : Type*} [DecidableEq α] [DecidableEq β]

/- Each chain keeps its places, and the channels link them. -/
structure Routes (s : Node α β) : Prop where
  bas : Sound (bamsgRouting α).numbered s.bas
  rbcs : Sound (rbcmsgRouting β).numbered s.rbcs
  baloops :
    ∀ r, Sound (baloopRouting α).numbered (s.baloops r)
  loops :
    ∀ i, Sound (loopmsgRouting α i.1 i.2).numbered
      (s.loops i)
  basCounted : Counted s.bas
  rbcsCounted : Counted s.rbcs
  baLink : ∀ r, (s.baloops r).arrived = s.bas.handed r
  loopLink :
    ∀ i, (s.loops i).arrived = (s.baloops i.1).handed i.2

section Step

variable {s s' : Node α β} {a : RouterAction}

/- At the start every chain of routers is in order. -/
theorem routes_new : Routes (new : Node α β) where
  bas := RouterChain.sound_new
  rbcs := RouterChain.sound_new
  baloops := fun _ => RouterChain.sound_new
  loops := fun _ => RouterChain.sound_new
  basCounted := fun m hm => by cases hm
  rbcsCounted := fun m hm => by cases hm
  baLink := fun _ => rfl
  loopLink := fun _ => rfl

/- Routers do not change what has been numbered. -/
theorem Counted.step
    {M : Type*} [DecidableEq M] {cfg : Routing (Numbered M)}
    {c c' : RouterChain (Numbered M)} {a : RouterAction}
    (hCounted : Counted c) (hSound : Sound cfg c)
    (hStep : Step cfg c a c') :
    Counted c' := by
  intro m hm
  rw [(hSound.flow hStep).arrived] at hm ⊢
  exact hCounted m hm

/- The round routers keep every chain in order. -/
theorem Routes.setBas
    (hRoutes : Routes s)
    {c : RouterChain (Numbered (BAMsg α))}
    (hStep : Step (bamsgRouting α).numbered s.bas a c) :
    Routes (s.setBas c) :=
  { hRoutes with
    bas := hRoutes.bas.step hStep
    baloops := fun r =>
      hRoutes.bas.feed_induction hStep (hRoutes.baLink r)
        (Sound (baloopRouting α).numbered)
        (hRoutes.baloops r)
        fun _ hNew => (hRoutes.baloops r).arrive hNew
    basCounted := Counted.step hRoutes.basCounted hRoutes.bas hStep
    baLink := fun r =>
      hRoutes.bas.feed_link hStep (hRoutes.baLink r)
    loopLink := fun i => hRoutes.loopLink i }

/- What follows for the loops from a step of their MVBA. -/
theorem Routes.feed_loops
    (hRoutes : Routes s) {r : Nat}
    {c : RouterChain (Numbered (BAMsg α))}
    (hStep :
      Step (baloopRouting α).numbered (s.baloops r) a c)
    (i : Nat × Nat)
    (P : RouterChain (Numbered (BAMsg α)) → Prop)
    (hP : P (s.loops i))
    (hArrive :
      ∀ m, m ∉ (s.loops i).arrived →
        P ((s.loops i).arrive m)) :
    P ((s.setBaloop r c).loops i) := by
  change
    P ((s.loops i).feed
      ((Function.update s.baloops r c i.1).handed i.2))
  have hLink := hRoutes.loopLink i
  by_cases hEq : i.1 = r
  · rw [hEq, Function.update_self]
    rw [hEq] at hLink
    exact
      (hRoutes.baloops r).feed_induction hStep hLink P hP
        hArrive
  · rw [Function.update_of_ne hEq, ← hLink,
      RouterChain.feed_arrived]
    exact hP

/- The instance routers keep every chain in order. -/
theorem Routes.setBaloop
    (hRoutes : Routes s) {r : Nat}
    {c : RouterChain (Numbered (BAMsg α))}
    (hStep :
      Step (baloopRouting α).numbered (s.baloops r) a c) :
    Routes (s.setBaloop r c) := by
  have hSound := hRoutes.baloops r
  refine
    { hRoutes with
      baloops := ?_
      loops := ?_
      baLink := ?_
      loopLink := ?_ }
  · intro r'
    change Sound _ (Function.update s.baloops r c r')
    by_cases hEq : r' = r
    · subst hEq
      rw [Function.update_self]
      exact hSound.step hStep
    · rw [Function.update_of_ne hEq]
      exact hRoutes.baloops r'
  · intro i
    exact
      hRoutes.feed_loops hStep i
        (Sound (loopmsgRouting α i.1 i.2).numbered)
        (hRoutes.loops i)
        fun _ hNew => (hRoutes.loops i).arrive hNew
  · intro r'
    change (Function.update s.baloops r c r').arrived = _
    by_cases hEq : r' = r
    · subst hEq
      rw [Function.update_self, (hSound.flow hStep).arrived]
      exact hRoutes.baLink r'
    · rw [Function.update_of_ne hEq]
      exact hRoutes.baLink r'
  · intro i
    change
      ((s.loops i).feed
          ((Function.update s.baloops r c i.1).handed
            i.2)).arrived =
        (Function.update s.baloops r c i.1).handed i.2
    have hLink := hRoutes.loopLink i
    by_cases hEq : i.1 = r
    · rw [hEq] at hLink ⊢
      rw [Function.update_self]
      exact hSound.feed_link hStep hLink
    · rw [Function.update_of_ne hEq, ← hLink,
        RouterChain.feed_arrived]

/- The loop routers keep every chain in order. -/
theorem Routes.setLoop
    (hRoutes : Routes s) {i : Nat × Nat}
    {c : RouterChain (Numbered (BAMsg α))}
    (hStep :
      Step (loopmsgRouting α i.1 i.2).numbered (s.loops i)
        a c) :
    Routes (s.setLoop i c) := by
  have hSound := hRoutes.loops i
  refine { hRoutes with loops := ?_, loopLink := ?_ }
  · intro j
    change Sound _ (Function.update s.loops i c j)
    by_cases hEq : j = i
    · subst hEq
      rw [Function.update_self]
      exact hSound.step hStep
    · rw [Function.update_of_ne hEq]
      exact hRoutes.loops j
  · intro j
    change (Function.update s.loops i c j).arrived = _
    by_cases hEq : j = i
    · subst hEq
      rw [Function.update_self, (hSound.flow hStep).arrived]
      exact hRoutes.loopLink j
    · rw [Function.update_of_ne hEq]
      exact hRoutes.loopLink j

/- The broadcast routers keep every chain in order. -/
theorem Routes.setRbcs
    (hRoutes : Routes s)
    {c : RouterChain (Numbered (RBCMsg β))}
    (hStep : Step (rbcmsgRouting β).numbered s.rbcs a c) :
    Routes { s with rbcs := c } :=
  { hRoutes with
    rbcs := hRoutes.rbcs.step hStep
    rbcsCounted :=
      Counted.step hRoutes.rbcsCounted hRoutes.rbcs hStep }

/- What is recorded is not read by the routers. -/
theorem Routes.record
    (hRoutes : Routes s) (r b : Nat) (a : RouterAction) :
    Routes (s.record r b a) :=
  { hRoutes with }

end Step

/- Every step keeps every chain in order. -/
theorem Routes.run
    {s s' : Node α β} {a : NodeAction α β}
    (hRoutes : Routes s) (hRun : s.run a = some s') :
    Routes s' := by
  cases a with
  | receiveBA m =>
      cases hRun
      have hNew := hRoutes.basCounted.not_mem m
      exact
        { hRoutes with
          bas := hRoutes.bas.arrive hNew
          basCounted := hRoutes.basCounted.arrive m }
  | receiveRBC m =>
      cases hRun
      have hNew := hRoutes.rbcsCounted.not_mem m
      exact
        { hRoutes with
          rbcs := hRoutes.rbcs.arrive hNew
          rbcsCounted := hRoutes.rbcsCounted.arrive m }
  | ba a =>
      rcases Option.map_eq_some_iff.mp hRun with
        ⟨c, hExec, rfl⟩
      exact hRoutes.setBas (step_of_exec hExec)
  | rbc a =>
      rcases Option.map_eq_some_iff.mp hRun with
        ⟨c, hExec, rfl⟩
      exact hRoutes.setRbcs (step_of_exec hExec)
  | done =>
      rcases Option.bind_eq_some_iff.mp hRun with
        ⟨c, hExec, hRest⟩
      rcases Option.map_eq_some_iff.mp hRest with
        ⟨c', hExec', rfl⟩
      exact
        (hRoutes.setBas (step_of_exec hExec)).setRbcs
          (step_of_exec hExec')
  | baloop r a =>
      rcases Option.map_eq_some_iff.mp hRun with
        ⟨c, hExec, rfl⟩
      exact hRoutes.setBaloop (step_of_exec hExec)
  | loop r b a =>
      rcases Option.map_eq_some_iff.mp hRun with
        ⟨c, hExec, rfl⟩
      exact
        (hRoutes.record r b a).setLoop (step_of_exec hExec)
  | output r b | route r =>
      cases hRun
      exact { hRoutes with }

/- It holds in every run. -/
theorem routes
    {N : Nat} {s : Node α β}
    {ok : Node α β → NodeAction α β → Prop}
    (hReach : (node α β N).ReachableBy ok s) :
    Routes s := by
  refine Machine.ReachableBy.invariant Routes routes_new ?_
    hReach
  intro s a s' _ hRoutes _ hExec
  exact
    hRoutes.run (Option.ite_none_right_eq_some.mp hExec).2

end Node

------------------------------------------------------------
-- What Reaches the Instances
------------------------------------------------------------

/- A message for a loop of an agreement, and for all of it. -/
def ForLoop (r b l : Nat) (m : BAMsg α) : Prop :=
  m.mvbaRound.toInt = r ∧ m.baRound.toInt = b ∧
    m.type ≠ 4 ∧ m.loop.toInt = l

/- A FINISH for one instance. -/
def ForBA (r b : Nat) (m : BAMsg α) : Prop :=
  m.mvbaRound.toInt = r ∧ m.baRound.toInt = b ∧ m.type = 4

namespace Node

variable {α β : Type*} [DecidableEq α] [DecidableEq β]

/-
  What an instance has is its own and comes once, and nothing
  a router or an instance checks makes it panic.
-/
structure Exact (s : Node α β) : Prop where
  loops :
    ∀ r b l, ∀ m ∈ (s.loops (r, b)).handed l,
      ForLoop r b l m.msg ∧
        ((s.loops (r, b)).handed l).count m = 1
  finishes :
    ∀ r b, ∀ m ∈ (s.loops (r, b)).expressed,
      ForBA r b m.msg ∧
        (s.loops (r, b)).expressed.count m = 1
  expected :
    ∀ r b l m, (s.loops (r, b)).routers l = .holding m →
      wrongMVBARound r m.msg = false ∧
        wrongBARound b m.msg = false
  rbcs :
    ∀ r leader, ∀ m ∈ s.rbcmsgCH r leader,
      m.msg.round.toInt = r

section Routes

variable {s : Node α β}

/- What has come to an agreement is meant for it. -/
theorem Routes.rounds_eq
    (hRoutes : Routes s) {r b : Nat}
    {m : Numbered (BAMsg α)}
    (hMem : m ∈ (s.loops (r, b)).arrived) :
    m.msg.mvbaRound.toInt = r ∧ m.msg.baRound.toInt = b := by
  rw [hRoutes.loopLink (r, b)] at hMem
  have hBA :=
    (hRoutes.baloops r).placed.place (.handed b) m hMem
  have hHere : m ∈ (s.baloops r).arrived :=
    (hRoutes.baloops r).located.arrived (.handed b) hMem
  rw [hRoutes.baLink r] at hHere
  have hRound :=
    hRoutes.bas.placed.place (.handed r) m hHere
  exact ⟨hRound.2.1, hBA.2.1⟩

/- Every message is at its own place and once. -/
theorem Routes.exact (hRoutes : Routes s) : Exact s where
  loops := by
    intro r b l m hMem
    have hSound := hRoutes.loops (r, b)
    have hOk := hSound.placed.place (.handed l) m hMem
    have hRounds :=
      hRoutes.rounds_eq
        (hSound.located.arrived (.handed l) hMem)
    have hType : m.msg.type ≠ 4 :=
      of_decide_eq_false hOk.1
    exact
      ⟨⟨hRounds.1, hRounds.2, hType, hOk.2.1⟩,
        hSound.located.count_eq (.handed l) hMem⟩
  finishes := by
    intro r b m hMem
    have hSound := hRoutes.loops (r, b)
    have hOk := hSound.placed.place .expressed m hMem
    have hRounds :=
      hRoutes.rounds_eq
        (hSound.located.arrived .expressed hMem)
    exact
      ⟨⟨hRounds.1, hRounds.2, of_decide_eq_true hOk⟩,
        hSound.located.count_eq .expressed hMem⟩
  expected := by
    intro r b l m hHolding
    have hHeld : m ∈ (s.loops (r, b)).contents (.held l) := by
      simp only [RouterChain.contents, hHolding, Router.hand,
        List.mem_singleton]
    have hRounds :=
      hRoutes.rounds_eq
        ((hRoutes.loops (r, b)).located.arrived _ hHeld)
    simp only [wrongMVBARound, wrongBARound, hRounds, ne_eq,
      not_true, decide_false, and_self]
  rbcs := by
    intro r leader m hMem
    have hHanded : m ∈ s.rbcs.handed r :=
      List.mem_of_mem_take (List.mem_of_mem_filter hMem)
    exact
      (hRoutes.rbcs.placed.place (.handed r) m hHanded).2.1

end Routes

end Node

end Routing

end Jumbo
