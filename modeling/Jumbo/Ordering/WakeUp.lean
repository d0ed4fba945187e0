import Jumbo.Ordering.Forward

/-
  The two goroutines that generate inputs: one receives the
  blocks, the other the outputs of the agreement, and both
  run `check_send`. Between two steps of one of them the
  other one and the agreement take any number of steps.

  A goroutine clears the flag `ready` only after its input
  has been sent. When the agreement is faster, it clears a
  flag that the other one has set for the next input.

  Main declarations:
    * `CheckSend` and `OrderM.checkSend`
    * `orderM`
    * `OnePerRound`, `Stuck` and `marksSafely`
    * `input_submitted`
-/

------------------------------------------------------------
-- The Goroutines
------------------------------------------------------------

namespace Jumbo

namespace Ordering

open Protocol
open Struct

/-
  Where a goroutine stands in `check_send`. The loops of
  `check_input` read one entry in each step.
-/
inductive CheckSend (n K : Nat) (type : BroadcastType) where
| check (rest : List (Fin n × Fin K)) (count : Nat)
| generate
| send (input : Input type)
| sent
| counted
| mark

/-
  The goroutine of the blocks works when it has stored a
  block and not yet looked at `ready`, the one of the outputs
  while it cuts the blocks.
-/
inductive Goroutine (n K : Nat) (type : BroadcastType) where
| idle
| working
| checkSend (point : CheckSend n K type)

/-
  `running` says that the agreement has taken an input and
  not decided. Inputs and outputs are counted.
-/
structure OrderM (n K : Nat) (type : BroadcastType) where
  od : Order n K type
  ready : Bool
  round : Nat
  sendInputCH : List (Input type)
  rcvOutputCH : List (Input type)
  blocks : Goroutine n K type
  outputs : Goroutine n K type
  running : Bool
  submitted : Nat
  decided : Nat

/- A step of one of the goroutines. -/
inductive OrderMAction (type : BroadcastType) where
| arrive (block : BCBlock)
| look
| blockStep
| receive
| cut
| outputStep
| take
| decide (output : Input type)

variable {n K : Nat} {type : BroadcastType}

namespace OrderM

/- The parties may propose and nothing runs. -/
def new : OrderM n K type where
  od := Order.new
  ready := true
  round := 0
  sendInputCH := []
  rcvOutputCH := []
  blocks := .idle
  outputs := .idle
  running := false
  submitted := 0
  decided := 0

/- The loop of `check_input` at one entry. -/
def checkEntry
    (s : OrderM n K type) (i : Fin n) (j : Fin K)
    (rest : List (Fin n × Fin K)) (count : Nat) :
    CheckSend n K type :=
  let height := (s.od.hs i j).toInt
  let commit := s.od.lastCommit i j
  if height < commit then .mark
  else .check rest (if commit < height then count + 1 else count)

/- One step of `check_send`. -/
def checkSend [NeZero K]
    (cfg : Config n) (s : OrderM n K type) :
    CheckSend n K type →
      Option (OrderM n K type × Goroutine n K type)
| .check [] count =>
    some
      (s, .checkSend
        (if n * 2 / 3 < count then .generate else .mark))
| .check ((i, j) :: rest) count =>
    some (s, .checkSend (s.checkEntry i j rest count))
| .generate =>
    (generateInput cfg s.od.heights type).map fun input =>
      (s, .checkSend (.send input))
| .send input =>
    some
      ({ s with
          sendInputCH := s.sendInputCH ++ [input]
          submitted := s.submitted + 1 },
        .checkSend .sent)
| .sent =>
    some
      ({ s with round := s.round + 1 }, .checkSend .counted)
| .counted => some ({ s with ready := false }, .idle)
| .mark => some ({ s with ready := true }, .idle)

/- A step of one of the goroutines. -/
def exec [NeZero K]
    (cfg : Config n) (s : OrderM n K type) :
    OrderMAction type → Option (OrderM n K type)
| .arrive block =>
    match s.blocks with
    | .idle =>
        (s.od.update block).map fun od =>
          { s with od := od, blocks := .working }
    | _ => none
| .look =>
    match s.blocks with
    | .working =>
        some { s with
          blocks :=
            if s.ready then .checkSend (.check (slots n K) 0)
            else .idle }
    | _ => none
| .blockStep =>
    match s.blocks with
    | .checkSend point =>
        (s.checkSend cfg point).map fun (s, blocks) =>
          { s with blocks := blocks }
    | _ => none
| .receive =>
    match s.outputs, s.rcvOutputCH with
    | .idle, output :: rest =>
        (s.od.rcvOutput output).map fun od =>
          { s with
            od := od
            rcvOutputCH := rest
            outputs := .working }
    | _, _ => none
| .cut =>
    match s.outputs with
    | .working =>
        (s.od.exec .cut).map fun od =>
          { s with
            od := od
            outputs := .checkSend (.check (slots n K) 0) }
    | _ => none
| .outputStep =>
    match s.outputs with
    | .checkSend point =>
        (s.checkSend cfg point).map fun (s, outputs) =>
          { s with outputs := outputs }
    | _ => none
| .take =>
    match s.running, s.sendInputCH with
    | false, _ :: rest =>
        some { s with sendInputCH := rest, running := true }
    | _, _ => none
| .decide output =>
    if s.running then
      some { s with
        rcvOutputCH := s.rcvOutputCH ++ [output]
        running := false
        decided := s.decided + 1 }
    else none

end OrderM

/- One party with its agreement. -/
def orderM [NeZero K] (cfg : Config n) (type : BroadcastType) :
    Machine (OrderM n K type) (OrderMAction type) where
  init := OrderM.new
  exec := OrderM.exec cfg

end Ordering

end Jumbo

------------------------------------------------------------
-- Whose Turn It Is
------------------------------------------------------------

namespace Jumbo

namespace Ordering

open Protocol
open Struct

variable {n K : Nat} {type : BroadcastType}

namespace Goroutine

/- In `check_send`, with the input or the flag to come. -/
def pending : Goroutine n K type → Bool
| .checkSend .sent | .checkSend .counted => false
| .checkSend _ => true
| _ => false

/- The input has been sent and the flag not yet cleared. -/
def late : Goroutine n K type → Bool
| .checkSend .sent | .checkSend .counted => true
| _ => false

/- With an output for which no next input has been sent. -/
def holdsOutput : Goroutine n K type → Bool
| .working => true
| g => g.pending

end Goroutine

namespace OrderM

/-
  The round is with the agreement, or on the way to or from
  it; otherwise the goroutine of the blocks is to find out
  when there is a next input.
-/
def turns (s : OrderM n K type) : Nat :=
  s.sendInputCH.length + s.running.toNat +
    s.rcvOutputCH.length + s.outputs.holdsOutput.toNat

/- At most one goroutine has the turn to propose. -/
structure Turn (s : OrderM n K type) : Prop where
  one : s.turns ≤ 1
  blocks : s.blocks.pending = true → s.turns = 0
  ready :
    s.ready = true → s.turns = 0 ∨ s.blocks.late = true
  outputs : s.turns = 0 → s.outputs = .idle
  submitted :
    s.submitted =
      s.decided + s.sendInputCH.length + s.running.toNat

end OrderM

/- A goroutine that has not looked is not late. -/
theorem late_of_pending
    {g : Goroutine n K type} (hPending : g.pending = true) :
    g.late = false := by
  cases g with
  | idle | working => rfl
  | checkSend point =>
      cases point with
      | sent | counted => cases hPending
      | check | generate | send | mark => rfl

/- It still has its output. -/
theorem holdsOutput_of_pending
    {g : Goroutine n K type} (hPending : g.pending = true) :
    g.holdsOutput = true := by
  cases g with
  | idle => cases hPending
  | working => rfl
  | checkSend point => exact hPending

/- One step of `check_send` before the input is sent. -/
theorem checkEntry_pending
    (s : OrderM n K type) (i : Fin n) (j : Fin K)
    (rest : List (Fin n × Fin K)) (count : Nat) :
    (Goroutine.checkSend
      (s.checkEntry i j rest count)).pending = true := by
  unfold OrderM.checkEntry
  dsimp only
  split <;> rfl

/- What a step of `check_send` does, and where it leads. -/
inductive CheckStep
    (s : OrderM n K type) :
    CheckSend n K type → OrderM n K type →
      Goroutine n K type → Prop
| stay (point : CheckSend n K type)
    (next : Goroutine n K type) :
    (Goroutine.checkSend point).pending = true →
      point ≠ .mark →
        next.pending = true →
          CheckStep s point s next
| send (input : Input type) :
    CheckStep s (.send input)
      { s with
        sendInputCH := s.sendInputCH ++ [input]
        submitted := s.submitted + 1 }
      (.checkSend .sent)
| sent :
    CheckStep s .sent { s with round := s.round + 1 }
      (.checkSend .counted)
| counted :
    CheckStep s .counted { s with ready := false } .idle
| mark : CheckStep s .mark { s with ready := true } .idle

/- Every statement of `check_send` is one of these. -/
theorem checkStep_of_checkSend
    [NeZero K] {cfg : Config n} {s s' : OrderM n K type}
    {point : CheckSend n K type}
    {next : Goroutine n K type}
    (hStep : s.checkSend cfg point = some (s', next)) :
    CheckStep s point s' next := by
  cases point with
  | check rest count =>
      cases rest with
      | nil =>
          cases hStep
          refine .stay _ _ rfl (by simp) ?_
          split <;> rfl
      | cons slot rest =>
          rcases slot with ⟨i, j⟩
          cases hStep
          exact
            .stay _ _ rfl (by simp)
              (checkEntry_pending _ _ _ _ _)
  | generate =>
      rcases Option.map_eq_some_iff.mp hStep with
        ⟨input, _, hEq⟩
      cases hEq
      exact .stay _ _ rfl (by simp) rfl
  | send input =>
      cases hStep
      exact .send input
  | sent =>
      cases hStep
      exact .sent
  | counted =>
      cases hStep
      exact .counted
  | mark =>
      cases hStep
      exact .mark

/- What a step of the party does. -/
inductive OrderMStep
    (s : OrderM n K type) :
    OrderMAction type → OrderM n K type → Prop
| arrive (block : BCBlock) (od : Order n K type) :
    s.blocks = .idle →
      OrderMStep s (.arrive block)
        { s with od := od, blocks := .working }
| look :
    s.blocks = .working →
      OrderMStep s .look
        { s with
          blocks :=
            if s.ready then .checkSend (.check (slots n K) 0)
            else .idle }
| blockStep
    (point : CheckSend n K type) (s' : OrderM n K type)
    (next : Goroutine n K type) :
    s.blocks = .checkSend point →
      CheckStep s point s' next →
        OrderMStep s .blockStep { s' with blocks := next }
| receive
    (output : Input type) (rest : List (Input type))
    (od : Order n K type) :
    s.outputs = .idle →
      s.rcvOutputCH = output :: rest →
        OrderMStep s .receive
          { s with
            od := od
            rcvOutputCH := rest
            outputs := .working }
| cut (od : Order n K type) :
    s.outputs = .working →
      OrderMStep s .cut
        { s with
          od := od
          outputs := .checkSend (.check (slots n K) 0) }
| outputStep
    (point : CheckSend n K type) (s' : OrderM n K type)
    (next : Goroutine n K type) :
    s.outputs = .checkSend point →
      CheckStep s point s' next →
        OrderMStep s .outputStep { s' with outputs := next }
| take (input : Input type) (rest : List (Input type)) :
    s.running = false →
      s.sendInputCH = input :: rest →
        OrderMStep s .take
          { s with sendInputCH := rest, running := true }
| decide (output : Input type) :
    s.running = true →
      OrderMStep s (.decide output)
        { s with
          rcvOutputCH := s.rcvOutputCH ++ [output]
          running := false
          decided := s.decided + 1 }

/- Every action makes one of the steps. -/
theorem orderMStep_of_exec
    [NeZero K] {cfg : Config n} {s s' : OrderM n K type}
    {a : OrderMAction type}
    (hExec : s.exec cfg a = some s') :
    OrderMStep s a s' := by
  cases a with
  | arrive block =>
      dsimp only [OrderM.exec] at hExec
      split at hExec
      · rename_i hIdle
        rcases Option.map_eq_some_iff.mp hExec with
          ⟨od, _, rfl⟩
        exact .arrive block od hIdle
      · cases hExec
  | look =>
      dsimp only [OrderM.exec] at hExec
      split at hExec
      · rename_i hWorking
        cases hExec
        exact .look hWorking
      · cases hExec
  | blockStep =>
      dsimp only [OrderM.exec] at hExec
      split at hExec
      · rename_i point hPoint
        rcases Option.map_eq_some_iff.mp hExec with
          ⟨⟨s', next⟩, hStep, rfl⟩
        exact
          .blockStep point s' next hPoint
            (checkStep_of_checkSend hStep)
      · cases hExec
  | receive =>
      dsimp only [OrderM.exec] at hExec
      split at hExec
      · rename_i output rest hIdle hOutput
        rcases Option.map_eq_some_iff.mp hExec with
          ⟨od, _, rfl⟩
        exact .receive output rest od hIdle hOutput
      · cases hExec
  | cut =>
      dsimp only [OrderM.exec] at hExec
      split at hExec
      · rename_i hWorking
        rcases Option.map_eq_some_iff.mp hExec with
          ⟨od, _, rfl⟩
        exact .cut od hWorking
      · cases hExec
  | outputStep =>
      dsimp only [OrderM.exec] at hExec
      split at hExec
      · rename_i point hPoint
        rcases Option.map_eq_some_iff.mp hExec with
          ⟨⟨s', next⟩, hStep, rfl⟩
        exact
          .outputStep point s' next hPoint
            (checkStep_of_checkSend hStep)
      · cases hExec
  | take =>
      dsimp only [OrderM.exec] at hExec
      split at hExec
      · rename_i input rest hIdle hInput
        cases hExec
        exact .take input rest hIdle hInput
      · cases hExec
  | decide output =>
      rcases Option.ite_none_right_eq_some.mp hExec with
        ⟨hRunning, hEq⟩
      cases hEq
      exact .decide output hRunning

end Ordering

end Jumbo

------------------------------------------------------------
-- One Input for a Round
------------------------------------------------------------

namespace Jumbo

namespace Ordering

open Protocol
open Struct

variable {n K : Nat} {type : BroadcastType}

section Step

variable {s s' : OrderM n K type}

/- A step while the round is under way. -/
theorem OrderM.Turn.keep
    (hTurn : s.Turn)
    (hSome : s.turns ≠ 0)
    (hSame : s'.turns = s.turns)
    (hBlocks : s'.blocks = s.blocks)
    (hReady : s'.ready = true → s.ready = true)
    (hSubmitted :
      s'.submitted =
        s'.decided + s'.sendInputCH.length +
          s'.running.toNat) :
    s'.Turn where
  one := hSame ▸ hTurn.one
  blocks := by
    rw [hBlocks, hSame]
    exact hTurn.blocks
  ready := by
    rw [hBlocks, hSame]
    exact fun h => hTurn.ready (hReady h)
  outputs := by
    rw [hSame]
    exact fun h => absurd h hSome
  submitted := hSubmitted

/- A step after a block keeps the turn. -/
theorem OrderM.Turn.blockStep
    (hTurn : s.Turn)
    {point : CheckSend n K type} {next : Goroutine n K type}
    (hPoint : s.blocks = .checkSend point)
    (hStep : CheckStep s point s' next) :
    OrderM.Turn { s' with blocks := next } := by
  have hBlocks := hTurn.blocks
  have hReady := hTurn.ready
  have hOutputs := hTurn.outputs
  have hSubmitted := hTurn.submitted
  have hOne := hTurn.one
  rw [hPoint] at hBlocks hReady
  cases hStep with
  | stay point next hPending _ hNext =>
      have hNone := hBlocks hPending
      exact
        { one := hOne
          blocks := fun _ => hNone
          ready := fun _ => .inl hNone
          outputs := hOutputs
          submitted := hSubmitted }
  | send input =>
      have hNone := hBlocks rfl
      simp only [OrderM.turns] at hNone
      exact
        { one := by
            simp only [OrderM.turns, List.length_append,
              List.length_singleton]
            omega
          blocks := fun h => by cases h
          ready := fun _ => .inr rfl
          outputs := fun h => by
            simp only [OrderM.turns, List.length_append,
              List.length_singleton] at h
            omega
          submitted := by
            simp only [List.length_append,
              List.length_singleton]
            omega }
  | sent =>
      exact
        { one := hOne
          blocks := fun h => by cases h
          ready := fun _ => .inr rfl
          outputs := hOutputs
          submitted := hSubmitted }
  | counted =>
      exact
        { one := hOne
          blocks := fun h => by cases h
          ready := fun h => by cases h
          outputs := hOutputs
          submitted := hSubmitted }
  | mark =>
      exact
        { one := hOne
          blocks := fun h => by cases h
          ready := fun _ => .inl (hBlocks rfl)
          outputs := hOutputs
          submitted := hSubmitted }

/- A step after an output keeps the turn. -/
theorem OrderM.Turn.outputStep
    (hTurn : s.Turn)
    {point : CheckSend n K type} {next : Goroutine n K type}
    (hPoint : s.outputs = .checkSend point)
    (hStep : CheckStep s point s' next) :
    OrderM.Turn { s' with outputs := next } := by
  have hSubmitted := hTurn.submitted
  -- the output is here, or the next round is under way
  have hSome : s.turns ≠ 0 := by
    intro hNone
    rw [hTurn.outputs hNone] at hPoint
    cases hPoint
  cases hStep with
  | stay point next hPending _ hNext =>
      refine hTurn.keep hSome ?_ rfl id hSubmitted
      unfold OrderM.turns
      rw [holdsOutput_of_pending hNext, hPoint,
        holdsOutput_of_pending hPending]
  | send input =>
      refine hTurn.keep hSome ?_ rfl id ?_
      · unfold OrderM.turns
        rw [hPoint]
        simp only [List.length_append, List.length_singleton,
          Goroutine.holdsOutput, Goroutine.pending,
          Bool.toNat_false, Bool.toNat_true]
        omega
      · simp only [List.length_append, List.length_singleton]
        omega
  | sent =>
      refine hTurn.keep hSome ?_ rfl id hSubmitted
      unfold OrderM.turns
      rw [hPoint]
      rfl
  | counted =>
      refine
        { one := ?_
          blocks := fun h => absurd (hTurn.blocks h) hSome
          ready := fun h => by cases h
          outputs := fun _ => rfl
          submitted := hSubmitted }
      have hOne := hTurn.one
      unfold OrderM.turns at hOne ⊢
      rw [hPoint] at hOne
      exact hOne
  | mark =>
      have hNone :
          OrderM.turns
            { s with
              ready := true
              outputs := .idle } = 0 := by
        have hOne := hTurn.one
        unfold OrderM.turns at hOne ⊢
        rw [hPoint] at hOne
        simp only [Goroutine.holdsOutput, Goroutine.pending,
          Bool.toNat_true, Bool.toNat_false] at hOne ⊢
        omega
      exact
        { one := hNone ▸ Nat.zero_le 1
          blocks := fun _ => hNone
          ready := fun _ => .inl hNone
          outputs := fun _ => rfl
          submitted := hSubmitted }

/- Every step leaves one place for the round. -/
theorem OrderM.Turn.step
    (hTurn : s.Turn)
    {a : OrderMAction type}
    (hStep : OrderMStep s a s') :
    s'.Turn := by
  have hReady := hTurn.ready
  have hSubmitted := hTurn.submitted
  cases hStep with
  | arrive block od hIdle =>
      rw [hIdle] at hReady
      exact
        { one := hTurn.one
          blocks := fun h => by cases h
          ready := hReady
          outputs := hTurn.outputs
          submitted := hSubmitted }
  | look hWorking =>
      have hOpen : s.ready = true → s.turns = 0 := by
        intro hFlag
        rcases hReady hFlag with hNone | hLate
        · exact hNone
        · rw [hWorking] at hLate
          cases hLate
      exact
        { one := hTurn.one
          blocks := fun h => by
            by_cases hFlag : s.ready = true
            · exact hOpen hFlag
            · rw [if_neg hFlag] at h
              cases h
          ready := fun h => .inl (hOpen h)
          outputs := hTurn.outputs
          submitted := hSubmitted }
  | blockStep point s' next hPoint hCheck =>
      exact hTurn.blockStep hPoint hCheck
  | receive output rest od hIdle hOutput =>
      refine hTurn.keep ?_ ?_ rfl id hSubmitted
      · unfold OrderM.turns
        rw [hOutput, List.length_cons]
        omega
      · unfold OrderM.turns
        rw [hIdle, hOutput]
        rfl
  | cut od hWorking =>
      refine hTurn.keep ?_ ?_ rfl id hSubmitted
      · intro hNone
        rw [hTurn.outputs hNone] at hWorking
        cases hWorking
      · unfold OrderM.turns
        rw [hWorking]
        rfl
  | outputStep point s' next hPoint hCheck =>
      exact hTurn.outputStep hPoint hCheck
  | take input rest hIdle hInput =>
      refine hTurn.keep ?_ ?_ rfl id ?_
      · unfold OrderM.turns
        rw [hInput, List.length_cons]
        omega
      · simp only [OrderM.turns, hIdle, hInput,
          List.length_cons, Bool.toNat_true, Bool.toNat_false]
      · rw [hIdle, hInput, List.length_cons,
          Bool.toNat_false] at hSubmitted
        rw [Bool.toNat_true]
        omega
  | decide output hRunning =>
      refine hTurn.keep ?_ ?_ rfl id ?_
      · unfold OrderM.turns
        rw [hRunning, Bool.toNat_true]
        omega
      · simp only [OrderM.turns, hRunning, List.length_append,
          List.length_singleton, Bool.toNat_true,
          Bool.toNat_false]
        omega
      · simp only [hRunning, Bool.toNat_true,
          Bool.toNat_false] at hSubmitted ⊢
        omega

end Step

/- The place of the round in any run. -/
theorem orderM_turn
    [NeZero K] {cfg : Config n} {s : OrderM n K type}
    {ok : OrderM n K type → OrderMAction type → Prop}
    (hReach : (orderM cfg type).ReachableBy ok s) :
    s.Turn := by
  refine Machine.ReachableBy.invariant OrderM.Turn ?_ ?_
    hReach
  · exact
      { one := Nat.zero_le 1
        blocks := fun _ => rfl
        ready := fun _ => .inl rfl
        outputs := fun _ => rfl
        submitted := rfl }
  · intro s a s' _ hTurn _ hExec
    exact hTurn.step (orderMStep_of_exec hExec)

end Ordering

end Jumbo

------------------------------------------------------------
-- No Wake-Up Is Lost
------------------------------------------------------------

namespace Jumbo

namespace Ordering

open Protocol
open Struct

variable {n K : Nat} {type : BroadcastType}

/-
  Every round that has begun has taken one input, and none
  has been sent for a second one.
-/
def OnePerRound (s : OrderM n K type) : Prop :=
  s.decided + s.running.toNat ≤ s.submitted ∧
    s.submitted ≤ s.decided + 1

/- The agreement waits for an input that nobody sends. -/
def Stuck (s : OrderM n K type) : Prop :=
  (s.running = false ∧ s.sendInputCH = []) ∧
    checkInput s.od.hs s.od.lastCommit = true ∧
      s.blocks = .idle ∧
        (s.outputs = .idle ∧ s.rcvOutputCH = []) ∧
          s.ready = false

/-
  The condition: the goroutine of the outputs sets `ready`
  only when the one of the blocks has cleared it for the
  input before.
-/
def marksSafely
    (s : OrderM n K type) : OrderMAction type → Bool
| .outputStep =>
    match s.outputs with
    | .checkSend .mark => !s.blocks.late
    | _ => true
| _ => true

/- Nobody has the round, and the flag says that it is open. -/
def Awake (s : OrderM n K type) : Prop :=
  s.turns = 0 → s.ready = true ∧ s.blocks.late = false

/-
  Nobody has the round, and the flag is cleared or about to
  be.
-/
structure Asleep (s : OrderM n K type) : Prop where
  turns : s.turns = 0
  outputs : s.outputs = .idle
  blocks :
    s.blocks.late = true ∨
      s.ready = false ∧ s.blocks.pending = false

section Step

variable {s s' : OrderM n K type}

/- So a round has one input at most. -/
theorem OrderM.Turn.onePerRound
    (hTurn : s.Turn) : OnePerRound s := by
  have hSubmitted := hTurn.submitted
  have hOne := hTurn.one
  unfold OrderM.turns at hOne
  constructor
  · omega
  · omega

/- Where it is awake, the ordering goes on. -/
theorem Awake.not_stuck
    (hAwake : Awake s) : ¬ Stuck s := by
  rintro ⟨⟨hIdle, hInput⟩, _, _, ⟨hOutputs, hOutput⟩, hFlag⟩
  have hNone : s.turns = 0 := by
    unfold OrderM.turns
    rw [hIdle, hInput, hOutputs, hOutput]
    rfl
  rw [(hAwake hNone).1] at hFlag
  cases hFlag

/- A safe step keeps it awake. -/
theorem Awake.step
    (hTurn : s.Turn) (hAwake : Awake s)
    {a : OrderMAction type}
    (hStep : OrderMStep s a s')
    (hSafe : marksSafely s a = true) :
    Awake s' := by
  cases hStep with
  | arrive block od hIdle =>
      intro hNone
      exact ⟨(hAwake hNone).1, rfl⟩
  | look hWorking =>
      intro hNone
      refine ⟨(hAwake hNone).1, ?_⟩
      dsimp only
      split <;> rfl
  | blockStep point s' next hPoint hCheck =>
      intro hNone
      cases hCheck with
      | stay point next hPending _ hNext =>
          exact ⟨(hAwake hNone).1, late_of_pending hNext⟩
      | send input =>
          simp only [OrderM.turns, List.length_append,
            List.length_singleton] at hNone
          omega
      | sent | counted =>
          have hLate := (hAwake hNone).2
          rw [hPoint] at hLate
          cases hLate
      | mark => exact ⟨rfl, rfl⟩
  | receive output rest od hIdle hOutput =>
      intro hNone
      simp only [OrderM.turns, Goroutine.holdsOutput,
        Bool.toNat_true] at hNone
      omega
  | cut od hWorking =>
      intro hNone
      simp only [OrderM.turns, Goroutine.holdsOutput,
        Goroutine.pending, Bool.toNat_true] at hNone
      omega
  | outputStep point s' next hPoint hCheck =>
      intro hNone
      have hSome : s.turns ≠ 0 := by
        intro h
        rw [hTurn.outputs h] at hPoint
        cases hPoint
      cases hCheck with
      | stay point next hPending _ hNext =>
          simp only [OrderM.turns,
            holdsOutput_of_pending hNext,
            Bool.toNat_true] at hNone
          omega
      | send input =>
          simp only [OrderM.turns, List.length_append,
            List.length_singleton] at hNone
          omega
      | sent | counted =>
          refine absurd ?_ hSome
          unfold OrderM.turns at hNone ⊢
          rw [hPoint]
          exact hNone
      | mark =>
          refine ⟨rfl, ?_⟩
          simp only [marksSafely, hPoint,
            Bool.not_eq_true'] at hSafe
          exact hSafe
  | take input rest hIdle hInput =>
      intro hNone
      simp only [OrderM.turns, Bool.toNat_true] at hNone
      omega
  | decide output hRunning =>
      intro hNone
      simp only [OrderM.turns, List.length_append,
        List.length_singleton] at hNone
      omega

/- A step that does not meet the condition. -/
theorem asleep_of_unsafe
    (hTurn : s.Turn)
    {a : OrderMAction type}
    (hStep : OrderMStep s a s')
    (hUnsafe : marksSafely s a = false) :
    Asleep s' := by
  cases hStep with
  | outputStep point s' next hPoint hCheck =>
      cases hCheck with
      | mark =>
          have hOne := hTurn.one
          simp only [OrderM.turns, hPoint,
            Goroutine.holdsOutput, Goroutine.pending,
            Bool.toNat_true] at hOne
          simp only [marksSafely, hPoint,
            Bool.not_eq_false'] at hUnsafe
          refine ⟨?_, rfl, .inl hUnsafe⟩
          simp only [OrderM.turns, Goroutine.holdsOutput,
            Goroutine.pending, Bool.toNat_false]
          omega
      | stay point next hPending hNot hNext =>
          cases point with
          | mark => exact absurd rfl hNot
          | check | generate | send | sent | counted =>
              simp [marksSafely, hPoint] at hUnsafe
      | send | sent | counted =>
          simp [marksSafely, hPoint] at hUnsafe
  | arrive | look | blockStep | receive | cut | take
  | decide => cases hUnsafe

/- Nothing is sent any more. -/
theorem Asleep.step
    (hAsleep : Asleep s)
    {a : OrderMAction type}
    (hStep : OrderMStep s a s') :
    Asleep s' ∧ s'.submitted = s.submitted := by
  have hNone := hAsleep.turns
  have hIdle := hAsleep.outputs
  have hBlocks := hAsleep.blocks
  cases hStep with
  | arrive block od hBefore =>
      refine ⟨⟨hNone, hIdle, .inr ⟨?_, rfl⟩⟩, rfl⟩
      rw [hBefore] at hBlocks
      rcases hBlocks with hLate | ⟨hFlag, _⟩
      · cases hLate
      · exact hFlag
  | look hBefore =>
      rw [hBefore] at hBlocks
      rcases hBlocks with hLate | ⟨hFlag, _⟩
      · cases hLate
      · refine ⟨⟨hNone, hIdle, .inr ⟨hFlag, ?_⟩⟩, rfl⟩
        rw [hFlag]
        rfl
  | blockStep point s' next hPoint hCheck =>
      rw [hPoint] at hBlocks
      cases hCheck with
      | stay point next hPending _ hNext =>
          rcases hBlocks with hLate | ⟨_, hFree⟩
          · rw [late_of_pending hPending] at hLate
            cases hLate
          · rw [hPending] at hFree
            cases hFree
      | send | mark =>
          rcases hBlocks with hLate | ⟨_, hFree⟩
          · cases hLate
          · cases hFree
      | sent => exact ⟨⟨hNone, hIdle, .inl rfl⟩, rfl⟩
      | counted =>
          exact ⟨⟨hNone, hIdle, .inr ⟨rfl, rfl⟩⟩, rfl⟩
  | receive output rest od _ hOutput =>
      simp only [OrderM.turns, hOutput,
        List.length_cons] at hNone
      omega
  | cut od hWorking =>
      rw [hIdle] at hWorking
      cases hWorking
  | outputStep point s' next hPoint _ =>
      rw [hIdle] at hPoint
      cases hPoint
  | take input rest _ hInput =>
      simp only [OrderM.turns, hInput,
        List.length_cons] at hNone
      omega
  | decide output hRunning =>
      simp only [OrderM.turns, hRunning,
        Bool.toNat_true] at hNone
      omega

end Step

/-
  In every run whose steps meet the condition each round gets
  one input and no wake-up is lost. After a step that does
  not meet it nothing is submitted any more.
-/
theorem input_submitted
    [NeZero K] {cfg : Config n} {s : OrderM n K type}
    (hReach :
      (orderM cfg type).ReachableBy
        (fun s a => marksSafely s a = true) s) :
    (OnePerRound s ∧ ¬ Stuck s) ∧
      ∀ a s', s.exec cfg a = some s' →
        marksSafely s a = false →
          ∀ s'', Machine.Reachable
            ⟨s', OrderM.exec cfg⟩ s'' →
              s''.submitted = s'.submitted := by
  have hTurn := orderM_turn hReach
  have hAwake : Awake s := by
    refine Machine.ReachableBy.invariant Awake ?_ ?_ hReach
    · exact fun _ => ⟨rfl, rfl⟩
    · intro s a s' hReach hAwake hSafe hExec
      exact
        Awake.step (orderM_turn hReach) hAwake
          (orderMStep_of_exec hExec) hSafe
  refine ⟨⟨hTurn.onePerRound, hAwake.not_stuck⟩, ?_⟩
  intro a s' hExec hUnsafe s'' hAfter
  have hStart :=
    asleep_of_unsafe hTurn (orderMStep_of_exec hExec) hUnsafe
  have hBoth :
      Asleep s'' ∧ s''.submitted = s'.submitted := by
    refine Machine.Reachable.invariant
      (fun s'' : OrderM n K type =>
        Asleep s'' ∧ s''.submitted = s'.submitted)
      ⟨hStart, rfl⟩ ?_ hAfter
    intro s₁ a₁ s₂ _ hBoth hExec
    have hNext := hBoth.1.step (orderMStep_of_exec hExec)
    exact ⟨hNext.1, hNext.2.trans hBoth.2⟩
  exact hBoth.2

------------------------------------------------------------
-- A Round in Order and a Lost Wake-Up
------------------------------------------------------------

/- A block arrives, and its goroutine takes `steps` steps. -/
def stored
    (leader height : Int32) (steps : Nat) :
    List (OrderMAction .rbc) :=
  [.arrive (plainBlock leader height), .look] ++
    List.replicate steps .blockStep

/- The agreement decides the first block of three leaders. -/
def firstRound : List (OrderMAction .rbc) :=
  [.take, .decide ([0, 0, 0, -1] : List Int32), .receive,
    .cut] ++ List.replicate 6 .outputStep

/- Blocks come and the first round is decided. -/
def promptRun : List (OrderMAction .rbc) :=
  stored 1 0 6 ++ stored 2 0 6 ++ stored 3 0 9 ++ firstRound

/- Where that run ends. -/
def promptOrderM : OrderM 4 1 .rbc :=
  (orderM plainConfig .rbc).drive marksSafely OrderM.new
    promptRun

/- The input was submitted and decided. -/
theorem input_submitted_prompt :
    OnePerRound promptOrderM ∧ ¬ Stuck promptOrderM ∧
      promptOrderM.decided = 1 ∧ promptOrderM.ready = true := by
  have hReach :
      (orderM plainConfig .rbc).ReachableBy
        (fun s a => marksSafely s a = true) promptOrderM :=
    Machine.ReachableBy.drive .init promptRun
  have hSound := (input_submitted hReach).1
  exact
    ⟨hSound.1, hSound.2, by decide +kernel,
      by decide +kernel⟩

/-
  The input of the first round has been sent and its flag is
  not cleared before the round is over. The blocks of the
  next round arrive after that.
-/
def lostRun : List (OrderMAction .rbc) :=
  stored 1 0 6 ++ stored 2 0 6 ++ stored 3 0 7 ++
    firstRound ++ List.replicate 2 .blockStep ++
      stored 1 1 0 ++ stored 2 1 0 ++ stored 3 1 0

/- A goroutine that holds nothing is idle. -/
theorem idle_of_free
    {g : Goroutine n K type}
    (hHolds : g.holdsOutput = false) (hLate : g.late = false) :
    g = .idle := by
  cases g with
  | idle => rfl
  | working => cases hHolds
  | checkSend point =>
      cases point with
      | sent | counted => cases hLate
      | check | generate | send | mark => cases hHolds

/- Without the guard nobody proposes any more. -/
theorem wake_up_lost :
    ∃ s, (orderM (K := 1) plainConfig .rbc).Reachable s ∧
      Stuck s := by
  refine ⟨_, Machine.reachable_drive _ lostRun, ?_⟩
  refine
    ⟨⟨by decide +kernel, ?_⟩, by decide +kernel,
      idle_of_free (by decide +kernel) (by decide +kernel),
      ⟨idle_of_free (by decide +kernel) (by decide +kernel),
        ?_⟩, by decide +kernel⟩
  · exact List.eq_nil_of_length_eq_zero (by decide +kernel)
  · exact List.eq_nil_of_length_eq_zero (by decide +kernel)

end Ordering

end Jumbo
