import Jumbo.Lib.Machine
import Mathlib.Logic.Function.Basic

/-
  Chains of routers.

  Messages of numbered rounds come in on one channel. A new
  router is started for every round; it takes messages from
  the channel and from the buffer that the router before it
  has filled, hands on those of its round, drops those of
  earlier rounds and puts those of later rounds in the buffer
  for the router after it. The goroutine that starts the
  routers may first empty the buffer before that one.

  Main declarations:
    * `Routing` and `RouterChain`
    * `RouterChain.Step` and `RouterChain.Moves`
    * `RouterChain.Located`
    * `RouterChain.Placed`
-/

------------------------------------------------------------
-- Chains
------------------------------------------------------------

namespace Protocol

/-
  What a chain makes of its messages: the round of each, the
  ones that are passed on at once whatever their round, and
  the ones at which a router panics. `drains` says that the
  old buffer is emptied before a router starts, `stops` that
  routers end with their round, and `halts` that there is a
  signal that ends all of them.
-/
structure Routing (M : Type*) where
  level : M → Int
  express : M → Bool
  panics : Nat → M → Bool
  drains : Bool
  stops : Bool
  halts : Bool

/-
  Where a router stands: before it looks whether its round is
  over, at the select, or with a message in its hands.
-/
inductive Router (M : Type*) where
| absent
| top
| select
| holding (m : M)
| returned
deriving DecidableEq

/- Where the goroutine that starts the routers stands. -/
inductive Switch where
| idle
| draining (left : Nat)
| running
deriving DecidableEq, Repr

/-
  Router `r` takes from `buffers r` and fills
  `buffers (r + 1)`. What had arrived when a round ended is
  kept for every round that has.
-/
structure RouterChain (M : Type*) where
  arrived : List M
  input : List M
  routers : Nat → Router M
  buffers : Nat → List M
  handed : Nat → List M
  expressed : List M
  dropped : List M
  rounds : Nat
  switch : Switch
  ended : Nat → Option (List M)
  stopped : Bool

/- The statements of the main loop and of the routers. -/
inductive RouterAction where
| next
| drain
| start
| close
| stop
| check (r : Nat)
| quit (r : Nat)
| readInput (r : Nat)
| readBuffer (r : Nat)
| forward (r : Nat)
deriving DecidableEq, Repr

variable {M : Type*}

namespace RouterChain

/- No message has come and no router runs. -/
def new : RouterChain M where
  arrived := []
  input := []
  routers := fun _ => .absent
  buffers := fun _ => []
  handed := fun _ => []
  expressed := []
  dropped := []
  rounds := 0
  switch := .idle
  ended := fun _ => none
  stopped := false

/- Add a message to a numbered channel. -/
def push (f : Nat → List M) (r : Nat) (m : M) : Nat → List M :=
  Function.update f r (f r ++ [m])

/- A message comes into the input channel. -/
def arrive (c : RouterChain M) (m : M) : RouterChain M :=
  { c with
    arrived := c.arrived ++ [m]
    input := c.input ++ [m] }

/- Has the router of a round been told to return? -/
def told (cfg : Routing M) (c : RouterChain M) (r : Nat) :
    Bool :=
  c.stopped || (cfg.stops && (c.ended r).isSome)

/- A router goes on to another statement. -/
def setRouter
    (c : RouterChain M) (r : Nat) (router : Router M) :
    RouterChain M :=
  { c with routers := Function.update c.routers r router }

/- What a router does with the message in its hands. -/
def pass
    (cfg : Routing M) (c : RouterChain M) (r : Nat) (m : M) :
    RouterChain M :=
  if cfg.express m then
    { c with expressed := c.expressed ++ [m] }
  else if (r : Int) < cfg.level m then
    { c with buffers := push c.buffers (r + 1) m }
  else if cfg.level m = r then
    { c with handed := push c.handed r m }
  else { c with dropped := c.dropped ++ [m] }

/-
  One message of the old buffer is moved or dropped, before
  the router after `r` starts.
-/
def drain
    (cfg : Routing M) (c : RouterChain M) (r left : Nat) :
    Option (RouterChain M) :=
  match c.buffers r with
  | [] => none
  | m :: rest =>
      let c :=
        { c with
          buffers := Function.update c.buffers r rest
          switch := .draining left }
      some
        (if ((r + 1 : Nat) : Int) ≤ cfg.level m then
          { c with buffers := push c.buffers (r + 1) m }
        else { c with dropped := c.dropped ++ [m] })

/- How many messages are in the old buffer. -/
def oldLength (c : RouterChain M) : Nat :=
  match c.rounds with
  | 0 => 0
  | r + 1 => (c.buffers r).length

/- One statement, if it can be run. -/
def exec (cfg : Routing M) (c : RouterChain M) :
    RouterAction → Option (RouterChain M)
| .next =>
    match c.switch with
    | .idle =>
        some { c with
          switch :=
            .draining
              (if cfg.drains then c.oldLength else 0) }
    | _ => none
| .drain =>
    match c.switch, c.rounds with
    | .draining (left + 1), r + 1 => c.drain cfg r left
    | _, _ => none
| .start =>
    match c.switch with
    | .draining 0 =>
        some { c.setRouter c.rounds .top with
          rounds := c.rounds + 1
          switch := .running }
    | _ => none
| .close =>
    match c.switch, c.rounds with
    | .running, r + 1 =>
        some { c with
          ended :=
            Function.update c.ended r (some c.arrived)
          switch := .idle }
    | _, _ => none
| .stop =>
    if cfg.halts then some { c with stopped := true }
    else none
| .check r =>
    match c.routers r with
    | .top =>
        some (c.setRouter r
          (if c.told cfg r then .returned else .select))
    | _ => none
| .quit r =>
    match c.routers r with
    | .select =>
        if c.told cfg r then some (c.setRouter r .returned)
        else none
    | _ => none
| .readInput r =>
    match c.routers r, c.input with
    | .select, m :: rest =>
        some { c.setRouter r (.holding m) with input := rest }
    | _, _ => none
| .readBuffer r =>
    match c.routers r, c.buffers r with
    | .select, m :: rest =>
        some { c.setRouter r (.holding m) with
          buffers := Function.update c.buffers r rest }
    | _, _ => none
| .forward r =>
    match c.routers r with
    | .holding m =>
        if cfg.panics r m then none
        else some ((c.pass cfg r m).setRouter r .top)
    | _ => none

/- The first round that has not ended. -/
def firstOpen (c : RouterChain M) : Nat :=
  match c.switch with
  | .running => c.rounds - 1
  | _ => c.rounds

end RouterChain

------------------------------------------------------------
-- What a Step Does
------------------------------------------------------------

namespace RouterChain

/- All steps, with what each has found. -/
inductive Step (cfg : Routing M) (c : RouterChain M) :
    RouterAction → RouterChain M → Prop
| next :
    c.switch = .idle →
      Step cfg c .next
        { c with
          switch :=
            .draining
              (if cfg.drains then c.oldLength else 0) }
| drainKeep (r left : Nat) (m : M) (rest : List M) :
    c.switch = .draining (left + 1) →
      c.rounds = r + 1 →
        c.buffers r = m :: rest →
          ((r + 1 : Nat) : Int) ≤ cfg.level m →
            Step cfg c .drain
              { c with
                buffers :=
                  push (Function.update c.buffers r rest)
                    (r + 1) m
                switch := .draining left }
| drainDrop (r left : Nat) (m : M) (rest : List M) :
    c.switch = .draining (left + 1) →
      c.rounds = r + 1 →
        c.buffers r = m :: rest →
          cfg.level m < ((r + 1 : Nat) : Int) →
            Step cfg c .drain
              { c with
                buffers := Function.update c.buffers r rest
                dropped := c.dropped ++ [m]
                switch := .draining left }
| start :
    c.switch = .draining 0 →
      Step cfg c .start
        { c.setRouter c.rounds .top with
          rounds := c.rounds + 1
          switch := .running }
| close (r : Nat) :
    c.switch = .running →
      c.rounds = r + 1 →
        Step cfg c .close
          { c with
            ended :=
              Function.update c.ended r (some c.arrived)
            switch := .idle }
| stop : Step cfg c .stop { c with stopped := true }
| check (r : Nat) :
    c.routers r = .top →
      Step cfg c (.check r)
        (c.setRouter r
          (if c.told cfg r then .returned else .select))
| quit (r : Nat) :
    c.routers r = .select →
      c.told cfg r = true →
        Step cfg c (.quit r) (c.setRouter r .returned)
| readInput (r : Nat) (m : M) (rest : List M) :
    c.routers r = .select →
      c.input = m :: rest →
        Step cfg c (.readInput r)
          { c.setRouter r (.holding m) with input := rest }
| readBuffer (r : Nat) (m : M) (rest : List M) :
    c.routers r = .select →
      c.buffers r = m :: rest →
        Step cfg c (.readBuffer r)
          { c.setRouter r (.holding m) with
            buffers := Function.update c.buffers r rest }
| forward (r : Nat) (m : M) :
    c.routers r = .holding m →
      cfg.panics r m = false →
        Step cfg c (.forward r)
          ((c.pass cfg r m).setRouter r .top)

/- Every statement does one of the steps. -/
theorem step_of_exec
    {cfg : Routing M} {c c' : RouterChain M}
    {a : RouterAction}
    (hExec : c.exec cfg a = some c') :
    Step cfg c a c' := by
  cases a with
  | next =>
      dsimp only [exec] at hExec
      split at hExec
      · rename_i hIdle
        cases hExec
        exact .next hIdle
      · cases hExec
  | drain =>
      dsimp only [exec] at hExec
      split at hExec
      · rename_i left r hDraining hRounds
        unfold drain at hExec
        split at hExec
        · cases hExec
        · rename_i m rest hBuffer
          dsimp only at hExec
          split at hExec
          · rename_i hLevel
            cases hExec
            exact .drainKeep r left m rest hDraining hRounds
              hBuffer hLevel
          · rename_i hLevel
            cases hExec
            exact .drainDrop r left m rest hDraining hRounds
              hBuffer (Int.not_le.mp hLevel)
      · cases hExec
  | start =>
      dsimp only [exec] at hExec
      split at hExec
      · rename_i hDraining
        cases hExec
        exact .start hDraining
      · cases hExec
  | close =>
      dsimp only [exec] at hExec
      split at hExec
      · rename_i r hRunning hRounds
        cases hExec
        exact .close r hRunning hRounds
      · cases hExec
  | stop =>
      rcases Option.ite_none_right_eq_some.mp hExec with
        ⟨_, hEq⟩
      cases hEq
      exact .stop
  | check r =>
      dsimp only [exec] at hExec
      split at hExec
      · rename_i hTop
        cases hExec
        exact .check r hTop
      · cases hExec
  | quit r =>
      dsimp only [exec] at hExec
      split at hExec
      · rename_i hSelect
        rcases Option.ite_none_right_eq_some.mp hExec with
          ⟨hTold, hEq⟩
        cases hEq
        exact .quit r hSelect hTold
      · cases hExec
  | readInput r =>
      dsimp only [exec] at hExec
      split at hExec
      · rename_i m rest hSelect hInput
        cases hExec
        exact .readInput r m rest hSelect hInput
      · cases hExec
  | readBuffer r =>
      dsimp only [exec] at hExec
      split at hExec
      · rename_i m rest hSelect hBuffer
        cases hExec
        exact .readBuffer r m rest hSelect hBuffer
      · cases hExec
  | forward r =>
      dsimp only [exec] at hExec
      split at hExec
      · rename_i m hHolding
        rcases Option.ite_none_left_eq_some.mp hExec with
          ⟨hPanics, hEq⟩
        cases hEq
        exact .forward r m hHolding
          (eq_false_of_ne_true hPanics)
      · cases hExec

end RouterChain

------------------------------------------------------------
-- Where Messages Are
------------------------------------------------------------

/- The places a message can be in. -/
inductive Place where
| input
| held (r : Nat)
| buffer (r : Nat)
| handed (r : Nat)
| expressed
| dropped
deriving DecidableEq, Repr

/- What a router has in its hands. -/
def Router.hand : Router M → List M
| .holding m => [m]
| _ => []

namespace RouterChain

/- What is at a place. -/
def contents (c : RouterChain M) : Place → List M
| .input => c.input
| .held r => (c.routers r).hand
| .buffer r => c.buffers r
| .handed r => c.handed r
| .expressed => c.expressed
| .dropped => c.dropped

/- The ways from one place to another. -/
inductive Route (cfg : Routing M) (c : RouterChain M) (m : M) :
    Place → Place → Prop
| takeInput (r : Nat) :
    c.routers r = .select → Route cfg c m .input (.held r)
| takeBuffer (r : Nat) :
    c.routers r = .select →
      Route cfg c m (.buffer r) (.held r)
| express (r : Nat) :
    cfg.express m = true →
      Route cfg c m (.held r) .expressed
| later (r : Nat) :
    cfg.express m = false →
      (r : Int) < cfg.level m →
        Route cfg c m (.held r) (.buffer (r + 1))
| hand (r : Nat) :
    cfg.express m = false →
      cfg.level m = r →
        cfg.panics r m = false →
          Route cfg c m (.held r) (.handed r)
| drop (r : Nat) :
    cfg.express m = false →
      cfg.level m < r →
        Route cfg c m (.held r) .dropped
| keep (r left : Nat) :
    c.switch = .draining (left + 1) →
      c.rounds = r + 1 →
        ((r + 1 : Nat) : Int) ≤ cfg.level m →
          Route cfg c m (.buffer r) (.buffer (r + 1))
| discard (r left : Nat) :
    c.switch = .draining (left + 1) →
      c.rounds = r + 1 →
        cfg.level m < ((r + 1 : Nat) : Int) →
          Route cfg c m (.buffer r) .dropped

/- A message that is moved comes to another place. -/
theorem Route.ne
    {cfg : Routing M} {c : RouterChain M} {m : M}
    {src dst : Place} (hRoute : Route cfg c m src dst) :
    src ≠ dst := by
  cases hRoute with
  | keep r => simp
  | _ => nofun

/- One message goes from one place to another. -/
structure Moved
    (c c' : RouterChain M) (m : M) (src dst : Place) :
    Prop where
  arrived : c'.arrived = c.arrived
  out : c.contents src = m :: c'.contents src
  into : c'.contents dst = c.contents dst ++ [m]
  other :
    ∀ place, place ≠ src → place ≠ dst →
      c'.contents place = c.contents place

/- What a step does to the messages. -/
inductive Flow (cfg : Routing M) (c c' : RouterChain M) : Prop
| still :
    c'.arrived = c.arrived →
      (∀ place, c'.contents place = c.contents place) →
        Flow cfg c c'
| moved (m : M) (src dst : Place) :
    Route cfg c m src dst →
      Moved c c' m src dst →
        Flow cfg c c'

/- A router that has nothing in its hands moves on. -/
theorem contents_setRouter
    {c : RouterChain M} {r : Nat} {router : Router M}
    (hBefore : (c.routers r).hand = [])
    (hAfter : router.hand = []) (place : Place) :
    (c.setRouter r router).contents place =
      c.contents place := by
  cases place with
  | held r' =>
      by_cases hEq : r' = r
      · subst hEq
        simp only [contents, setRouter, Function.update_self,
          hBefore, hAfter]
      · simp only [contents, setRouter,
          Function.update_of_ne hEq]
  | input | buffer | handed | expressed | dropped => rfl

/- Read a message into the hands of a router. -/
theorem moved_take
    {c c' : RouterChain M} {r : Nat} {m : M} {src : Place}
    (hSelect : c.routers r = .select)
    (hArrived : c'.arrived = c.arrived)
    (hOut : c.contents src = m :: c'.contents src)
    (hRouters :
      c'.routers = Function.update c.routers r (.holding m))
    (hOther :
      ∀ place, place ≠ src → (∀ r', place ≠ .held r') →
        c'.contents place = c.contents place) :
    Moved c c' m src (.held r) where
  arrived := hArrived
  out := hOut
  into := by
    simp only [contents, hRouters, Function.update_self,
      hSelect, Router.hand, List.nil_append]
  other := by
    intro place hNot hNotHeld
    cases place with
    | held r' =>
        have hEq : r' ≠ r := fun h => hNotHeld (h ▸ rfl)
        simp only [contents, hRouters,
          Function.update_of_ne hEq]
    | input | buffer | handed | expressed | dropped =>
        exact hOther _ hNot (by simp)

/- A router passes on what it has in its hands. -/
theorem moved_pass
    {c c' : RouterChain M} {r : Nat} {m : M} {dst : Place}
    (hHolding : c.routers r = .holding m)
    (hArrived : c'.arrived = c.arrived)
    (hRouters :
      c'.routers = Function.update c.routers r .top)
    (hInto : c'.contents dst = c.contents dst ++ [m])
    (hOther :
      ∀ place, place ≠ dst → (∀ r', place ≠ .held r') →
        c'.contents place = c.contents place) :
    Moved c c' m (.held r) dst where
  arrived := hArrived
  out := by
    simp only [contents, hRouters, Function.update_self,
      hHolding, Router.hand]
  into := hInto
  other := by
    intro place hNotHeld hNot
    cases place with
    | held r' =>
        have hEq : r' ≠ r := fun h => hNotHeld (h ▸ rfl)
        simp only [contents, hRouters,
          Function.update_of_ne hEq]
    | input | buffer | handed | expressed | dropped =>
        exact hOther _ hNot (by simp)

/- The four ways out of the hands of a router. -/
theorem flow_forward
    {cfg : Routing M} {c : RouterChain M} {r : Nat} {m : M}
    (hHolding : c.routers r = .holding m)
    (hPanics : cfg.panics r m = false) :
    Flow cfg c ((c.pass cfg r m).setRouter r .top) := by
  unfold pass
  split
  · rename_i hExpress
    refine
      .moved m _ _ (.express r hExpress)
        (moved_pass hHolding rfl rfl rfl ?_)
    intro place hNot hNotHeld
    cases place with
    | held r' => exact absurd rfl (hNotHeld r')
    | expressed => exact absurd rfl hNot
    | input | buffer | handed | dropped => rfl
  · rename_i hExpress
    have hSlow := eq_false_of_ne_true hExpress
    split
    · rename_i hLater
      refine
        .moved m _ _ (.later r hSlow hLater)
          (moved_pass hHolding rfl rfl ?_ ?_)
      · simp only [contents, setRouter, push,
          Function.update_self]
      · intro place hNot hNotHeld
        cases place with
        | held r' => exact absurd rfl (hNotHeld r')
        | buffer r' =>
            have hEq : r' ≠ r + 1 := fun h => hNot (h ▸ rfl)
            simp only [contents, setRouter, push,
              Function.update_of_ne hEq]
        | input | handed | expressed | dropped => rfl
    · rename_i hNotLater
      split
      · rename_i hSame
        refine
          .moved m _ _ (.hand r hSlow hSame hPanics)
            (moved_pass hHolding rfl rfl ?_ ?_)
        · simp only [contents, setRouter, push,
            Function.update_self]
        · intro place hNot hNotHeld
          cases place with
          | held r' => exact absurd rfl (hNotHeld r')
          | handed r' =>
              have hEq : r' ≠ r := fun h => hNot (h ▸ rfl)
              simp only [contents, setRouter, push,
                Function.update_of_ne hEq]
          | input | buffer | expressed | dropped => rfl
      · rename_i hNotSame
        refine
          .moved m _ _ (.drop r hSlow (by omega))
            (moved_pass hHolding rfl rfl rfl ?_)
        intro place hNot hNotHeld
        cases place with
        | held r' => exact absurd rfl (hNotHeld r')
        | dropped => exact absurd rfl hNot
        | input | buffer | handed | expressed => rfl

/- A step moves at most one message. -/
theorem flow_of_step
    {cfg : Routing M} {c c' : RouterChain M}
    {a : RouterAction}
    (hStep : Step cfg c a c')
    (hFresh : c.routers c.rounds = .absent) :
    Flow cfg c c' := by
  cases hStep with
  | next | close | stop => exact .still rfl fun _ => rfl
  | start hDraining =>
      refine .still rfl fun place => ?_
      exact
        @contents_setRouter _ c c.rounds .top
          (by rw [hFresh]; rfl) rfl place
  | check r hTop =>
      refine .still rfl fun place => ?_
      refine contents_setRouter (by rw [hTop]; rfl) ?_ place
      split <;> rfl
  | quit r hSelect hTold =>
      refine .still rfl fun place => ?_
      exact
        contents_setRouter (by rw [hSelect]; rfl) rfl place
  | readInput r m rest hSelect hInput =>
      refine
        .moved m _ _ (.takeInput r hSelect)
          (moved_take hSelect rfl hInput rfl ?_)
      intro place hNot hNotHeld
      cases place with
      | input => exact absurd rfl hNot
      | held r' => exact absurd rfl (hNotHeld r')
      | buffer | handed | expressed | dropped => rfl
  | readBuffer r m rest hSelect hBuffer =>
      refine
        .moved m _ _ (.takeBuffer r hSelect)
          (moved_take hSelect rfl ?_ rfl ?_)
      · simp only [contents, Function.update_self, hBuffer]
      · intro place hNot hNotHeld
        cases place with
        | held r' => exact absurd rfl (hNotHeld r')
        | buffer r' =>
            have hEq : r' ≠ r := fun h => hNot (h ▸ rfl)
            simp only [contents, Function.update_of_ne hEq]
        | input | handed | expressed | dropped => rfl
  | forward r m hHolding hPanics =>
      exact flow_forward hHolding hPanics
  | drainKeep r left m rest hDraining hRounds hBuffer hLevel =>
      have hNe : r ≠ r + 1 := (Nat.succ_ne_self r).symm
      refine
        .moved m (.buffer r) (.buffer (r + 1))
          (.keep r left hDraining hRounds hLevel)
          { arrived := rfl
            out := ?_
            into := ?_
            other := ?_ }
      · simp only [contents, push, Function.update_of_ne hNe,
          Function.update_self, hBuffer]
      · simp only [contents, push, Function.update_self,
          Function.update_of_ne (Nat.succ_ne_self r)]
      · intro place hNot hNot'
        cases place with
        | buffer r' =>
            have hEq : r' ≠ r := fun h => hNot (h ▸ rfl)
            have hEq' : r' ≠ r + 1 := fun h => hNot' (h ▸ rfl)
            simp only [contents, push,
              Function.update_of_ne hEq',
              Function.update_of_ne hEq]
        | input | held | handed | expressed | dropped => rfl
  | drainDrop r left m rest hDraining hRounds hBuffer hLevel =>
      refine
        .moved m (.buffer r) .dropped
          (.discard r left hDraining hRounds hLevel)
          { arrived := rfl
            out := ?_
            into := rfl
            other := ?_ }
      · simp only [contents, Function.update_self, hBuffer]
      · intro place hNot hNot'
        cases place with
        | dropped => exact absurd rfl hNot'
        | buffer r' =>
            have hEq : r' ≠ r := fun h => hNot (h ▸ rfl)
            simp only [contents, Function.update_of_ne hEq]
        | input | held | handed | expressed => rfl

/- Passing a message on touches nothing but its channels. -/
theorem pass_frame
    (cfg : Routing M) (c : RouterChain M) (r : Nat) (m : M) :
    (c.pass cfg r m).rounds = c.rounds ∧
      (c.pass cfg r m).switch = c.switch ∧
        (c.pass cfg r m).ended = c.ended ∧
          (c.pass cfg r m).routers = c.routers := by
  unfold pass
  split
  · exact ⟨rfl, rfl, rfl, rfl⟩
  · split
    · exact ⟨rfl, rfl, rfl, rfl⟩
    · split <;> exact ⟨rfl, rfl, rfl, rfl⟩

/-
  What a step does to the rounds: one starts, one ends, or
  both counts stay as they are.
-/
inductive Turn (c : RouterChain M) :
    RouterAction → RouterChain M → Prop
| same {a : RouterAction} {c' : RouterChain M} :
    c'.rounds = c.rounds →
      c'.firstOpen = c.firstOpen →
        c'.ended = c.ended →
          (c'.switch = .running ↔ c.switch = .running) →
            Turn c a c'
| start {c' : RouterChain M} :
    c'.rounds = c.rounds + 1 →
      c.firstOpen = c.rounds →
        c'.firstOpen = c.rounds →
          c'.ended = c.ended →
            Turn c .start c'
| close {c' : RouterChain M} (r : Nat) :
    c.switch = .running →
      c.rounds = r + 1 →
        c'.rounds = r + 1 →
          c.firstOpen = r →
            c'.firstOpen = r + 1 →
              c'.ended =
                Function.update c.ended r (some c.arrived) →
                c'.switch ≠ .running →
                  Turn c .close c'

/- What a step does to the rounds. -/
theorem turn_of_step
    {cfg : Routing M} {c c' : RouterChain M}
    {a : RouterAction} (hStep : Step cfg c a c') :
    Turn c a c' := by
  cases hStep with
  | stop | check | quit | readInput | readBuffer =>
      exact .same rfl rfl rfl Iff.rfl
  | next hIdle =>
      refine .same rfl ?_ rfl ?_
      · simp only [firstOpen, hIdle]
      · simp only [hIdle, reduceCtorEq]
  | drainKeep r left m rest hDraining
  | drainDrop r left m rest hDraining =>
      refine .same rfl ?_ rfl ?_
      · simp only [firstOpen, hDraining]
      · simp only [hDraining, reduceCtorEq]
  | start hDraining =>
      refine .start rfl ?_ rfl rfl
      simp only [firstOpen, hDraining]
  | close r hRunning hRounds =>
      refine
        .close r hRunning hRounds hRounds ?_ ?_ rfl (by simp)
      · simp only [firstOpen, hRunning, hRounds,
          Nat.add_sub_cancel]
      · simp only [firstOpen, hRounds]
  | forward r m =>
      rcases pass_frame cfg c r m with
        ⟨hRounds, hSwitch, hEnded, _⟩
      refine .same hRounds ?_ hEnded ?_
      · simp only [firstOpen, setRouter, hSwitch, hRounds]
      · simp only [setRouter, hSwitch]

/- Rounds are only added. -/
theorem Turn.rounds_le
    {c c' : RouterChain M} {a : RouterAction}
    (hTurn : Turn c a c') :
    c.rounds ≤ c'.rounds := by
  cases hTurn <;> omega

/- A round that has been closed is not opened again. -/
theorem Turn.firstOpen_le
    {c c' : RouterChain M} {a : RouterAction}
    (hTurn : Turn c a c') :
    c.firstOpen ≤ c'.firstOpen := by
  cases hTurn <;> omega

end RouterChain

------------------------------------------------------------
-- Places and Rounds
------------------------------------------------------------

namespace RouterChain

/- What is known of a message from the place it is in. -/
def PlaceOk
    (cfg : Routing M) (rounds firstOpen : Nat) (m : M) :
    Place → Prop
| .input => True
| .held r => r < rounds
| .buffer r =>
    cfg.express m = false ∧ (r : Int) ≤ cfg.level m ∧
      0 < r ∧ r ≤ rounds
| .handed r =>
    cfg.express m = false ∧ cfg.level m = r ∧ r < rounds ∧
      cfg.panics r m = false
| .expressed => cfg.express m = true
| .dropped =>
    cfg.express m = false ∧ cfg.level m < firstOpen

/-
  What is at a place belongs there, and no router runs
  before its round starts.
-/
structure Placed (cfg : Routing M) (c : RouterChain M) :
    Prop where
  absent : ∀ r, c.rounds ≤ r → c.routers r = .absent
  running : c.switch = .running → 0 < c.rounds
  ended : ∀ r, (c.ended r).isSome = true ↔ r < c.firstOpen
  place :
    ∀ place, ∀ m ∈ c.contents place,
      PlaceOk cfg c.rounds c.firstOpen m place

/- A message that belongs at a place goes on to. -/
theorem PlaceOk.mono
    {cfg : Routing M} {m : M} {place : Place}
    {rounds rounds' firstOpen firstOpen' : Nat}
    (hOk : PlaceOk cfg rounds firstOpen m place)
    (hRounds : rounds ≤ rounds')
    (hOpen : firstOpen ≤ firstOpen') :
    PlaceOk cfg rounds' firstOpen' m place := by
  cases place with
  | input => trivial
  | held r => exact Nat.lt_of_lt_of_le hOk hRounds
  | buffer r =>
      rcases hOk with ⟨hSlow, hLevel, hPos, hLe⟩
      exact ⟨hSlow, hLevel, hPos, Nat.le_trans hLe hRounds⟩
  | handed r =>
      rcases hOk with ⟨hSlow, hLevel, hLt, hPanics⟩
      exact
        ⟨hSlow, hLevel, Nat.lt_of_lt_of_le hLt hRounds,
          hPanics⟩
  | expressed => exact hOk
  | dropped =>
      rcases hOk with ⟨hSlow, hLevel⟩
      exact ⟨hSlow, by omega⟩

/- Only the last round is open. -/
theorem le_firstOpen_succ (c : RouterChain M) :
    c.rounds ≤ c.firstOpen + 1 := by
  unfold firstOpen
  split <;> omega

/- A way leads to a place that suits the message. -/
theorem Route.ok
    {cfg : Routing M} {c : RouterChain M}
    (hPlaced : Placed cfg c)
    {m : M} {src dst : Place}
    (hRoute : Route cfg c m src dst)
    (hSource : m ∈ c.contents src) :
    PlaceOk cfg c.rounds c.firstOpen m dst := by
  have hBefore := hPlaced.place src m hSource
  cases hRoute with
  | takeInput r hSelect | takeBuffer r hSelect =>
      by_contra hNot
      rw [hPlaced.absent r (Nat.le_of_not_lt hNot)] at hSelect
      cases hSelect
  | express r hExpress => exact hExpress
  | later r hSlow hLater =>
      have hLt : r < c.rounds := hBefore
      exact ⟨hSlow, by omega, Nat.succ_pos r, hLt⟩
  | hand r hSlow hSame hPanics =>
      exact ⟨hSlow, hSame, hBefore, hPanics⟩
  | drop r hSlow hEarlier =>
      have hLt : r < c.rounds := hBefore
      have hLe := c.le_firstOpen_succ
      exact ⟨hSlow, by omega⟩
  | keep r left hDraining hRounds hLevel =>
      rcases hBefore with ⟨hSlow, _, _, _⟩
      exact
        ⟨hSlow, hLevel, Nat.succ_pos r,
          Nat.le_of_eq hRounds.symm⟩
  | discard r left hDraining hRounds hLevel =>
      rcases hBefore with ⟨hSlow, _, _, _⟩
      refine ⟨hSlow, ?_⟩
      unfold firstOpen
      rw [hDraining, hRounds]
      exact hLevel

/- Every step keeps messages where they belong. -/
theorem Placed.step
    {cfg : Routing M} {c c' : RouterChain M}
    (hPlaced : Placed cfg c)
    {a : RouterAction} (hStep : Step cfg c a c') :
    Placed cfg c' := by
  have hTurn := turn_of_step hStep
  have hFlow :=
    flow_of_step hStep (hPlaced.absent _ (Nat.le_refl _))
  have hMono :
      ∀ place m,
        PlaceOk cfg c.rounds c.firstOpen m place →
          PlaceOk cfg c'.rounds c'.firstOpen m place :=
    fun place m hOk =>
      hOk.mono hTurn.rounds_le hTurn.firstOpen_le
  have hKeep :
      ∀ place, ∀ m ∈ c.contents place,
        PlaceOk cfg c'.rounds c'.firstOpen m place :=
    fun place m hm => hMono place m (hPlaced.place place m hm)
  refine
    { absent := ?_
      running := ?_
      ended := ?_
      place := ?_ }
  · intro r hr
    have hBefore :=
      hPlaced.absent r (Nat.le_trans hTurn.rounds_le hr)
    cases hStep with
    | start =>
        have hNe : r ≠ c.rounds := by
          intro h
          subst h
          exact Nat.not_succ_le_self _ hr
        simp only [setRouter, Function.update_of_ne hNe,
          hBefore]
    | check r' hRouter | quit r' hRouter
    | readInput r' _ _ hRouter | readBuffer r' _ _ hRouter =>
        have hNe : r ≠ r' := by
          rintro rfl
          rw [hBefore] at hRouter
          cases hRouter
        simp only [setRouter, Function.update_of_ne hNe,
          hBefore]
    | forward r' m hRouter =>
        have hNe : r ≠ r' := by
          rintro rfl
          rw [hBefore] at hRouter
          cases hRouter
        simp only [setRouter, Function.update_of_ne hNe,
          (pass_frame cfg c r' m).2.2.2, hBefore]
    | next | drainKeep | drainDrop | close | stop =>
        exact hBefore
  · intro hRunning
    cases hTurn with
    | same hRounds _ _ hSwitch =>
        rw [hRounds]
        exact hPlaced.running (hSwitch.mp hRunning)
    | start hRounds => omega
    | close r _ _ _ _ _ _ hNot =>
        exact absurd hRunning hNot
  · intro r
    cases hTurn with
    | same _ hOpen hEnded =>
        rw [hEnded, hOpen]
        exact hPlaced.ended r
    | start _ hOpen hOpen' hEnded =>
        rw [hEnded, hOpen', ← hOpen]
        exact hPlaced.ended r
    | close r' _ _ _ hOpen hOpen' hEnded =>
        rw [hEnded, hOpen']
        by_cases hEq : r = r'
        · subst hEq
          rw [Function.update_self]
          exact ⟨fun _ => Nat.lt_succ_self r, fun _ => rfl⟩
        · rw [Function.update_of_ne hEq, hPlaced.ended r,
            hOpen]
          omega
  · intro place m hm
    cases hFlow with
    | still _ hSame =>
        rw [hSame] at hm
        exact hKeep place m hm
    | moved m' src dst hRoute hMoved =>
        have hOut : m' ∈ c.contents src := by
          rw [hMoved.out]
          exact List.mem_cons_self
        by_cases hDst : place = dst
        · subst hDst
          rw [hMoved.into] at hm
          rcases List.mem_append.mp hm with h | h
          · exact hKeep place m h
          · rw [List.mem_singleton.mp h]
            exact hMono _ _ (hRoute.ok hPlaced hOut)
        · by_cases hSrc : place = src
          · subst hSrc
            refine hKeep place m ?_
            rw [hMoved.out]
            exact List.mem_cons_of_mem _ hm
          · rw [hMoved.other place hSrc hDst] at hm
            exact hKeep place m hm

/- An arrival only fills the channel. -/
theorem contents_arrive
    (c : RouterChain M) (m : M) {place : Place}
    (hNot : place ≠ .input) :
    (c.arrive m).contents place = c.contents place := by
  cases place with
  | input => exact absurd rfl hNot
  | held | buffer | handed | expressed | dropped => rfl

/- A message that comes belongs into the input. -/
theorem Placed.arrive
    {cfg : Routing M} {c : RouterChain M}
    (hPlaced : Placed cfg c) (m : M) :
    Placed cfg (c.arrive m) where
  absent := hPlaced.absent
  running := hPlaced.running
  ended := hPlaced.ended
  place := by
    intro place x hx
    by_cases hPlace : place = .input
    · subst hPlace
      trivial
    · rw [contents_arrive c m hPlace] at hx
      exact hPlaced.place place x hx

theorem placed_new (cfg : Routing M) :
    Placed cfg (new : RouterChain M) where
  absent := fun _ _ => rfl
  running := fun h => by cases h
  ended := fun r => by simp [new, firstOpen]
  place := fun place m hm => by cases place <;> cases hm

/- Nothing is taken out of what has been handed. -/
theorem Flow.handed_mono
    {cfg : Routing M} {c c' : RouterChain M}
    (hFlow : Flow cfg c c') {r : Nat} {m : M}
    (hMem : m ∈ c.handed r) : m ∈ c'.handed r := by
  have hAt : m ∈ c.contents (.handed r) := hMem
  change m ∈ c'.contents (.handed r)
  cases hFlow with
  | still _ hSame =>
      rw [hSame]
      exact hAt
  | moved x src dst hRoute hMoved =>
      by_cases hDst : Place.handed r = dst
      · rw [hDst, hMoved.into, ← hDst]
        exact List.mem_append_left _ hAt
      · have hSrc : Place.handed r ≠ src := by
          rintro rfl
          cases hRoute
        rw [hMoved.other _ hSrc hDst]
        exact hAt

/- What a router holds it held, or it has just read it. -/
theorem Step.hand_cases
    {cfg : Routing M} {c c' : RouterChain M}
    {a : RouterAction} (hStep : Step cfg c a c')
    {r : Nat} {m : M} (hMem : m ∈ (c'.routers r).hand) :
    m ∈ (c.routers r).hand ∨
      a = .readInput r ∧ m ∈ c.input ∨
        a = .readBuffer r ∧ m ∈ c.buffers r := by
  have hUpdate :
      ∀ r' router,
        (router : Router M).hand = [] →
          m ∈ ((c.setRouter r' router).routers r).hand →
            m ∈ (c.routers r).hand := by
    intro r' router hEmpty h
    by_cases hEq : r = r'
    · subst hEq
      simp only [setRouter, Function.update_self,
        hEmpty] at h
      cases h
    · simpa only [setRouter, Function.update_of_ne hEq]
        using h
  cases hStep with
  | next | drainKeep | drainDrop | close | stop =>
      exact .inl hMem
  | start => exact .inl (hUpdate _ _ rfl hMem)
  | check r' =>
      refine .inl (hUpdate r' _ ?_ hMem)
      split <;> rfl
  | quit r' => exact .inl (hUpdate r' _ rfl hMem)
  | readInput r' x rest _ hInput =>
      by_cases hEq : r = r'
      · subst hEq
        simp only [setRouter, Function.update_self,
          Router.hand] at hMem
        rw [List.mem_singleton.mp hMem, hInput]
        exact .inr (.inl ⟨rfl, List.mem_cons_self⟩)
      · simp only [setRouter,
          Function.update_of_ne hEq] at hMem
        exact .inl hMem
  | readBuffer r' x rest _ hBuffer =>
      by_cases hEq : r = r'
      · subst hEq
        simp only [setRouter, Function.update_self,
          Router.hand] at hMem
        rw [List.mem_singleton.mp hMem, hBuffer]
        exact .inr (.inr ⟨rfl, List.mem_cons_self⟩)
      · simp only [setRouter,
          Function.update_of_ne hEq] at hMem
        exact .inl hMem
  | forward r' x =>
      left
      refine hUpdate r' .top rfl ?_
      simpa only [setRouter, (pass_frame cfg c r' x).2.2.2]
        using hMem

/- What is in a buffer was there, or has just been put. -/
theorem Flow.buffer_cases
    {cfg : Routing M} {c c' : RouterChain M}
    (hFlow : Flow cfg c c') {r : Nat} {m : M}
    (hMem : m ∈ c'.buffers r) :
    m ∈ c.buffers r ∨
      ∃ r', r = r' + 1 ∧
        (m ∈ (c.routers r').hand ∧ cfg.express m = false ∨
          m ∈ c.buffers r' ∧ c.rounds = r' + 1 ∧
            ∃ left, c.switch = .draining (left + 1)) := by
  have hAt : m ∈ c'.contents (.buffer r) := hMem
  cases hFlow with
  | still _ hSame =>
      rw [hSame] at hAt
      exact .inl hAt
  | moved x src dst hRoute hMoved =>
      by_cases hDst : Place.buffer r = dst
      · subst hDst
        rw [hMoved.into] at hAt
        rcases List.mem_append.mp hAt with h | h
        · exact .inl h
        · rw [List.mem_singleton.mp h]
          have hOut : x ∈ c.contents src := by
            rw [hMoved.out]
            exact List.mem_cons_self
          cases hRoute with
          | later r' hSlow =>
              exact .inr ⟨r', rfl, .inl ⟨hOut, hSlow⟩⟩
          | keep r' left hDraining hRounds =>
              exact
                .inr
                  ⟨r', rfl,
                    .inr ⟨hOut, hRounds, left, hDraining⟩⟩
      · left
        by_cases hSrc : Place.buffer r = src
        · subst hSrc
          have hOut : m ∈ c.contents (.buffer r) := by
            rw [hMoved.out]
            exact List.mem_cons_of_mem _ hAt
          exact hOut
        · rw [hMoved.other _ hSrc hDst] at hAt
          exact hAt

end RouterChain

------------------------------------------------------------
-- Every Message Is in One Place
------------------------------------------------------------

namespace RouterChain

variable [DecidableEq M]

/- A message is once in one place, or has not arrived. -/
def Located (c : RouterChain M) : Prop :=
  ∀ m,
    (m ∈ c.arrived ∧ ∃ place, ∀ place',
        (c.contents place').count m =
          if place' = place then 1 else 0) ∨
      m ∉ c.arrived ∧ ∀ place, m ∉ c.contents place

/- What a move changes in the counts. -/
theorem Moved.count
    {c c' : RouterChain M} {m : M} {src dst : Place}
    (hMoved : Moved c c' m src dst) (hNe : src ≠ dst)
    (x : M) (place : Place) :
    (c'.contents place).count x +
        (if place = src ∧ x = m then 1 else 0) =
      (c.contents place).count x +
        if place = dst ∧ x = m then 1 else 0 := by
  by_cases hSrc : place = src
  · subst hSrc
    rw [hMoved.out, List.count_cons]
    by_cases hEq : x = m
    · subst hEq
      simp [hNe]
    · simp [hEq, Ne.symm hEq]
  · by_cases hDst : place = dst
    · subst hDst
      rw [hMoved.into, List.count_append,
        List.count_singleton]
      by_cases hEq : x = m
      · subst hEq
        simp [hSrc]
      · simp [hEq, Ne.symm hEq]
    · rw [hMoved.other place hSrc hDst]
      simp [hSrc, hDst]

/- A message comes that has not come before. -/
theorem Located.arrive
    {c : RouterChain M} {m : M}
    (hLocated : Located c) (hNew : m ∉ c.arrived) :
    Located (c.arrive m) := by
  intro x
  by_cases hEq : x = m
  · subst hEq
    refine
      .inl ⟨List.mem_append_right _ (List.mem_singleton_self x),
        .input, fun place => ?_⟩
    have hNone :
        ∀ place, (c.contents place).count x = 0 := by
      intro place
      rcases hLocated x with ⟨hOld, _⟩ | ⟨_, hNowhere⟩
      · exact absurd hOld hNew
      · exact List.count_eq_zero.mpr (hNowhere place)
    by_cases hPlace : place = .input
    · subst hPlace
      have hInput := hNone .input
      simp only [contents] at hInput
      simp [contents, RouterChain.arrive, hInput]
    · rw [contents_arrive c x hPlace, hNone, if_neg hPlace]
  · have hCount :
        ∀ place, ((c.arrive m).contents place).count x =
          (c.contents place).count x := by
      intro place
      by_cases hPlace : place = .input
      · subst hPlace
        simp [contents, RouterChain.arrive, Ne.symm hEq]
      · rw [contents_arrive c m hPlace]
    rcases hLocated x with ⟨hOld, place, hUnique⟩ |
        ⟨hOld, hNowhere⟩
    · refine
        .inl ⟨List.mem_append_left _ hOld, place, ?_⟩
      intro place'
      rw [hCount]
      exact hUnique place'
    · refine .inr ⟨?_, fun place h => ?_⟩
      · simp [RouterChain.arrive, hOld, hEq]
      · apply hNowhere place
        rw [← List.count_pos_iff, ← hCount]
        exact List.count_pos_iff.mpr h

/- A message that is moved is still at one place. -/
theorem Located.moved
    {c c' : RouterChain M} {m : M} {src dst : Place}
    (hLocated : Located c)
    (hMoved : Moved c c' m src dst) (hNe : src ≠ dst) :
    Located c' := by
  intro x
  have hCount := hMoved.count hNe x
  rw [hMoved.arrived]
  by_cases hEq : x = m
  · subst hEq
    have hOut : x ∈ c.contents src := by
      rw [hMoved.out]
      exact List.mem_cons_self
    rcases hLocated x with ⟨hOld, place, hUnique⟩ |
        ⟨_, hNowhere⟩
    · have hPlace : place = src := by
        by_contra hNot
        have hZero := hUnique src
        rw [if_neg (Ne.symm hNot)] at hZero
        exact List.count_eq_zero.mp hZero hOut
      subst hPlace
      refine .inl ⟨hOld, dst, fun place' => ?_⟩
      have hAt := hCount place'
      rw [hUnique place'] at hAt
      by_cases hDst : place' = dst
      · subst hDst
        simp [Ne.symm hNe] at hAt ⊢
        exact hAt
      · by_cases hSrc : place' = place
        · subst hSrc
          simp [hNe] at hAt ⊢
          exact hAt
        · simp [hSrc, hDst] at hAt ⊢
          exact hAt
    · exact absurd hOut (hNowhere src)
  · simp only [hEq, and_false, if_false,
      Nat.add_zero] at hCount
    rcases hLocated x with ⟨hOld, place, hUnique⟩ |
        ⟨hOld, hNowhere⟩
    · refine .inl ⟨hOld, place, fun place' => ?_⟩
      rw [hCount]
      exact hUnique place'
    · refine .inr ⟨hOld, fun place h => ?_⟩
      apply hNowhere place
      rw [← List.count_pos_iff, ← hCount]
      exact List.count_pos_iff.mpr h

/- Every step keeps each message at one place. -/
theorem Located.step
    {cfg : Routing M} {c c' : RouterChain M}
    (hLocated : Located c) (hFlow : Flow cfg c c') :
    Located c' := by
  cases hFlow with
  | still hArrived hSame =>
      intro m
      rw [hArrived]
      simp only [hSame]
      exact hLocated m
  | moved m src dst hRoute hMoved =>
      exact hLocated.moved hMoved hRoute.ne

/- No message is anywhere at the start. -/
theorem located_new : Located (new : RouterChain M) := by
  refine fun m => .inr ⟨List.not_mem_nil, fun place h => ?_⟩
  cases place <;> cases h

section Places

variable {c : RouterChain M} {m : M}

/- A message that has arrived is somewhere, and once. -/
theorem Located.exists_place
    (hLocated : Located c) (hMem : m ∈ c.arrived) :
    ∃ place, m ∈ c.contents place := by
  rcases hLocated m with ⟨_, place, hUnique⟩ | ⟨hNot, _⟩
  · refine ⟨place, List.count_pos_iff.mp ?_⟩
    rw [hUnique, if_pos rfl]
    exact Nat.one_pos
  · exact absurd hMem hNot

/- A message is not at two places. -/
theorem Located.unique
    (hLocated : Located c) (place place' : Place)
    (hMem : m ∈ c.contents place)
    (hMem' : m ∈ c.contents place') :
    place = place' := by
  rcases hLocated m with ⟨_, at_, hUnique⟩ | ⟨_, hNowhere⟩
  · have hAt :
        ∀ place, m ∈ c.contents place → place = at_ := by
      intro place h
      by_contra hNot
      have hZero := hUnique place
      rw [if_neg hNot] at hZero
      exact List.count_eq_zero.mp hZero h
    rw [hAt place hMem, hAt place' hMem']
  · exact absurd hMem (hNowhere place)

/- A message is not twice at one place. -/
theorem Located.count_le
    (hLocated : Located c) (place : Place) :
    (c.contents place).count m ≤ 1 := by
  rcases hLocated m with ⟨_, at_, hUnique⟩ | ⟨_, hNowhere⟩
  · rw [hUnique]
    split <;> omega
  · rw [List.count_eq_zero.mpr (hNowhere place)]
    exact Nat.zero_le 1

/- A message is once at the place where it is. -/
theorem Located.count_eq
    (hLocated : Located c) (place : Place)
    (hMem : m ∈ c.contents place) :
    (c.contents place).count m = 1 :=
  Nat.le_antisymm (hLocated.count_le place)
    (List.count_pos_iff.mpr hMem)

/- Nothing is anywhere that has not arrived. -/
theorem Located.arrived
    (hLocated : Located c) (place : Place)
    (hMem : m ∈ c.contents place) :
    m ∈ c.arrived := by
  rcases hLocated m with ⟨hOld, _⟩ | ⟨_, hNowhere⟩
  · exact hOld
  · exact absurd hMem (hNowhere place)

end Places

end RouterChain

------------------------------------------------------------
-- Numbered Messages
------------------------------------------------------------

/- A message with its number, which tells equal ones apart. -/
structure Numbered (M : Type*) where
  number : Nat
  msg : M
deriving DecidableEq

/- The routing of the messages themselves. -/
def Routing.numbered (cfg : Routing M) :
    Routing (Numbered M) where
  level m := cfg.level m.msg
  express m := cfg.express m.msg
  panics r m := cfg.panics r m.msg
  drains := cfg.drains
  stops := cfg.stops
  halts := cfg.halts

/- A message comes, or the routers take a step. -/
inductive ChainAction (M : Type*) where
| arrive (m : M)
| act (a : RouterAction)

namespace RouterChain

/- Messages are numbered in the order they come in. -/
def execNumbered
    (cfg : Routing M) (c : RouterChain (Numbered M)) :
    ChainAction M → Option (RouterChain (Numbered M))
| .arrive m => some (c.arrive ⟨c.arrived.length, m⟩)
| .act a => c.exec cfg.numbered a

/- The numbers are those of the messages before. -/
def Counted (c : RouterChain (Numbered M)) : Prop :=
  ∀ m ∈ c.arrived, m.number < c.arrived.length

/- The next number has not been used. -/
theorem Counted.not_mem
    {c : RouterChain (Numbered M)} (hCounted : Counted c)
    (m : M) :
    (⟨c.arrived.length, m⟩ : Numbered M) ∉ c.arrived :=
  fun h => Nat.lt_irrefl _ (hCounted _ h)

theorem Counted.arrive
    {c : RouterChain (Numbered M)} (hCounted : Counted c)
    (m : M) :
    Counted (c.arrive ⟨c.arrived.length, m⟩) := by
  intro x hx
  have hLength :
      (c.arrive ⟨c.arrived.length, m⟩).arrived.length =
        c.arrived.length + 1 :=
    List.length_append
  rw [hLength]
  rcases List.mem_append.mp hx with h | h
  · exact Nat.lt_succ_of_lt (hCounted x h)
  · rw [List.mem_singleton.mp h]
    exact Nat.lt_succ_self _

/- No step of the routers makes up a message. -/
theorem Flow.arrived
    {cfg : Routing M} {c c' : RouterChain M}
    (hFlow : Flow cfg c c') : c'.arrived = c.arrived := by
  cases hFlow with
  | still hArrived => exact hArrived
  | moved m src dst _ hMoved => exact hMoved.arrived

end RouterChain

/- The routers as a machine. -/
def chain (cfg : Routing M) :
    Machine (RouterChain (Numbered M)) (ChainAction M) where
  init := RouterChain.new
  exec := RouterChain.execNumbered cfg

namespace RouterChain

variable [DecidableEq M]

/- What holds of a chain in every run. -/
structure Chained
    (cfg : Routing M) (c : RouterChain (Numbered M)) :
    Prop where
  placed : Placed cfg.numbered c
  located : Located c
  counted : Counted c

theorem Chained.flow
    {cfg : Routing M} {c c' : RouterChain (Numbered M)}
    (hChained : Chained cfg c) {a : RouterAction}
    (hStep : Step cfg.numbered c a c') :
    Flow cfg.numbered c c' :=
  flow_of_step hStep
    (hChained.placed.absent _ (Nat.le_refl _))

/- Every step of the routers keeps the invariant. -/
theorem Chained.step
    {cfg : Routing M} {c c' : RouterChain (Numbered M)}
    (hChained : Chained cfg c) {a : RouterAction}
    (hStep : Step cfg.numbered c a c') :
    Chained cfg c' where
  placed := hChained.placed.step hStep
  located := hChained.located.step (hChained.flow hStep)
  counted := by
    intro m hm
    rw [(hChained.flow hStep).arrived] at hm ⊢
    exact hChained.counted m hm

/- An arrival keeps the invariant. -/
theorem Chained.arrive
    {cfg : Routing M} {c : RouterChain (Numbered M)}
    (hChained : Chained cfg c) (m : M) :
    Chained cfg (c.arrive ⟨c.arrived.length, m⟩) where
  placed := hChained.placed.arrive _
  located :=
    hChained.located.arrive (hChained.counted.not_mem m)
  counted := hChained.counted.arrive m

theorem chained_new (cfg : Routing M) :
    Chained cfg (new : RouterChain (Numbered M)) where
  placed := placed_new _
  located := located_new
  counted := fun m hm => by cases hm

/- Every action keeps the invariant. -/
theorem Chained.exec
    {cfg : Routing M} {c c' : RouterChain (Numbered M)}
    (hChained : Chained cfg c) {a : ChainAction M}
    (hExec : c.execNumbered cfg a = some c') :
    Chained cfg c' := by
  cases a with
  | arrive m =>
      cases hExec
      exact hChained.arrive m
  | act a => exact hChained.step (step_of_exec hExec)

/- In every run of a chain. -/
theorem chained
    {cfg : Routing M} {c : RouterChain (Numbered M)}
    {ok : RouterChain (Numbered M) → ChainAction M → Prop}
    (hReach : (chain cfg).ReachableBy ok c) :
    Chained cfg c :=
  Machine.ReachableBy.invariant (Chained cfg)
    (chained_new cfg)
    (fun _ _ _ _ hChained _ hExec => hChained.exec hExec)
    hReach

end RouterChain

end Protocol
