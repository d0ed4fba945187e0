import Jumbo.Lib.RouterChain
import Mathlib.Algebra.BigOperators.Group.Finset.Piecewise
import Mathlib.Algebra.Order.BigOperators.Group.Finset

/-
  Routers that are not told to return come to rest, after a
  number of steps that is known in advance.

  Main declarations:
    * `RouterChain.Quiet`
    * `RouterChain.weight`
    * `RouterChain.quiet_of_stuck`
    * `RouterChain.length_le_weight`
-/

------------------------------------------------------------
-- Routers at Work
------------------------------------------------------------

namespace Protocol

/- The steps that the routers take. -/
def RouterAction.isRouter : RouterAction → Bool
| .check _ | .quit _ | .readInput _ | .readBuffer _
| .forward _ => true
| _ => false

variable {M : Type*}

namespace RouterChain

/- All routers wait, and nothing is there for them. -/
structure Quiet (c : RouterChain M) : Prop where
  input : c.input = []
  select : ∀ r < c.rounds, c.routers r = .select
  buffers : ∀ r < c.rounds, c.buffers r = []

/- Routers are there from their start until they are told. -/
def Alive (cfg : Routing M) (c : RouterChain M) : Prop :=
  ∀ r < c.rounds,
    c.routers r ≠ .absent ∧
      (c.routers r = .returned → c.told cfg r = true)

/- Handing a message on stops no router. -/
theorem pass_stopped
    (cfg : Routing M) (c : RouterChain M) (r : Nat) (m : M) :
    (c.pass cfg r m).stopped = c.stopped := by
  unfold pass
  split
  · rfl
  · split
    · rfl
    · split <;> rfl

section Step

variable {cfg : Routing M} {c c' : RouterChain M}
variable {a : RouterAction}

/- Routers do not stop each other. -/
theorem Step.stopped_eq
    (hStep : Step cfg c a c') (hRouter : a.isRouter = true) :
    c'.stopped = c.stopped := by
  cases hStep with
  | next | drainKeep | drainDrop | start | close | stop =>
      cases hRouter
  | check | quit | readInput | readBuffer => rfl
  | forward r m =>
      simp only [setRouter, pass_stopped]

/- A router that has been told to end stays so. -/
theorem Step.told_mono
    (hPlaced : Placed cfg c) (hStep : Step cfg c a c')
    {r : Nat} (hTold : c.told cfg r = true) :
    c'.told cfg r = true := by
  have hTurn := turn_of_step hStep
  have hPlaced' := hPlaced.step hStep
  have hStopped : c.stopped = true → c'.stopped = true := by
    intro h
    cases hStep with
    | stop => rfl
    | forward r m =>
        simp only [setRouter, pass_stopped]
        exact h
    | _ => exact h
  have hEnded :
      (c.ended r).isSome = true →
        (c'.ended r).isSome = true := by
    intro h
    rw [hPlaced'.ended r]
    exact
      Nat.lt_of_lt_of_le ((hPlaced.ended r).mp h)
        hTurn.firstOpen_le
  unfold told at hTold ⊢
  rw [Bool.or_eq_true, Bool.and_eq_true] at hTold ⊢
  exact hTold.imp hStopped (And.imp_right hEnded)

/- No step ends a router that has not been told to. -/
theorem Alive.step
    (hPlaced : Placed cfg c) (hAlive : Alive cfg c)
    (hStep : Step cfg c a c') :
    Alive cfg c' := by
  intro r hr
  have hTold : c.told cfg r = true → c'.told cfg r = true :=
    hStep.told_mono hPlaced
  -- a router that was there before and has not moved
  have hSame :
      r < c.rounds → c'.routers r = c.routers r →
        c'.routers r ≠ .absent ∧
          (c'.routers r = .returned →
            c'.told cfg r = true) := by
    intro hLt hEq
    rw [hEq]
    exact ⟨(hAlive r hLt).1, fun h => hTold ((hAlive r hLt).2 h)⟩
  cases hStep with
  | next | drainKeep | drainDrop | close | stop =>
      exact hSame hr rfl
  | start hDraining =>
      by_cases hEq : r = c.rounds
      · subst hEq
        simp only [setRouter, Function.update_self]
        exact ⟨by simp, fun h => by cases h⟩
      · refine hSame (by simp only at hr; omega) ?_
        simp only [setRouter, Function.update_of_ne hEq]
  | check r' hTop =>
      by_cases hEq : r = r'
      · subst hEq
        simp only [setRouter, Function.update_self]
        constructor
        · split <;> simp
        · intro h
          split at h
          · rename_i hYes
            exact hTold hYes
          · cases h
      · refine hSame hr ?_
        simp only [setRouter, Function.update_of_ne hEq]
  | quit r' hSelect hQuit =>
      by_cases hEq : r = r'
      · subst hEq
        simp only [setRouter, Function.update_self]
        exact ⟨by simp, fun _ => hTold hQuit⟩
      · refine hSame hr ?_
        simp only [setRouter, Function.update_of_ne hEq]
  | readInput r' m rest | readBuffer r' m rest =>
      by_cases hEq : r = r'
      · subst hEq
        simp only [setRouter, Function.update_self]
        exact ⟨by simp, fun h => by cases h⟩
      · refine hSame hr ?_
        simp only [setRouter, Function.update_of_ne hEq]
  | forward r' m =>
      have hFrame := pass_frame cfg c r' m
      have hLt : r < c.rounds := by
        simp only [setRouter, hFrame.1] at hr
        exact hr
      by_cases hEq : r = r'
      · subst hEq
        simp only [setRouter, Function.update_self]
        exact ⟨by simp, fun h => by cases h⟩
      · refine hSame hLt ?_
        simp only [setRouter, Function.update_of_ne hEq,
          hFrame.2.2.2]

theorem alive_new : Alive cfg (new : RouterChain M) :=
  fun r hr => absurd hr (Nat.not_lt_zero r)

/-
  Routers that cannot take a step are at rest, unless one
  of them is told to return or panics.
-/
theorem quiet_of_stuck
    (hAlive : Alive cfg c)
    (hTold : ∀ r, c.told cfg r = false)
    (hPanics :
      ∀ r m, c.routers r = .holding m →
        cfg.panics r m = false)
    (hPos : 0 < c.rounds)
    (hStuck :
      ∀ a, a.isRouter = true → c.exec cfg a = none) :
    Quiet c := by
  have hSelect : ∀ r < c.rounds, c.routers r = .select := by
    intro r hr
    cases hRouter : c.routers r with
    | absent => exact absurd hRouter (hAlive r hr).1
    | top =>
        have hNone := hStuck (.check r) rfl
        simp only [exec, hRouter] at hNone
        cases hNone
    | select => rfl
    | holding m =>
        have hNone := hStuck (.forward r) rfl
        simp only [exec, hRouter, hPanics r m hRouter,
          Bool.false_eq_true, if_false] at hNone
        cases hNone
    | returned =>
        have hYes := (hAlive r hr).2 hRouter
        rw [hTold r] at hYes
        cases hYes
  refine ⟨?_, hSelect, ?_⟩
  · cases hInput : c.input with
    | nil => rfl
    | cons m rest =>
        have hNone := hStuck (.readInput 0) rfl
        simp only [exec, hSelect 0 hPos, hInput] at hNone
        cases hNone
  · intro r hr
    cases hBuffer : c.buffers r with
    | nil => rfl
    | cons m rest =>
        have hNone := hStuck (.readBuffer r) rfl
        simp only [exec, hSelect r hr, hBuffer] at hNone
        cases hNone

end Step

end RouterChain

end Protocol

------------------------------------------------------------
-- Steps Left
------------------------------------------------------------

namespace Protocol

open Finset

variable {M : Type*}

namespace RouterChain

/- What a router may still do until it waits again. -/
def Router.load (rest : Nat) : Router M → Nat
| .holding _ => 3 * rest - 1
| .top => 1
| _ => 0

/- The steps left for what is at a router and before it. -/
def stageWeight (c : RouterChain M) (r : Nat) : Nat :=
  (c.buffers r).length * (3 * (c.rounds - r)) +
    Router.load (c.rounds - r) (c.routers r)

/- A bound on the steps that the routers still take. -/
def weight (c : RouterChain M) : Nat :=
  c.input.length * (3 * c.rounds + 1) +
    ∑ r ∈ range c.rounds, c.stageWeight r

section Step

variable {cfg : Routing M} {c c' : RouterChain M}
variable {a : RouterAction}

/- A change at one router only. -/
theorem weight_lt_of_stage
    {r : Nat} (hRounds : c'.rounds = c.rounds)
    (hInput : c'.input = c.input)
    (hLt : r < c.rounds)
    (hOther :
      ∀ r', r' ≠ r → c'.stageWeight r' = c.stageWeight r')
    (hLess : c'.stageWeight r < c.stageWeight r) :
    c'.weight < c.weight := by
  unfold weight
  rw [hRounds, hInput]
  refine Nat.add_lt_add_left ?_ _
  refine
    sum_lt_sum (fun r' _ => ?_) ⟨r, mem_range.mpr hLt, hLess⟩
  by_cases hEq : r' = r
  · subst hEq
    exact Nat.le_of_lt hLess
  · exact Nat.le_of_eq (hOther r' hEq)

/- A message that leaves a router for the next buffer. -/
theorem weight_lt_of_later
    {r : Nat} {m : M} (hLt : r < c.rounds)
    (hHolding : c.routers r = .holding m) :
    ({ c with
        buffers := push c.buffers (r + 1) m }.setRouter r
      .top).weight < c.weight := by
  have hNe : r ≠ r + 1 := (Nat.succ_ne_self r).symm
  unfold weight
  dsimp only [setRouter]
  refine Nat.add_lt_add_left ?_ _
  -- the router gives up more than the buffer takes
  have hStage :
      ∀ i ∈ range c.rounds,
        stageWeight
            { c with
              buffers := push c.buffers (r + 1) m
              routers := Function.update c.routers r .top } i +
            (if i = r then 3 * (c.rounds - r) - 2 else 0) =
          c.stageWeight i +
            if i = r + 1 then 3 * (c.rounds - (r + 1))
            else 0 := by
    intro i _
    by_cases hHere : i = r
    · subst hHere
      simp only [stageWeight, push, Function.update_of_ne hNe,
        Function.update_self, hHolding, Router.load, if_true,
        hNe, if_false]
      omega
    · by_cases hNext : i = r + 1
      · subst hNext
        simp only [stageWeight, push, Function.update_self,
          Function.update_of_ne hHere, hHere, if_false,
          if_true, List.length_append, List.length_singleton]
        rw [Nat.add_mul, Nat.one_mul]
        omega
      · simp only [stageWeight, push, Function.update_of_ne,
          ne_eq, hNext, hHere, not_false_eq_true, if_false]
  have hSum := sum_congr rfl hStage
  rw [sum_add_distrib, sum_add_distrib, sum_ite_eq',
    sum_ite_eq', if_pos (mem_range.mpr hLt)] at hSum
  split at hSum <;> omega

/- Every step of a router that is not told takes some away. -/
theorem weight_lt
    (hPlaced : Placed cfg c)
    (hTold : ∀ r, c.told cfg r = false)
    (hRouter : a.isRouter = true)
    (hStep : Step cfg c a c') :
    c'.weight < c.weight := by
  have hThere :
      ∀ r router, c.routers r = router →
        router ≠ .absent → r < c.rounds := by
    intro r router hEq hNot
    by_contra hGe
    rw [← hEq, hPlaced.absent r (Nat.le_of_not_lt hGe)] at hNot
    exact hNot rfl
  cases hStep with
  | next | drainKeep | drainDrop | start | close | stop =>
      cases hRouter
  | check r hTop =>
      have hLt := hThere r _ hTop (by simp)
      refine weight_lt_of_stage rfl rfl hLt ?_ ?_
      · intro r' hNe
        simp only [stageWeight, setRouter,
          Function.update_of_ne hNe]
      · simp only [stageWeight, setRouter,
          Function.update_self, hTop, hTold,
          Bool.false_eq_true, if_false, Router.load]
        omega
  | quit r hSelect hYes =>
      rw [hTold r] at hYes
      cases hYes
  | readInput r m rest hSelect hInput =>
      have hLt := hThere r _ hSelect (by simp)
      unfold weight
      dsimp only [setRouter]
      have hStage :
          ∀ i ∈ range c.rounds,
            stageWeight
                { c with
                  input := rest
                  routers :=
                    Function.update c.routers r
                      (.holding m) } i =
              c.stageWeight i +
                if i = r then 3 * (c.rounds - r) - 1
                else 0 := by
        intro i _
        by_cases hHere : i = r
        · subst hHere
          simp only [stageWeight, Function.update_self,
            hSelect, Router.load, if_true, Nat.add_zero]
        · simp only [stageWeight, Function.update_of_ne hHere,
            hHere, if_false, Nat.add_zero]
      rw [sum_congr rfl hStage, sum_add_distrib, sum_ite_eq',
        if_pos (mem_range.mpr hLt), hInput, List.length_cons,
        Nat.add_mul, Nat.one_mul]
      omega
  | readBuffer r m rest hSelect hBuffer =>
      have hLt := hThere r _ hSelect (by simp)
      refine weight_lt_of_stage rfl rfl hLt ?_ ?_
      · intro r' hNe
        simp only [stageWeight, setRouter,
          Function.update_of_ne hNe]
      · simp only [stageWeight, setRouter,
          Function.update_self, hSelect, hBuffer, Router.load,
          List.length_cons]
        rw [Nat.add_mul, Nat.one_mul]
        omega
  | forward r m hHolding =>
      have hLt := hThere r _ hHolding (by simp)
      unfold pass
      split
      · refine weight_lt_of_stage rfl rfl hLt ?_ ?_
        · intro r' hNe
          simp only [stageWeight, setRouter,
            Function.update_of_ne hNe]
        · simp only [stageWeight, setRouter,
            Function.update_self, hHolding, Router.load]
          omega
      · split
        · exact weight_lt_of_later hLt hHolding
        · have hLess :
              ∀ c' : RouterChain M, c'.rounds = c.rounds →
                c'.input = c.input →
                  c'.buffers = c.buffers →
                    c'.routers =
                      Function.update c.routers r .top →
                      c'.weight < c.weight := by
            intro c' hRounds hInput hBuffers hRouters
            refine
              weight_lt_of_stage hRounds hInput hLt ?_ ?_
            · intro r' hNe
              simp only [stageWeight, hRounds, hBuffers,
                hRouters, Function.update_of_ne hNe]
            · simp only [stageWeight, hRounds, hBuffers,
                hRouters, Function.update_self, hHolding,
                Router.load]
              omega
          split <;> exact hLess _ rfl rfl rfl rfl

end Step

/- The routers take the steps of a list. -/
def steps (cfg : Routing M) (c : RouterChain M) :
    List RouterAction → Option (RouterChain M)
| [] => some c
| a :: as => (c.exec cfg a).bind fun c => steps cfg c as

/- They come to rest after so many steps. -/
theorem length_le_weight
    {cfg : Routing M} {c c' : RouterChain M}
    (hPlaced : Placed cfg c)
    (hStops : cfg.stops = false) (hRuns : c.stopped = false)
    {as : List RouterAction}
    (hRouter : ∀ a ∈ as, a.isRouter = true)
    (hSteps : c.steps cfg as = some c') :
    as.length ≤ c.weight := by
  induction as generalizing c with
  | nil => exact Nat.zero_le _
  | cons a as ih =>
      rcases Option.bind_eq_some_iff.mp hSteps with
        ⟨c₁, hExec, hRest⟩
      have hStep := step_of_exec hExec
      have hFirst := hRouter a List.mem_cons_self
      have hTold : ∀ r, c.told cfg r = false := by
        intro r
        rw [told, hRuns, hStops]
        rfl
      have hLess := weight_lt hPlaced hTold hFirst hStep
      have hRuns' : c₁.stopped = false := by
        rw [hStep.stopped_eq hFirst, hRuns]
      have hTail :=
        ih (hPlaced.step hStep) hRuns'
          (fun a ha => hRouter a (List.mem_cons_of_mem _ ha))
          hRest
      rw [List.length_cons]
      omega

/- In every run of a chain. -/
theorem alive
    [DecidableEq M] {cfg : Routing M}
    {c : RouterChain (Numbered M)}
    {ok : RouterChain (Numbered M) → ChainAction M → Prop}
    (hReach : (chain cfg).ReachableBy ok c) :
    Alive cfg.numbered c := by
  refine Machine.ReachableBy.invariant (Alive cfg.numbered)
    alive_new ?_ hReach
  intro c a c' hReach hAlive _ hExec
  cases a with
  | arrive m =>
      cases hExec
      exact hAlive
  | act a =>
      exact
        hAlive.step (chained hReach).placed
          (step_of_exec hExec)

end RouterChain

end Protocol
