import Jumbo.Lib.RouterChain

/-
  What a chain of routers loses, and under what condition on
  its steps nothing is lost.

  Main declarations:
    * `RouterChain.Routed`
    * `RouterChain.losesNothing`
    * `RouterChain.Kept`
-/

------------------------------------------------------------
-- Routers that Leave their Buffer Behind
------------------------------------------------------------

namespace Protocol

variable {M : Type*}

namespace RouterChain

/-
  When a round may end: none of its messages is under way,
  and none of a later one is where only its router or those
  before it would find it.
-/
def settled (cfg : Routing M) (c : RouterChain M) : Bool :=
  (c.input ++ (c.routers (c.rounds - 1)).hand).all
      (fun m =>
        cfg.express m ||
          decide (cfg.level m ≠ (c.rounds - 1 : Nat))) &&
    (List.range (c.rounds - 1)).all (fun r =>
      (c.routers r).hand.all fun m =>
        cfg.express m ||
          decide (cfg.level m < (c.rounds - 1 : Nat))) &&
      (List.range c.rounds).all (fun r =>
        (c.buffers r).all fun m =>
          decide (cfg.level m < (c.rounds - 1 : Nat)))

/-
  The condition on the steps: a round ends when it is
  settled, and when the round after its own has ended a
  router takes no message of a round to come.
-/
def losesNothing
    (cfg : Routing M) (c : RouterChain M) :
    RouterAction → Bool
| .close => c.settled cfg
| .readInput r =>
    (c.ended (r + 1)).isNone ||
      c.input.head?.all fun m =>
        cfg.express m || decide (cfg.level m < c.firstOpen)
| _ => true

/- A message is where a router will take it further. -/
def Underway (c : RouterChain M) (m : M) : Prop :=
  m ∈ c.input ∨
    (∃ r, c.firstOpen ≤ r + 1 ∧ m ∈ (c.routers r).hand) ∨
      ∃ r, c.firstOpen ≤ r ∧ m ∈ c.buffers r

/-
  Every message is handed once and to its own round: those
  that had arrived when their round ended have been handed,
  and those whose round has not ended are underway.
-/
structure Routed
    [DecidableEq M] (cfg : Routing M) (c : RouterChain M) :
    Prop where
  once : ∀ r m, (c.handed r).count m ≤ 1
  own : ∀ r, ∀ m ∈ c.handed r, cfg.level m = r
  ended :
    ∀ (r : Nat) l, c.ended r = some l → ∀ m ∈ l,
      cfg.express m = false → cfg.level m = r →
        (c.handed r).count m = 1
  underway :
    ∀ m ∈ c.arrived, cfg.express m = false →
      (c.firstOpen : Int) ≤ cfg.level m →
        (∃ r, (c.handed r).count m = 1) ∨ Underway c m

/- The invariant behind it. -/
structure Kept (cfg : Routing M) (c : RouterChain M) :
    Prop where
  draining : ∀ left, c.switch = .draining left → left = 0
  held :
    ∀ r, ∀ m ∈ (c.routers r).hand,
      cfg.express m = false →
        (c.firstOpen : Int) ≤ cfg.level m →
          c.firstOpen ≤ r + 1
  buffers :
    ∀ r, ∀ m ∈ c.buffers r,
      (c.firstOpen : Int) ≤ cfg.level m →
        c.firstOpen ≤ r
  ended :
    ∀ (r : Nat) l, c.ended r = some l → ∀ m ∈ l,
      cfg.express m = false → cfg.level m = r →
        m ∈ c.handed r

section Settled

variable {cfg : Routing M} {c c' : RouterChain M}

/- A round is settled if no message of it is on its way. -/
theorem settled_iff
    {r : Nat} (hRounds : c.rounds = r + 1) :
    c.settled cfg = true ↔
      (∀ m ∈ c.input ++ (c.routers r).hand,
          cfg.express m = true ∨ cfg.level m ≠ r) ∧
        (∀ r' < r, ∀ m ∈ (c.routers r').hand,
          cfg.express m = true ∨ cfg.level m < r) ∧
          ∀ r' ≤ r, ∀ m ∈ c.buffers r', cfg.level m < r := by
  unfold settled
  rw [hRounds, Nat.add_sub_cancel]
  simp only [Bool.and_eq_true, Bool.or_eq_true,
    List.all_eq_true, decide_eq_true_eq, List.mem_range,
    Nat.lt_succ_iff, and_assoc]

/- A settled round has been handed what had come for it. -/
theorem handed_of_settled
    [DecidableEq M]
    (hPlaced : Placed cfg c) (hLocated : Located c)
    {r : Nat} (hRunning : c.switch = .running)
    (hRounds : c.rounds = r + 1)
    (hSettled : c.settled cfg = true)
    {m : M} (hMem : m ∈ c.arrived)
    (hSlow : cfg.express m = false)
    (hLevel : cfg.level m = r) :
    m ∈ c.handed r := by
  rcases (settled_iff hRounds).mp hSettled with
    ⟨hNear, hHeld, hBuffers⟩
  rcases hLocated.exists_place hMem with ⟨place, hPlace⟩
  have hOk := hPlaced.place place m hPlace
  cases place with
  | input =>
      rcases hNear m (List.mem_append_left _ hPlace) with
        hExpress | hNot
      · rw [hSlow] at hExpress
        cases hExpress
      · exact absurd hLevel hNot
  | held r' =>
      have hLt : r' < c.rounds := hOk
      rcases Nat.lt_or_eq_of_le
          (Nat.le_of_lt_succ (hRounds ▸ hLt)) with hOld | rfl
      · rcases hHeld r' hOld m hPlace with hExpress | hLess
        · rw [hSlow] at hExpress
          cases hExpress
        · omega
      · rcases hNear m (List.mem_append_right _ hPlace) with
          hExpress | hNot
        · rw [hSlow] at hExpress
          cases hExpress
        · exact absurd hLevel hNot
  | buffer r' =>
      rcases hOk with ⟨_, hLe, _, _⟩
      exact absurd (hBuffers r' (by omega) m hPlace)
        (by omega)
  | handed r' =>
      rcases hOk with ⟨_, hSame, _⟩
      have hEq : r' = r := by omega
      rw [← hEq]
      exact hPlace
  | expressed =>
      have hExpress : cfg.express m = true := hOk
      rw [hSlow] at hExpress
      cases hExpress
  | dropped =>
      rcases hOk with ⟨_, hLt⟩
      have hOpen : c.firstOpen = r := by
        simp only [firstOpen, hRunning, hRounds,
          Nat.add_sub_cancel]
      omega

/- What a router reads under the condition it may hold. -/
theorem Step.readInput_open
    (hPlaced : Placed cfg c) {r : Nat}
    (hStep : Step cfg c (.readInput r) c')
    (hOk : c.losesNothing cfg (.readInput r) = true)
    {m : M} (hMem : m ∈ (c'.routers r).hand)
    (hSlow : cfg.express m = false)
    (hLevel : (c.firstOpen : Int) ≤ cfg.level m) :
    c.firstOpen ≤ r + 1 := by
  cases hStep with
  | readInput _ x rest hSelect hInput =>
      simp only [setRouter, Function.update_self,
        Router.hand] at hMem
      rw [List.mem_singleton.mp hMem] at hSlow hLevel
      unfold losesNothing at hOk
      simp only [hInput, List.head?_cons, Option.all_some,
        hSlow, Bool.false_or, Bool.or_eq_true,
        decide_eq_true_eq] at hOk
      rcases hOk with hNone | hLow
      · by_contra hNot
        have hEnded :=
          (hPlaced.ended (r + 1)).mpr
            (Nat.lt_of_not_le hNot)
        rw [Option.isNone_iff_eq_none.mp hNone] at hEnded
        cases hEnded
      · omega

/- A step that loses nothing keeps what is still needed. -/
theorem Kept.step
    [DecidableEq M]
    (hLeaves : cfg.drains = false)
    (hPlaced : Placed cfg c) (hLocated : Located c)
    (hKept : Kept cfg c)
    {a : RouterAction} (hStep : Step cfg c a c')
    (hFlow : Flow cfg c c')
    (hOk : c.losesNothing cfg a = true) :
    Kept cfg c' := by
  have hTurn := turn_of_step hStep
  have hHeld :
      ∀ r, ∀ m ∈ (c'.routers r).hand,
        cfg.express m = false →
          (c.firstOpen : Int) ≤ cfg.level m →
            c.firstOpen ≤ r + 1 := by
    intro r m hMem hSlow hLevel
    rcases hStep.hand_cases hMem with
      h | ⟨rfl, h⟩ | ⟨rfl, h⟩
    · exact hKept.held r m h hSlow hLevel
    · exact hStep.readInput_open hPlaced hOk hMem hSlow hLevel
    · have hLe := hKept.buffers r m h hLevel
      omega
  have hBuffers :
      ∀ r, ∀ m ∈ c'.buffers r,
        (c.firstOpen : Int) ≤ cfg.level m →
          c.firstOpen ≤ r := by
    intro r m hMem hLevel
    rcases hFlow.buffer_cases hMem with
      h | ⟨r', rfl, ⟨h, hSlow⟩ | ⟨_, _, left, hDraining⟩⟩
    · exact hKept.buffers r m h hLevel
    · exact hKept.held r' m h hSlow hLevel
    · cases hKept.draining _ hDraining
  have hDraining :
      ∀ left, c'.switch = .draining left → left = 0 := by
    intro left hLeft
    cases hStep with
    | next hIdle =>
        simp only [hLeaves, Bool.false_eq_true,
          if_false] at hLeft
        injection hLeft with hLeft
        exact hLeft.symm
    | drainKeep r left' m rest hBefore
    | drainDrop r left' m rest hBefore =>
        cases hKept.draining _ hBefore
    | start => cases hLeft
    | close => cases hLeft
    | forward r m =>
        simp only [setRouter,
          (pass_frame cfg c r m).2.1] at hLeft
        exact hKept.draining left hLeft
    | stop | check | quit | readInput | readBuffer =>
        exact hKept.draining left hLeft
  have hEnded :
      ∀ (r : Nat) l, c.ended r = some l → ∀ m ∈ l,
        cfg.express m = false → cfg.level m = r →
          m ∈ c'.handed r :=
    fun r l hEnd m hm hSlow hLevel =>
      hFlow.handed_mono (hKept.ended r l hEnd m hm hSlow hLevel)
  cases hTurn with
  | same _ hOpen hSame =>
      refine ⟨hDraining, ?_, ?_, ?_⟩
      · rw [hOpen]
        exact hHeld
      · rw [hOpen]
        exact hBuffers
      · rw [hSame]
        exact hEnded
  | start _ hOld hOpen hSame =>
      rw [hOld, ← hOpen] at hHeld hBuffers
      refine ⟨hDraining, hHeld, hBuffers, ?_⟩
      rw [hSame]
      exact hEnded
  | close r hRunning hRounds _ hOld hOpen hEnds =>
      cases hStep with
      | close =>
          rcases (settled_iff hRounds).mp hOk with
            ⟨_, hHands, hLeft⟩
          refine ⟨hDraining, ?_, ?_, ?_⟩
          · intro r' m hMem hSlow hLevel
            rw [hOpen] at hLevel ⊢
            by_contra hNot
            rcases hHands r' (by omega) m hMem with
              hExpress | hLess
            · rw [hSlow] at hExpress
              cases hExpress
            · omega
          · intro r' m hMem hLevel
            rw [hOpen] at hLevel ⊢
            by_contra hNot
            exact absurd (hLeft r' (by omega) m hMem)
              (by omega)
          · intro r' l hEnd m hm hSlow hLevel
            rw [hEnds] at hEnd
            by_cases hEq : r' = r
            · subst hEq
              rw [Function.update_self] at hEnd
              cases hEnd
              exact
                handed_of_settled hPlaced hLocated hRunning
                  hRounds hOk hm hSlow hLevel
            · rw [Function.update_of_ne hEq] at hEnd
              exact hEnded r' l hEnd m hm hSlow hLevel

/- An arrival is kept. -/
theorem Kept.arrive
    (hKept : Kept cfg c) (m : M) : Kept cfg (c.arrive m) :=
  ⟨hKept.draining, hKept.held, hKept.buffers, hKept.ended⟩

theorem kept_new : Kept cfg (new : RouterChain M) where
  draining := fun left h => by cases h
  held := fun r m hm => by cases hm
  buffers := fun r m hm => by cases hm
  ended := fun r l h => by cases h

/- What is kept has been routed to its round. -/
theorem Kept.routed
    [DecidableEq M]
    (hPlaced : Placed cfg c) (hLocated : Located c)
    (hKept : Kept cfg c) :
    Routed cfg c where
  once := fun r m => hLocated.count_le (.handed r)
  own := fun r m hm =>
    (hPlaced.place (.handed r) m hm).2.1
  ended := fun r l hEnd m hm hSlow hLevel =>
    hLocated.count_eq (.handed r)
      (hKept.ended r l hEnd m hm hSlow hLevel)
  underway := by
    intro m hm hSlow hOpen
    rcases hLocated.exists_place hm with ⟨place, hPlace⟩
    have hOk := hPlaced.place place m hPlace
    cases place with
    | input => exact .inr (.inl hPlace)
    | held r =>
        exact
          .inr (.inr (.inl ⟨r,
            hKept.held r m hPlace hSlow hOpen, hPlace⟩))
    | buffer r =>
        exact
          .inr (.inr (.inr ⟨r,
            hKept.buffers r m hPlace hOpen, hPlace⟩))
    | handed r =>
        exact
          .inl ⟨r, hLocated.count_eq (.handed r)
            hPlace⟩
    | expressed =>
        have hExpress : cfg.express m = true := hOk
        rw [hSlow] at hExpress
        cases hExpress
    | dropped =>
        rcases hOk with ⟨_, hLt⟩
        omega

/- What has not been handed had not come by the end. -/
theorem Routed.not_ended
    [DecidableEq M]
    (hRouted : Routed cfg c) (hLocated : Located c)
    {m : M} (place : Place)
    (hPlace : m ∈ c.contents place)
    (hNot : ∀ r, place ≠ .handed r)
    (hSlow : cfg.express m = false)
    {r : Nat} {l : List M}
    (hEnd : c.ended r = some l) (hMem : m ∈ l) :
    cfg.level m ≠ r := by
  intro hLevel
  have hCount := hRouted.ended r l hEnd m hMem hSlow hLevel
  have hHanded : m ∈ c.contents (.handed r) := by
    refine List.count_pos_iff.mp ?_
    exact Nat.lt_of_lt_of_eq Nat.one_pos hCount.symm
  exact hNot r (hLocated.unique _ _ hPlace hHanded)

/- Only recent routers hold messages that are still needed. -/
theorem Routed.held
    [DecidableEq M]
    (hRouted : Routed cfg c) (hLocated : Located c)
    {m : M} {r : Nat}
    (hPlace : m ∈ c.contents (.held r))
    (hSlow : cfg.express m = false)
    (hOpen : (c.firstOpen : Int) ≤ cfg.level m) :
    c.firstOpen ≤ r + 1 := by
  rcases hRouted.underway m (hLocated.arrived _ hPlace) hSlow
      hOpen with ⟨r', hCount⟩ | h | ⟨r', hLe, h⟩ | ⟨r', _, h⟩
  · have hHanded : m ∈ c.contents (.handed r') := by
      refine List.count_pos_iff.mp ?_
      exact Nat.lt_of_lt_of_eq Nat.one_pos hCount.symm
    cases hLocated.unique _ _ hPlace hHanded
  · cases hLocated.unique _ (.input) hPlace h
  · cases hLocated.unique _ (.held r') hPlace h
    exact hLe
  · cases hLocated.unique _ (.buffer r') hPlace h

/- Only recent buffers hold messages that are still needed. -/
theorem Routed.buffers
    [DecidableEq M]
    (hRouted : Routed cfg c) (hLocated : Located c)
    {m : M} {r : Nat}
    (hPlace : m ∈ c.contents (.buffer r))
    (hSlow : cfg.express m = false)
    (hOpen : (c.firstOpen : Int) ≤ cfg.level m) :
    c.firstOpen ≤ r := by
  rcases hRouted.underway m (hLocated.arrived _ hPlace) hSlow
      hOpen with ⟨r', hCount⟩ | h | ⟨r', _, h⟩ | ⟨r', hLe, h⟩
  · have hHanded : m ∈ c.contents (.handed r') := by
      refine List.count_pos_iff.mp ?_
      exact Nat.lt_of_lt_of_eq Nat.one_pos hCount.symm
    cases hLocated.unique _ _ hPlace hHanded
  · cases hLocated.unique _ (.input) hPlace h
  · cases hLocated.unique _ (.held r') hPlace h
  · cases hLocated.unique _ (.buffer r') hPlace h
    exact hLe

/- Without the condition a message is lost. -/
theorem losesNothing_of_routed
    [DecidableEq M]
    (hPlaced : Placed cfg c) (hLocated : Located c)
    {a : RouterAction} (hStep : Step cfg c a c')
    (hLocated' : Located c') (hRouted : Routed cfg c') :
    c.losesNothing cfg a = true := by
  cases hStep with
  | close r hRunning hRounds =>
      -- what is where it was, and the round has ended
      have hEnd : ∀ place m, m ∈ c.contents place →
          (∀ r, place ≠ .handed r) →
            cfg.express m = false → cfg.level m ≠ r := by
        intro place m hMem hNot hSlow
        refine
          hRouted.not_ended hLocated' place hMem
            hNot hSlow (Function.update_self _ _ _)
            (hLocated.arrived _ hMem)
      refine (settled_iff hRounds).mpr ⟨?_, ?_, ?_⟩
      · intro m hMem
        rw [or_iff_not_imp_left, Bool.not_eq_true]
        intro hSlow
        rcases List.mem_append.mp hMem with h | h
        · exact hEnd .input m h (by simp) hSlow
        · exact hEnd (.held r) m h (by simp) hSlow
      · intro r' hLt m hMem
        rw [or_iff_not_imp_left, Bool.not_eq_true]
        intro hSlow
        by_contra hNot
        have hNe := hEnd (.held r') m hMem (by simp) hSlow
        have hLe :=
          hRouted.held hLocated' (r := r') hMem hSlow
            (by simp only [firstOpen, hRounds]; omega)
        simp only [firstOpen, hRounds] at hLe
        omega
      · intro r' hLe m hMem
        have hSlow :=
          (hPlaced.place (.buffer r') m hMem).1
        by_contra hNot
        have hNe := hEnd (.buffer r') m hMem (by simp) hSlow
        have hOpen :=
          hRouted.buffers hLocated' (r := r') hMem hSlow
            (by simp only [firstOpen, hRounds]; omega)
        simp only [firstOpen, hRounds] at hOpen
        omega
  | readInput r m rest hSelect hInput =>
      unfold losesNothing
      simp only [hInput, List.head?_cons, Option.all_some,
        Bool.or_eq_true, Option.isNone_iff_eq_none,
        decide_eq_true_eq]
      by_contra hNot
      rw [not_or, not_or, Bool.not_eq_true] at hNot
      rcases hNot with ⟨hEnded, hSlow, hOpen⟩
      have hLt :=
        (hPlaced.ended (r + 1)).mp
          (Option.isSome_iff_ne_none.mpr hEnded)
      have hLe :=
        hRouted.held hLocated' (m := m) (r := r)
          (by
            simp only [contents, setRouter,
              Function.update_self, Router.hand,
              List.mem_singleton])
          hSlow (Int.not_lt.mp hOpen)
      exact absurd hLe (Nat.not_le_of_lt hLt)
  | next | drainKeep | drainDrop | start | stop | check | quit
  | readBuffer | forward => rfl

end Settled

section Runs

variable [DecidableEq M]

/- The condition on the steps of a chain. -/
def careful
    (cfg : Routing M) (c : RouterChain (Numbered M)) :
    ChainAction M → Bool
| .arrive _ => true
| .act a => c.losesNothing cfg.numbered a

section Step

variable {cfg : Routing M}
variable {c c' : RouterChain (Numbered M)}
variable {a : ChainAction M}

/- A careful action keeps the invariant. -/
theorem Kept.exec
    (hLeaves : cfg.drains = false)
    (hChained : Chained cfg c) (hKept : Kept cfg.numbered c)
    (hExec : c.execNumbered cfg a = some c')
    (hOk : c.careful cfg a = true) :
    Kept cfg.numbered c' := by
  cases a with
  | arrive m =>
      cases hExec
      exact hKept.arrive _
  | act a =>
      have hStep := step_of_exec hExec
      exact
        hKept.step hLeaves hChained.placed hChained.located
          hStep (hChained.flow hStep) hOk

/- A step keeps all routed exactly under the condition. -/
theorem Kept.routed_iff
    (hLeaves : cfg.drains = false)
    (hChained : Chained cfg c) (hKept : Kept cfg.numbered c)
    (hExec : c.execNumbered cfg a = some c') :
    Routed cfg.numbered c' ↔ c.careful cfg a = true := by
  have hChained' := hChained.exec hExec
  constructor
  · intro hAfter
    cases a with
    | arrive m => rfl
    | act a =>
        exact
          losesNothing_of_routed hChained.placed
            hChained.located (step_of_exec hExec)
            hChained'.located hAfter
  · intro hOk
    exact
      (hKept.exec hLeaves hChained hExec hOk).routed
        hChained'.placed hChained'.located

end Step

/- It holds in every careful run. -/
theorem kept
    {cfg : Routing M} (hLeaves : cfg.drains = false)
    {c : RouterChain (Numbered M)}
    (hReach :
      (chain cfg).ReachableBy
        (fun c a => c.careful cfg a = true) c) :
    Kept cfg.numbered c :=
  Machine.ReachableBy.invariant (Kept cfg.numbered) kept_new
    (fun _ _ _ hReach hKept hOk hExec =>
      hKept.exec hLeaves (chained hReach) hExec hOk)
    hReach

/-
  In a run under the condition every message is routed, and a
  further step keeps it so exactly under the condition.
-/
theorem routed
    {cfg : Routing M} (hLeaves : cfg.drains = false)
    {c : RouterChain (Numbered M)}
    (hReach :
      (chain cfg).ReachableBy
        (fun c a => c.careful cfg a = true) c) :
    Routed cfg.numbered c ∧
      ∀ a c', c.execNumbered cfg a = some c' →
        (Routed cfg.numbered c' ↔ c.careful cfg a = true) := by
  have hChained := chained hReach
  have hKept := kept hLeaves hReach
  exact
    ⟨hKept.routed hChained.placed hChained.located,
      fun a c' hExec => hKept.routed_iff hLeaves hChained hExec⟩

end Runs

end RouterChain

end Protocol
