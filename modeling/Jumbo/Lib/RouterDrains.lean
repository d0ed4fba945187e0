import Jumbo.Lib.RouterProgress

/-
  Chains of routers in which the old buffer is emptied before
  a new router starts: under what condition on the steps the
  emptying never waits for a message that is gone, and leaves
  no message behind.

  Main declarations:
    * `RouterChain.leavesNone`
    * `RouterChain.Drained`
    * `RouterChain.Coming`
    * `RouterChain.pending`
    * `RouterChain.feed`
-/

------------------------------------------------------------
-- Routers that Empty the Buffer Before
------------------------------------------------------------

namespace Protocol

variable {M : Type*}

namespace RouterChain

/- The first buffer from which a message still goes on. -/
def firstBuffer (c : RouterChain M) : Nat :=
  match c.switch with
  | .running => c.firstOpen
  | _ => c.firstOpen - 1

/- The first buffer in which a message may still be put. -/
def firstFill (c : RouterChain M) : Nat :=
  match c.switch with
  | .idle => c.firstOpen - 1
  | _ => c.firstOpen

/-
  The condition on the steps. Once the old buffer is counted
  no router holds a message to come that belongs in it, none
  takes such a message, and none takes one of those counted.
-/
def leavesNone
    (cfg : Routing M) (c : RouterChain M) :
    RouterAction → Bool
| .next =>
    (List.range (c.rounds - 1)).all fun r =>
      (c.routers r).hand.all fun m =>
        cfg.express m || decide (cfg.level m < c.rounds)
| .readInput r =>
    decide (c.firstFill ≤ r + 1) ||
      c.input.head?.all fun m =>
        cfg.express m || decide (cfg.level m < c.firstOpen)
| .readBuffer r =>
    match c.switch with
    | .draining left =>
        decide (c.rounds ≠ r + 1) ||
          decide (left < (c.buffers r).length)
    | _ => true
| _ => true

/-
  All that is counted is there, and no message to come is
  where it would stay.
-/
structure Drained (cfg : Routing M) (c : RouterChain M) :
    Prop where
  length :
    ∀ left, c.switch = .draining left → left ≤ c.oldLength
  beyond :
    ∀ left r, c.switch = .draining left →
      c.rounds = r + 1 →
        ∀ m ∈ (c.buffers r).drop left,
          cfg.level m < ((r + 1 : Nat) : Int)
  held :
    ∀ r, ∀ m ∈ (c.routers r).hand,
      cfg.express m = false →
        (c.firstOpen : Int) ≤ cfg.level m →
          c.firstFill ≤ r + 1
  buffers :
    ∀ r, ∀ m ∈ c.buffers r,
      (c.firstOpen : Int) ≤ cfg.level m →
        c.firstBuffer ≤ r

/- What is still to be moved out of the old buffer. -/
def waiting (c : RouterChain M) : List M :=
  match c.switch, c.rounds with
  | .idle, r + 1 => c.buffers r
  | .draining left, r + 1 => (c.buffers r).take left
  | _, _ => []

/- A message is where it will be taken further. -/
def Coming (c : RouterChain M) (m : M) : Prop :=
  m ∈ c.input ∨
    m ∈ c.waiting ∨
      (∃ r, c.firstFill ≤ r + 1 ∧ m ∈ (c.routers r).hand) ∨
        ∃ r, c.firstOpen ≤ r ∧ m ∈ c.buffers r

section Step

variable {cfg : Routing M} {c c' : RouterChain M}
variable {a : RouterAction}

/- Buffers are read before they are filled. -/
theorem firstBuffer_le_firstFill (c : RouterChain M) :
    c.firstBuffer ≤ c.firstFill := by
  unfold firstBuffer firstFill
  cases c.switch with
  | idle => exact Nat.le_refl _
  | draining => exact Nat.sub_le _ _
  | running => exact Nat.le_refl _

/- What is filled belongs to an open round. -/
theorem firstFill_le_firstOpen (c : RouterChain M) :
    c.firstFill ≤ c.firstOpen := by
  unfold firstFill
  cases c.switch with
  | idle => exact Nat.sub_le _ _
  | draining | running => exact Nat.le_refl _

/- At most one closed round still has its buffer read. -/
theorem firstOpen_le_firstBuffer (c : RouterChain M) :
    c.firstOpen ≤ c.firstBuffer + 1 := by
  unfold firstBuffer
  cases c.switch with
  | idle | draining => exact Nat.le_succ_of_pred_le (Nat.le_refl _)
  | running => exact Nat.le_succ _

/- The buffer that is measured is that of the last round. -/
theorem oldLength_of_rounds
    {r : Nat} (hRounds : c.rounds = r + 1) :
    c.oldLength = (c.buffers r).length := by
  unfold oldLength
  rw [hRounds]

/- The condition says of what a router takes where it is. -/
theorem Step.readInput_fill
    {r : Nat} (hStep : Step cfg c (.readInput r) c')
    (hOk : c.leavesNone cfg (.readInput r) = true)
    {m : M} (hMem : m ∈ (c'.routers r).hand)
    (hSlow : cfg.express m = false)
    (hLevel : (c.firstOpen : Int) ≤ cfg.level m) :
    c.firstFill ≤ r + 1 := by
  cases hStep with
  | readInput _ x rest hSelect hInput =>
      simp only [setRouter, Function.update_self,
        Router.hand] at hMem
      rw [List.mem_singleton.mp hMem] at hSlow hLevel
      unfold leavesNone at hOk
      simp only [hInput, List.head?_cons, Option.all_some,
        hSlow, Bool.false_or, Bool.or_eq_true,
        decide_eq_true_eq] at hOk
      rcases hOk with hFill | hLow
      · exact hFill
      · omega

/- Which messages a router may hold after a step. -/
theorem Drained.held_step
    (hDrained : Drained cfg c) (hStep : Step cfg c a c')
    (hOk : c.leavesNone cfg a = true)
    (r : Nat) (m : M) (hMem : m ∈ (c'.routers r).hand)
    (hSlow : cfg.express m = false)
    (hLevel : (c.firstOpen : Int) ≤ cfg.level m) :
    c.firstFill ≤ r + 1 := by
  rcases hStep.hand_cases hMem with
    h | ⟨rfl, h⟩ | ⟨rfl, h⟩
  · exact hDrained.held r m h hSlow hLevel
  · exact hStep.readInput_fill hOk hMem hSlow hLevel
  · have hLe := hDrained.buffers r m h hLevel
    have hFill := firstFill_le_firstOpen c
    have hBuffer := firstOpen_le_firstBuffer c
    omega

/- What lies in a buffer is still to be read. -/
theorem Drained.buffers_step
    (hDrained : Drained cfg c) (hFlow : Flow cfg c c')
    (r : Nat) (m : M) (hMem : m ∈ c'.buffers r)
    (hLevel : (c.firstOpen : Int) ≤ cfg.level m) :
    c.firstBuffer ≤ r := by
  have hLe := firstBuffer_le_firstFill c
  rcases hFlow.buffer_cases hMem with
    h | ⟨r', rfl, ⟨h, hSlow⟩ | ⟨_, hRounds, left, hDraining⟩⟩
  · exact hDrained.buffers r m h hLevel
  · have hFill := hDrained.held r' m h hSlow hLevel
    omega
  · unfold firstBuffer firstOpen
    simp only [hDraining, hRounds]
    omega

/-
  What is put behind those that are counted comes too late
  for the rounds to come.
-/
theorem Drained.push_beyond
    (hDrained : Drained cfg c)
    {r left : Nat} {m : M} (hMem : m ∈ (c.routers r).hand)
    (hSlow : cfg.express m = false)
    (hDraining : c.switch = .draining left)
    (hRounds : c.rounds = (r + 1) + 1) :
    cfg.level m < ((r + 1 + 1 : Nat) : Int) := by
  have hFill := hDrained.held r m hMem hSlow
  simp only [firstFill, firstOpen, hDraining,
    hRounds] at hFill
  omega

/- The messages counted after a step. -/
theorem Drained.window_step
    (hDrains : cfg.drains = true)
    (hDrained : Drained cfg c) (hStep : Step cfg c a c')
    (hOk : c.leavesNone cfg a = true)
    (left r : Nat) (hDraining : c'.switch = .draining left)
    (hRounds : c'.rounds = r + 1) :
    left ≤ (c'.buffers r).length ∧
      ∀ m ∈ (c'.buffers r).drop left,
        cfg.level m < ((r + 1 : Nat) : Int) := by
  have hBefore :
      ∀ left, c.switch = .draining left →
        c.rounds = r + 1 →
          left ≤ (c.buffers r).length ∧
            ∀ m ∈ (c.buffers r).drop left,
              cfg.level m < ((r + 1 : Nat) : Int) := by
    intro left hSwitch hEq
    have hLength := hDrained.length left hSwitch
    rw [oldLength_of_rounds hEq] at hLength
    exact ⟨hLength, hDrained.beyond left r hSwitch hEq⟩
  -- one that was counted is taken out in front
  have hPop :
      ∀ left' m rest, c.switch = .draining (left' + 1) →
        c.rounds = r + 1 →
          c.buffers r = m :: rest →
            left' ≤ rest.length ∧
              ∀ m ∈ rest.drop left',
                cfg.level m < ((r + 1 : Nat) : Int) := by
    intro left' m rest hSwitch hEq hBuffer
    have hWindow := hBefore _ hSwitch hEq
    rw [hBuffer, List.length_cons,
      List.drop_succ_cons] at hWindow
    exact ⟨Nat.le_of_succ_le_succ hWindow.1, hWindow.2⟩
  cases hStep with
  | next hIdle =>
      injection hDraining with hLeft
      simp only at hRounds
      rw [if_pos hDrains, oldLength_of_rounds hRounds] at hLeft
      subst hLeft
      simp
  | drainKeep r' left' m rest hSwitch hEq hBuffer =>
      injection hDraining with hLeft
      simp only at hRounds
      obtain rfl : r' = r := by omega
      subst hLeft
      have hNe : r' ≠ r' + 1 := (Nat.succ_ne_self r').symm
      simp only [push, Function.update_of_ne hNe,
        Function.update_self]
      exact hPop left' m rest hSwitch hEq hBuffer
  | drainDrop r' left' m rest hSwitch hEq hBuffer =>
      injection hDraining with hLeft
      simp only at hRounds
      obtain rfl : r' = r := by omega
      subst hLeft
      simp only [Function.update_self]
      exact hPop left' m rest hSwitch hEq hBuffer
  | start => cases hDraining
  | close => cases hDraining
  | stop => exact hBefore left hDraining hRounds
  | check r' | quit r' | readInput r' =>
      exact hBefore left hDraining hRounds
  | readBuffer r' m rest hSelect hBuffer =>
      have hWindow := hBefore left hDraining hRounds
      simp only [setRouter] at hDraining hRounds ⊢
      by_cases hEq : r = r'
      · subst hEq
        simp only [Function.update_self]
        rw [hBuffer] at hWindow
        unfold leavesNone at hOk
        simp only [hDraining, hRounds, ne_eq, not_true,
          decide_false, Bool.false_or, hBuffer,
          List.length_cons, decide_eq_true_eq] at hOk
        refine
          ⟨Nat.le_of_lt_succ hOk, fun x hx => hWindow.2 x ?_⟩
        -- the rest behind the window only gets shorter
        cases left with
        | zero => exact List.mem_cons_of_mem _ hx
        | succ k =>
            rw [List.drop_succ_cons]
            exact
              List.drop_subset_drop_left rest
                (Nat.le_succ k) hx
      · simp only [Function.update_of_ne hEq]
        exact hWindow
  | forward r' m hHolding =>
      have hFrame := pass_frame cfg c r' m
      simp only [setRouter, hFrame.1,
        hFrame.2.1] at hDraining hRounds
      have hWindow := hBefore left hDraining hRounds
      simp only [setRouter]
      unfold pass
      split
      · exact hWindow
      · rename_i hExpress
        split
        · by_cases hEq : r = r' + 1
          · subst hEq
            simp only [push, Function.update_self]
            have hHand : m ∈ (c.routers r').hand := by
              rw [hHolding]
              exact List.mem_singleton_self m
            have hLate :=
              hDrained.push_beyond hHand
                (eq_false_of_ne_true hExpress) hDraining
                hRounds
            rw [List.length_append,
              List.drop_append_of_le_length hWindow.1]
            refine
              ⟨Nat.le_add_right_of_le hWindow.1, ?_⟩
            intro x hx
            rcases List.mem_append.mp hx with h | h
            · exact hWindow.2 x h
            · rw [List.mem_singleton.mp h]
              exact hLate
          · simp only [push, Function.update_of_ne hEq]
            exact hWindow
        · split <;> exact hWindow

/- Only counting the old buffer closes the one before. -/
theorem Step.firstFill_eq
    (hStep : Step cfg c a c') (hNot : a ≠ .next) :
    c'.firstFill = c.firstFill := by
  cases hStep with
  | next => exact absurd rfl hNot
  | drainKeep r left m rest hDraining
  | drainDrop r left m rest hDraining =>
      simp only [firstFill, firstOpen, hDraining]
  | start hDraining =>
      simp only [firstFill, firstOpen, hDraining,
        Nat.add_sub_cancel]
  | close r hRunning hRounds =>
      simp only [firstFill, firstOpen, hRunning, hRounds]
  | stop | check | quit | readInput | readBuffer => rfl
  | forward r m =>
      have hFrame := pass_frame cfg c r m
      simp only [firstFill, firstOpen, setRouter, hFrame.1,
        hFrame.2.1]

/- Only the start of a round gives up a buffer. -/
theorem Step.firstBuffer_eq
    (hStep : Step cfg c a c') (hNot : a ≠ .start) :
    c'.firstBuffer = c.firstBuffer := by
  cases hStep with
  | next hIdle =>
      simp only [firstBuffer, firstOpen, hIdle]
  | drainKeep r left m rest hDraining
  | drainDrop r left m rest hDraining =>
      simp only [firstBuffer, firstOpen, hDraining]
  | start => exact absurd rfl hNot
  | close r hRunning hRounds =>
      simp only [firstBuffer, firstOpen, hRunning, hRounds]
  | stop | check | quit | readInput | readBuffer => rfl
  | forward r m =>
      have hFrame := pass_frame cfg c r m
      simp only [firstBuffer, firstOpen, setRouter, hFrame.1,
        hFrame.2.1]

/- While it drains, the old buffer holds what was measured. -/
theorem Drained.length_step
    (hDrains : cfg.drains = true)
    (hDrained : Drained cfg c) (hStep : Step cfg c a c')
    (hOk : c.leavesNone cfg a = true)
    (left : Nat) (hDraining : c'.switch = .draining left) :
    left ≤ c'.oldLength := by
  cases hRounds : c'.rounds with
  | succ r =>
      rw [oldLength_of_rounds hRounds]
      exact
        (hDrained.window_step hDrains hStep hOk left r
          hDraining hRounds).1
  | zero =>
      -- before the first round there is nothing to count
      have hBefore :
          c.switch = .draining left → c.rounds = 0 →
            left ≤ 0 := by
        intro hSwitch hZero
        have hLength := hDrained.length left hSwitch
        simp only [oldLength, hZero] at hLength
        exact hLength
      refine Nat.le_trans ?_ (Nat.zero_le _)
      cases hStep with
      | next hIdle =>
          injection hDraining with hLeft
          simp only at hRounds
          simp only [oldLength, hRounds, ite_self] at hLeft
          omega
      | drainKeep r left' m rest hSwitch hEq
      | drainDrop r left' m rest hSwitch hEq =>
          simp only at hRounds
          omega
      | start => cases hDraining
      | close => cases hDraining
      | stop | check | quit | readInput | readBuffer =>
          exact hBefore hDraining hRounds
      | forward r m =>
          have hFrame := pass_frame cfg c r m
          simp only [setRouter, hFrame.1,
            hFrame.2.1] at hDraining hRounds
          exact hBefore hDraining hRounds

/- A step that leaves nothing behind keeps the invariant. -/
theorem Drained.step
    (hDrains : cfg.drains = true)
    (hDrained : Drained cfg c) (hStep : Step cfg c a c')
    (hFlow : Flow cfg c c')
    (hOk : c.leavesNone cfg a = true) :
    Drained cfg c' := by
  have hTurn := turn_of_step hStep
  have hOpen := hTurn.firstOpen_le
  refine
    { length := hDrained.length_step hDrains hStep hOk
      beyond := fun left r hDraining hRounds =>
        (hDrained.window_step hDrains hStep hOk left r
          hDraining hRounds).2
      held := ?_
      buffers := ?_ }
  · intro r m hMem hSlow hLevel
    have hHeld :=
      hDrained.held_step hStep hOk r m hMem hSlow (by omega)
    by_cases hNext : a = .next
    · subst hNext
      cases hStep with
      | next hIdle =>
          simp only [firstFill, firstOpen] at hLevel ⊢
          simp only [firstFill, firstOpen, hIdle] at hHeld
          by_contra hNot
          unfold leavesNone at hOk
          simp only [List.all_eq_true, List.mem_range,
            Bool.or_eq_true, decide_eq_true_eq] at hOk
          rcases hOk r (by omega) m hMem with hFast | hLow
          · rw [hSlow] at hFast
            cases hFast
          · omega
    · rw [hStep.firstFill_eq hNext]
      exact hHeld
  · intro r m hMem hLevel
    have hBuffer :=
      hDrained.buffers_step hFlow r m hMem (by omega)
    by_cases hStart : a = .start
    · subst hStart
      cases hStep with
      | start hDraining =>
          simp only [firstBuffer, firstOpen,
            Nat.add_sub_cancel] at hLevel ⊢
          simp only [firstBuffer, firstOpen,
            hDraining] at hBuffer
          by_contra hNot
          have hRounds : c.rounds = r + 1 := by omega
          have hLow :=
            hDrained.beyond 0 r hDraining hRounds m hMem
          omega
    · rw [hStep.firstBuffer_eq hStart]
      exact hBuffer

/- An arrival lies in no buffer. -/
theorem Drained.arrive
    (hDrained : Drained cfg c) (m : M) :
    Drained cfg (c.arrive m) :=
  ⟨hDrained.length, hDrained.beyond, hDrained.held,
    hDrained.buffers⟩

theorem drained_new : Drained cfg (new : RouterChain M) where
  length := fun left h => by cases h
  beyond := fun left r h => by cases h
  held := fun r m hm => by cases hm
  buffers := fun r m hm => by cases hm

/- Where a message of a round to come is. -/
theorem Drained.coming_or
    [DecidableEq M]
    (hDrained : Drained cfg c) (hPlaced : Placed cfg c)
    (hLocated : Located c)
    {m : M} (hMem : m ∈ c.arrived)
    (hSlow : cfg.express m = false)
    (hLevel : (c.firstOpen : Int) ≤ cfg.level m) :
    c.Coming m ∨ ∃ r, m ∈ c.handed r := by
  rcases hLocated.exists_place hMem with ⟨place, hPlace⟩
  have hOk := hPlaced.place place m hPlace
  cases place with
  | input => exact .inl (.inl hPlace)
  | held r =>
      exact
        .inl (.inr (.inr (.inl
          ⟨r, hDrained.held r m hPlace hSlow hLevel, hPlace⟩)))
  | buffer r =>
      left
      have hBuffer := hDrained.buffers r m hPlace hLevel
      by_cases hOpen : c.firstOpen ≤ r
      · exact .inr (.inr (.inr ⟨r, hOpen, hPlace⟩))
      · refine .inr (.inl ?_)
        unfold waiting
        cases hSwitch : c.switch with
        | idle =>
            simp only [firstBuffer, firstOpen,
              hSwitch] at hBuffer hOpen
            obtain hRounds : c.rounds = r + 1 := by omega
            simp only [hRounds]
            exact hPlace
        | draining left =>
            simp only [firstBuffer, firstOpen,
              hSwitch] at hBuffer hOpen hLevel
            obtain hRounds : c.rounds = r + 1 := by omega
            simp only [hRounds]
            have hAll : m ∈ c.buffers r := hPlace
            rw [← List.take_append_drop left
              (c.buffers r)] at hAll
            rcases List.mem_append.mp hAll with h | h
            · exact h
            · have hLow :=
                hDrained.beyond left r hSwitch hRounds m h
              omega
        | running =>
            simp only [firstBuffer, hSwitch] at hBuffer
            exact absurd hBuffer hOpen
  | handed r => exact .inr ⟨r, hPlace⟩
  | expressed =>
      have hExpress : cfg.express m = true := hOk
      rw [hSlow] at hExpress
      cases hExpress
  | dropped =>
      rcases hOk with ⟨_, hLow⟩
      omega

/- One that is passed on at once does not wait in buffers. -/
theorem express_or
    [DecidableEq M]
    (hPlaced : Placed cfg c) (hLocated : Located c)
    {m : M} (hMem : m ∈ c.arrived)
    (hExpress : cfg.express m = true) :
    m ∈ c.input ∨ (∃ r, m ∈ (c.routers r).hand) ∨
      m ∈ c.expressed := by
  rcases hLocated.exists_place hMem with ⟨place, hPlace⟩
  have hOk := hPlaced.place place m hPlace
  have hFast : cfg.express m ≠ false := by
    rw [hExpress]
    exact Bool.noConfusion
  cases place with
  | input => exact .inl hPlace
  | held r => exact .inr (.inl ⟨r, hPlace⟩)
  | buffer r => exact absurd hOk.1 hFast
  | handed r => exact absurd hOk.1 hFast
  | expressed => exact .inr (.inr hPlace)
  | dropped => exact absurd hOk.1 hFast

/- The router of the round that is running goes on. -/
theorem told_of_running
    (hPlaced : Placed cfg c) {r : Nat}
    (hRunning : c.switch = .running)
    (hRounds : c.rounds = r + 1)
    (hStopped : c.stopped = false) :
    c.told cfg r = false := by
  have hNone : (c.ended r).isSome = false := by
    rw [Bool.eq_false_iff]
    intro hSome
    have hLt := (hPlaced.ended r).mp hSome
    simp only [firstOpen, hRunning, hRounds,
      Nat.add_sub_cancel, Nat.lt_irrefl] at hLt
  rw [told, hStopped, hNone, Bool.and_false, Bool.or_false]

end Step

end RouterChain

------------------------------------------------------------
-- What Is in the Channels
------------------------------------------------------------

namespace RouterChain

/- All that is in the channels and in the hands of routers. -/
def pending (c : RouterChain M) : List M :=
  c.input ++
    (List.range c.rounds).flatMap
      (fun r => (c.routers r).hand) ++
    (List.range (c.rounds + 1)).flatMap c.buffers

section Pending

variable {cfg : Routing M} {c c' : RouterChain M}
variable {a : RouterAction}

/- What has left the channels has been handed or dropped. -/
theorem handed_of_not_pending
    [DecidableEq M]
    (hPlaced : Placed cfg c) (hLocated : Located c)
    {m : M} (hMem : m ∈ c.arrived) (hNot : m ∉ c.pending)
    {r : Nat} (hLevel : cfg.level m = r)
    (hOpen : c.firstOpen ≤ r) :
    cfg.express m = false ∧ m ∈ c.handed r ∨
      m ∈ c.expressed := by
  unfold pending at hNot
  simp only [List.mem_append, List.mem_flatMap,
    List.mem_range, not_or, not_exists, not_and] at hNot
  rcases hNot with ⟨⟨hInput, hHands⟩, hBuffers⟩
  rcases hLocated.exists_place hMem with ⟨place, hPlace⟩
  have hOk := hPlaced.place place m hPlace
  cases place with
  | input => exact absurd hPlace hInput
  | held r' => exact absurd hPlace (hHands r' hOk)
  | buffer r' =>
      rcases hOk with ⟨_, _, _, hLe⟩
      exact absurd hPlace (hBuffers r' (Nat.lt_succ_of_le hLe))
  | handed r' =>
      rcases hOk with ⟨hSlow, hSame, _⟩
      obtain rfl : r' = r := by omega
      exact .inl ⟨hSlow, hPlace⟩
  | expressed => exact .inr hPlace
  | dropped =>
      rcases hOk with ⟨_, hLow⟩
      omega

/-
  A message past the rounds has come out, if it waits
  nowhere.
-/
theorem expressed_of_not_pending
    [DecidableEq M]
    (hPlaced : Placed cfg c) (hLocated : Located c)
    {m : M} (hMem : m ∈ c.arrived) (hNot : m ∉ c.pending)
    (hExpress : cfg.express m = true) :
    m ∈ c.expressed := by
  unfold pending at hNot
  simp only [List.mem_append, List.mem_flatMap,
    List.mem_range, not_or, not_exists, not_and] at hNot
  rcases hNot with ⟨⟨hInput, hHands⟩, _⟩
  rcases express_or hPlaced hLocated hMem hExpress with
    h | ⟨r, h⟩ | h
  · exact absurd h hInput
  · exact
      absurd h (hHands r (hPlaced.place (.held r) m h))
  · exact h

/- Nothing is taken out of what has been passed on. -/
theorem Flow.expressed_mono
    (hFlow : Flow cfg c c') {m : M}
    (hMem : m ∈ c.expressed) : m ∈ c'.expressed := by
  have hAt : m ∈ c.contents .expressed := hMem
  change m ∈ c'.contents .expressed
  cases hFlow with
  | still _ hSame =>
      rw [hSame]
      exact hAt
  | moved x src dst hRoute hMoved =>
      by_cases hDst : Place.expressed = dst
      · rw [hDst, hMoved.into, ← hDst]
        exact List.mem_append_left _ hAt
      · have hSrc : Place.expressed ≠ src := by
          rintro rfl
          cases hRoute
        rw [hMoved.other _ hSrc hDst]
        exact hAt

/- Only the stop stops the routers. -/
theorem Step.stopped_of_ne
    (hStep : Step cfg c a c') (hNot : a ≠ .stop) :
    c'.stopped = c.stopped := by
  cases hStep with
  | stop => exact absurd rfl hNot
  | forward r m => simp only [setRouter, pass_stopped]
  | _ => rfl

/- Routers that have stopped do not start again. -/
theorem Step.stopped_mono
    (hStep : Step cfg c a c') (hStopped : c.stopped = true) :
    c'.stopped = true := by
  by_cases hStop : a = .stop
  · subst hStop
    cases hStep
    rfl
  · rw [hStep.stopped_of_ne hStop, hStopped]

end Pending

end RouterChain

------------------------------------------------------------
-- Chains Below a Chain
------------------------------------------------------------

namespace RouterChain

/- Give a chain what it does not have yet of a channel. -/
def feed (c : RouterChain M) (l : List M) : RouterChain M :=
  { c with
    arrived := c.arrived ++ l.drop c.arrived.length
    input := c.input ++ l.drop c.arrived.length }

theorem feed_arrived (c : RouterChain M) :
    c.feed c.arrived = c := by
  unfold feed
  rw [List.drop_length, List.append_nil, List.append_nil]

/- One message more from the routers above is one arrival. -/
theorem feed_append (c : RouterChain M) (m : M) :
    c.feed (c.arrived ++ [m]) = c.arrive m := by
  unfold feed arrive
  rw [List.drop_left]

/- What the steps of a draining chain keep. -/
structure Sound
    [DecidableEq M] (cfg : Routing M) (c : RouterChain M) :
    Prop where
  placed : Placed cfg c
  located : Located c
  alive : Alive cfg c

section Sound

variable [DecidableEq M] {cfg : Routing M}
variable {c c' : RouterChain M} {a : RouterAction}

/- At the start everything is in order. -/
theorem sound_new : Sound cfg (new : RouterChain M) where
  placed := placed_new cfg
  located := located_new
  alive := alive_new

/- A step moves one message at most. -/
theorem Sound.flow
    (hSound : Sound cfg c) (hStep : Step cfg c a c') :
    Flow cfg c c' :=
  flow_of_step hStep
    (hSound.placed.absent _ (Nat.le_refl _))

/- Every step keeps the order of things. -/
theorem Sound.step
    (hSound : Sound cfg c) (hStep : Step cfg c a c') :
    Sound cfg c' where
  placed := hSound.placed.step hStep
  located := hSound.located.step (hSound.flow hStep)
  alive := hSound.alive.step hSound.placed hStep

/- A message that is new may arrive. -/
theorem Sound.arrive
    (hSound : Sound cfg c) {m : M} (hNew : m ∉ c.arrived) :
    Sound cfg (c.arrive m) where
  placed := hSound.placed.arrive m
  located := hSound.located.arrive hNew
  alive := hSound.alive

/- At most one message more is handed. -/
theorem Sound.handed_step
    (hSound : Sound cfg c) (hStep : Step cfg c a c')
    (r : Nat) :
    c'.handed r = c.handed r ∨
      ∃ m, c'.handed r = c.handed r ++ [m] ∧
        m ∉ c.handed r := by
  have hFlow := hSound.flow hStep
  cases hFlow with
  | still _ hSame => exact .inl (hSame (.handed r))
  | moved m src dst hRoute hMoved =>
      by_cases hDst : Place.handed r = dst
      · subst hDst
        refine .inr ⟨m, hMoved.into, fun hMem => ?_⟩
        have hOut : m ∈ c.contents src := by
          rw [hMoved.out]
          exact List.mem_cons_self
        exact
          hRoute.ne
            (hSound.located.unique src (.handed r) hOut hMem)
      · have hSrc : Place.handed r ≠ src := by
          rintro rfl
          cases hRoute
        exact .inl (hMoved.other _ hSrc hDst)

/- What holds of a chain holds after it has been fed. -/
theorem Sound.feed_induction
    (hSound : Sound cfg c) (hStep : Step cfg c a c')
    {low : RouterChain M} {r : Nat}
    (hLink : low.arrived = c.handed r)
    (P : RouterChain M → Prop) (hP : P low)
    (hArrive : ∀ m, m ∉ low.arrived → P (low.arrive m)) :
    P (low.feed (c'.handed r)) := by
  rcases hSound.handed_step hStep r with
    hSame | ⟨m, hMore, hNew⟩
  · rw [hSame, ← hLink, feed_arrived]
    exact hP
  · rw [hMore, ← hLink, feed_append]
    rw [← hLink] at hNew
    exact hArrive m hNew

/- What is handed on below is what was handed out above. -/
theorem Sound.feed_link
    (hSound : Sound cfg c) (hStep : Step cfg c a c')
    {low : RouterChain M} {r : Nat}
    (hLink : low.arrived = c.handed r) :
    (low.feed (c'.handed r)).arrived = c'.handed r := by
  change low.arrived ++ _ = _
  rcases hSound.handed_step hStep r with
    hSame | ⟨m, hMore, _⟩
  · rw [hSame, hLink, List.drop_length, List.append_nil]
  · rw [hMore, hLink, List.drop_left]

end Sound

end RouterChain

end Protocol
