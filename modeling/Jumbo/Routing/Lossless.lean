import Jumbo.Routing.Channels
import Mathlib.Tactic.IntervalCases

/-
  What the routers of the signature-free MVBA lose, and under
  what condition on the steps of the node nothing is lost and
  no goroutine waits forever, for a message that is gone or
  for room in a buffer.

  Main declarations:
    * `Node.careful` and `BoundedNode.careful`
    * `BoundedNode.Lossless`
    * `levels_routed`
-/

------------------------------------------------------------
-- The Condition on the Steps
------------------------------------------------------------

namespace Jumbo

namespace Routing

open Protocol
open RouterChain (Drained Step step_of_exec)

instance {α : Type*} (r b l : Nat) :
    DecidablePred (ForLoop (α := α) r b l) :=
  fun _ => inferInstanceAs (Decidable (_ ∧ _ ∧ _ ∧ _))

instance {α : Type*} (r b : Nat) :
    DecidablePred (ForBA (α := α) r b) :=
  fun _ => inferInstanceAs (Decidable (_ ∧ _ ∧ _))

namespace Node

variable {α β : Type*}

/- No message of a kind is in the channels on its way. -/
def settled
    (s : Node α β) (r b : Nat)
    (P : BAMsg α → Prop) [DecidablePred P] : Bool :=
  (s.bas.pending ++ (s.baloops r).pending ++
      (s.loops (r, b)).pending).all
    fun m => !decide (P m.msg)

/- The condition on the routers and the buffers. -/
def leavesNone (s : Node α β) : NodeAction α β → Bool
| .ba a => s.bas.leavesNone (bamsgRouting α).numbered a
| .rbc a => s.rbcs.leavesNone (rbcmsgRouting β).numbered a
| .baloop r a =>
    (s.baloops r).leavesNone (baloopRouting α).numbered a
| .loop r b a =>
    (s.loops (r, b)).leavesNone
      (loopmsgRouting α r b).numbered a
| _ => true

/-
  The condition on the ends: an agreement is closed before
  the MVBA goes on, and a loop or an agreement is over when
  nothing is on its way to it.
-/
def endsSettled (s : Node α β) : NodeAction α β → Bool
| .baloop r .close | .baloop r .stop =>
    (s.loops (r, (s.baloops r).rounds - 1)).stopped
| .loop r b .close =>
    (s.loops (r, b)).stopped ||
      s.settled r b
        (ForLoop r b ((s.loops (r, b)).rounds - 1))
| .loop r b .stop =>
    (s.loops (r, b)).stopped ||
      s.settled r b (ForBA r b) &&
        (decide ((s.loops (r, b)).switch ≠ .running) ||
          s.settled r b
            (ForLoop r b ((s.loops (r, b)).rounds - 1)))
| _ => true

/-
  No buffer is given up before it is empty and no instance
  ends before its messages are handed on.
-/
def careful (s : Node α β) (a : NodeAction α β) : Bool :=
  s.leavesNone a && s.endsSettled a

end Node

------------------------------------------------------------
-- The Order of the Ends
------------------------------------------------------------

namespace Node

variable {α β : Type*} [DecidableEq α] [DecidableEq β]

/-
  The invariant: the buffers lose nothing, agreements and
  MVBAs are closed before the rounds above them go on, and
  what had come by the end of an instance is in it.
-/
structure Orderly (s : Node α β) : Prop where
  bas : Drained (bamsgRouting α).numbered s.bas
  rbcs : Drained (rbcmsgRouting β).numbered s.rbcs
  baloops :
    ∀ r, Drained (baloopRouting α).numbered (s.baloops r)
  loops :
    ∀ i, Drained (loopmsgRouting α i.1 i.2).numbered
      (s.loops i)
  basRuns : s.bas.stopped = false
  below :
    ∀ r < s.bas.firstOpen, (s.baloops r).stopped = true
  ended :
    ∀ r, ∀ b < (s.baloops r).firstOpen,
      (s.loops (r, b)).stopped = true
  stopped :
    ∀ r, (s.baloops r).stopped = true →
      ∀ b < (s.baloops r).rounds,
        (s.loops (r, b)).stopped = true
  finished :
    ∀ r b l ms, s.finished (r, b, l) = some ms →
      ∀ m ∈ ms, ForLoop r b l m.msg →
        m ∈ (s.loops (r, b)).handed l
  closed :
    ∀ r b ms, s.closed (r, b) = some ms →
      ∀ m ∈ ms, ForBA r b m.msg →
        m ∈ (s.loops (r, b)).expressed

section State

variable {s : Node α β} {r b l : Nat}
variable {m : Numbered (BAMsg α)}

omit [DecidableEq α] [DecidableEq β] in
/- An instance is settled if no message for it is on its way. -/
theorem settled_iff
    {P : BAMsg α → Prop} [DecidablePred P] :
    s.settled r b P = true ↔
      ∀ m, P m.msg →
        m ∉ s.bas.pending ∧ m ∉ (s.baloops r).pending ∧
          m ∉ (s.loops (r, b)).pending := by
  unfold settled
  simp only [List.all_append, Bool.and_eq_true,
    List.all_eq_true, Bool.not_eq_true',
    decide_eq_false_iff_not]
  constructor
  · rintro ⟨⟨hBas, hBaloops⟩, hLoops⟩ m hP
    exact
      ⟨fun h => hBas m h hP, fun h => hBaloops m h hP,
        fun h => hLoops m h hP⟩
  · intro h
    exact
      ⟨⟨fun m hm hP => (h m hP).1 hm,
          fun m hm hP => (h m hP).2.1 hm⟩,
        fun m hm hP => (h m hP).2.2 hm⟩

/- An agreement that is open has all above it open. -/
omit [DecidableEq α] [DecidableEq β] in
/- Routers above an instance that runs are open for it. -/
theorem Orderly.open_above
    (hOrderly : Orderly s)
    (hLt : b < (s.baloops r).rounds)
    (hRuns : (s.loops (r, b)).stopped = false) :
    s.bas.firstOpen ≤ r ∧ (s.baloops r).firstOpen ≤ b := by
  constructor
  · by_contra hNot
    have hStopped := hOrderly.below r (Nat.lt_of_not_le hNot)
    rw [hOrderly.stopped r hStopped b hLt] at hRuns
    cases hRuns
  · by_contra hNot
    rw [hOrderly.ended r b (Nat.lt_of_not_le hNot)] at hRuns
    cases hRuns

/- What has left the channels above has come to it. -/
theorem Orderly.arrived_of_settled
    (hRoutes : Routes s) (hOrderly : Orderly s)
    (hLt : b < (s.baloops r).rounds)
    (hRuns : (s.loops (r, b)).stopped = false)
    (hMem : m ∈ s.bas.arrived)
    (hRound : m.msg.mvbaRound.toInt = r)
    (hBARound : m.msg.baRound.toInt = b)
    (hBas : m ∉ s.bas.pending)
    (hBaloops : m ∉ (s.baloops r).pending) :
    m ∈ (s.loops (r, b)).arrived := by
  rcases hOrderly.open_above hLt hRuns with ⟨hTop, hMid⟩
  have hHanded : m ∈ s.bas.handed r := by
    rcases RouterChain.handed_of_not_pending
        hRoutes.bas.placed hRoutes.bas.located hMem hBas
        hRound hTop with ⟨_, h⟩ | h
    · exact h
    · cases hRoutes.bas.placed.place .expressed m h
  rw [← hRoutes.baLink r] at hHanded
  rw [hRoutes.loopLink (r, b)]
  rcases RouterChain.handed_of_not_pending
      (hRoutes.baloops r).placed (hRoutes.baloops r).located
      hHanded hBaloops hBARound hMid with ⟨_, h⟩ | h
  · exact h
  · cases (hRoutes.baloops r).placed.place .expressed m h

/- A loop that is settled has all that had come for it. -/
theorem Orderly.handed_of_settled
    (hRoutes : Routes s) (hOrderly : Orderly s)
    (hLt : b < (s.baloops r).rounds)
    (hRuns : (s.loops (r, b)).stopped = false)
    (hOpen : (s.loops (r, b)).firstOpen ≤ l)
    (hSettled : s.settled r b (ForLoop r b l) = true)
    (hMem : m ∈ s.bas.arrived)
    (hFor : ForLoop r b l m.msg) :
    m ∈ (s.loops (r, b)).handed l := by
  rcases settled_iff.mp hSettled m hFor with
    ⟨hBas, hBaloops, hLoops⟩
  rcases hFor with ⟨hRound, hBARound, hType, hLoop⟩
  have hHere :=
    hOrderly.arrived_of_settled hRoutes hLt hRuns hMem
      hRound hBARound hBas hBaloops
  have hSound := hRoutes.loops (r, b)
  rcases RouterChain.handed_of_not_pending hSound.placed
      hSound.located hHere hLoops hLoop hOpen with
    ⟨_, h⟩ | h
  · exact h
  · have hFast :=
      of_decide_eq_true (hSound.placed.place .expressed m h)
    exact absurd hFast hType

/- In a settled instance every FINISH has come out. -/
theorem Orderly.expressed_of_settled
    (hRoutes : Routes s) (hOrderly : Orderly s)
    (hLt : b < (s.baloops r).rounds)
    (hRuns : (s.loops (r, b)).stopped = false)
    (hSettled : s.settled r b (ForBA r b) = true)
    (hMem : m ∈ s.bas.arrived)
    (hFor : ForBA r b m.msg) :
    m ∈ (s.loops (r, b)).expressed := by
  rcases settled_iff.mp hSettled m hFor with
    ⟨hBas, hBaloops, hLoops⟩
  rcases hFor with ⟨hRound, hBARound, hType⟩
  have hHere :=
    hOrderly.arrived_of_settled hRoutes hLt hRuns hMem
      hRound hBARound hBas hBaloops
  have hSound := hRoutes.loops (r, b)
  exact
    RouterChain.expressed_of_not_pending hSound.placed
      hSound.located hHere hLoops (decide_eq_true hType)

end State

section Step

variable {s s' : Node α β} {a : RouterAction}

omit [DecidableEq α] [DecidableEq β] in
theorem orderly_new : Orderly (new : Node α β) where
  bas := RouterChain.drained_new
  rbcs := RouterChain.drained_new
  baloops := fun _ => RouterChain.drained_new
  loops := fun _ => RouterChain.drained_new
  basRuns := rfl
  below := fun r hr => absurd hr (Nat.not_lt_zero r)
  ended := fun r b hb => absurd hb (Nat.not_lt_zero b)
  stopped := fun r h => by cases h
  finished := fun r b l ms h => by cases h
  closed := fun r b ms h => by cases h

/- A step of the round routers keeps the order. -/
theorem Orderly.setBas
    (hRoutes : Routes s) (hOrderly : Orderly s)
    {c : RouterChain (Numbered (BAMsg α))}
    (hStep : Step (bamsgRouting α).numbered s.bas a c)
    (hNot : a ≠ .stop)
    (hOk :
      s.bas.leavesNone (bamsgRouting α).numbered a = true)
    (hBelow :
      ∀ r < c.firstOpen, (s.baloops r).stopped = true) :
    Orderly (s.setBas c) where
  bas :=
    hOrderly.bas.step rfl hStep (hRoutes.bas.flow hStep) hOk
  rbcs := hOrderly.rbcs
  baloops := fun r =>
    hRoutes.bas.feed_induction hStep (hRoutes.baLink r)
      (Drained (baloopRouting α).numbered)
      (hOrderly.baloops r)
      fun m _ => (hOrderly.baloops r).arrive m
  loops := hOrderly.loops
  basRuns := (hStep.stopped_of_ne hNot).trans hOrderly.basRuns
  below := hBelow
  ended := hOrderly.ended
  stopped := hOrderly.stopped
  finished := hOrderly.finished
  closed := hOrderly.closed

/- The rounds above an agreement go on after it is closed. -/
theorem Orderly.setBaloop
    (hRoutes : Routes s) (hOrderly : Orderly s) {r : Nat}
    {c : RouterChain (Numbered (BAMsg α))}
    (hStep :
      Step (baloopRouting α).numbered (s.baloops r) a c)
    (hOk :
      (s.baloops r).leavesNone (baloopRouting α).numbered a =
        true)
    (hEnded :
      ∀ b < c.firstOpen, (s.loops (r, b)).stopped = true)
    (hStopped :
      c.stopped = true →
        ∀ b < c.rounds, (s.loops (r, b)).stopped = true) :
    Orderly (s.setBaloop r c) where
  bas := hOrderly.bas
  rbcs := hOrderly.rbcs
  baloops := by
    intro r'
    change Drained _ (Function.update s.baloops r c r')
    by_cases hEq : r' = r
    · subst hEq
      rw [Function.update_self]
      exact
        (hOrderly.baloops r').step rfl hStep
          ((hRoutes.baloops r').flow hStep) hOk
    · rw [Function.update_of_ne hEq]
      exact hOrderly.baloops r'
  loops := fun i =>
    hRoutes.feed_loops hStep i
      (Drained (loopmsgRouting α i.1 i.2).numbered)
      (hOrderly.loops i)
      fun m _ => (hOrderly.loops i).arrive m
  basRuns := hOrderly.basRuns
  below := by
    intro r' hr
    have hBefore := hOrderly.below r' hr
    change (Function.update s.baloops r c r').stopped = true
    by_cases hEq : r' = r
    · subst hEq
      rw [Function.update_self]
      exact hStep.stopped_mono hBefore
    · rw [Function.update_of_ne hEq]
      exact hBefore
  ended := by
    intro r' b hb
    change b < (Function.update s.baloops r c r').firstOpen
      at hb
    change (s.loops (r', b)).stopped = true
    by_cases hEq : r' = r
    · subst hEq
      rw [Function.update_self] at hb
      exact hEnded b hb
    · rw [Function.update_of_ne hEq] at hb
      exact hOrderly.ended r' b hb
  stopped := by
    intro r' hStop b hb
    change (Function.update s.baloops r c r').stopped = true
      at hStop
    change b < (Function.update s.baloops r c r').rounds at hb
    change (s.loops (r', b)).stopped = true
    by_cases hEq : r' = r
    · subst hEq
      rw [Function.update_self] at hStop hb
      exact hStopped hStop b hb
    · rw [Function.update_of_ne hEq] at hStop hb
      exact hOrderly.stopped r' hStop b hb
  finished := hOrderly.finished
  closed := hOrderly.closed

/- What has been recorded before is still in the loops. -/
theorem Orderly.setLoop
    (hRoutes : Routes s) (hOrderly : Orderly s)
    {i : Nat × Nat}
    {c : RouterChain (Numbered (BAMsg α))}
    (hStep :
      Step (loopmsgRouting α i.1 i.2).numbered (s.loops i)
        a c)
    (hOk :
      (s.loops i).leavesNone
        (loopmsgRouting α i.1 i.2).numbered a = true) :
    Orderly (s.setLoop i c) := by
  have hFlow := (hRoutes.loops i).flow hStep
  have hStopped :
      ∀ j, (s.loops j).stopped = true →
        (Function.update s.loops i c j).stopped = true := by
    intro j h
    by_cases hEq : j = i
    · subst hEq
      rw [Function.update_self]
      exact hStep.stopped_mono h
    · rw [Function.update_of_ne hEq]
      exact h
  refine
    { hOrderly with
      loops := ?_
      ended := fun r b hb =>
        hStopped _ (hOrderly.ended r b hb)
      stopped := fun r hStop b hb =>
        hStopped _ (hOrderly.stopped r hStop b hb)
      finished := ?_
      closed := ?_ }
  · intro j
    change Drained _ (Function.update s.loops i c j)
    by_cases hEq : j = i
    · subst hEq
      rw [Function.update_self]
      exact (hOrderly.loops j).step rfl hStep hFlow hOk
    · rw [Function.update_of_ne hEq]
      exact hOrderly.loops j
  · intro r b l ms hEnd m hm hFor
    have hBefore := hOrderly.finished r b l ms hEnd m hm hFor
    change m ∈ (Function.update s.loops i c (r, b)).handed l
    by_cases hEq : (r, b) = i
    · subst hEq
      rw [Function.update_self]
      exact hFlow.handed_mono hBefore
    · rw [Function.update_of_ne hEq]
      exact hBefore
  · intro r b ms hEnd m hm hFor
    have hBefore := hOrderly.closed r b ms hEnd m hm hFor
    change m ∈ (Function.update s.loops i c (r, b)).expressed
    by_cases hEq : (r, b) = i
    · subst hEq
      rw [Function.update_self]
      exact hFlow.expressed_mono hBefore
    · rw [Function.update_of_ne hEq]
      exact hBefore

/- What the condition says of the end of a loop. -/
omit [DecidableEq α] [DecidableEq β] in
/- A loop only ends when it is settled. -/
theorem settled_of_ends
    {r b : Nat} (hRuns : (s.loops (r, b)).stopped = false)
    (hEnd :
      a = .close ∨
        a = .stop ∧ (s.loops (r, b)).switch = .running)
    (hOk : s.endsSettled (.loop r b a) = true) :
    s.settled r b
        (ForLoop r b ((s.loops (r, b)).rounds - 1)) =
      true := by
  rcases hEnd with rfl | ⟨rfl, hRunning⟩
  · simpa only [endsSettled, hRuns, Bool.false_or] using hOk
  · simp only [endsSettled, hRuns, Bool.false_or, hRunning,
      ne_eq, not_true, decide_false, Bool.and_eq_true] at hOk
    exact hOk.2

/- What is recorded at an end is in the loops. -/
theorem Orderly.record
    (hRoutes : Routes s) (hOrderly : Orderly s)
    {r b : Nat}
    (hLt :
      a = .close ∨ a = .stop → b < (s.baloops r).rounds)
    (hRunning :
      a = .close → (s.loops (r, b)).switch = .running)
    (hOk : s.endsSettled (.loop r b a) = true) :
    Orderly (s.record r b a) := by
  refine { hOrderly with finished := ?_, closed := ?_ }
  · intro r' b' l ms hEnd m hm hFor
    change m ∈ (s.loops (r', b')).handed l
    dsimp only [Node.record] at hEnd
    split at hEnd
    · rename_i hIs
      simp only [Bool.or_eq_true, Bool.and_eq_true,
        decide_eq_true_eq, Bool.not_eq_true'] at hIs
      by_cases hEq : (r', b', l) =
          (r, b, (s.loops (r, b)).rounds - 1)
      · simp only [Prod.mk.injEq] at hEq
        rcases hEq with ⟨rfl, rfl, rfl⟩
        rw [Function.update_self] at hEnd
        cases hEnd
        have hRuns : (s.loops (r', b')).stopped = false := by
          rcases hIs with h | h
          · exact h.2
          · exact h.1.2
        have hEnds :
            a = .close ∨
              a = .stop ∧
                (s.loops (r', b')).switch = .running :=
          hIs.imp And.left fun h => ⟨h.1.1, h.2⟩
        have hNow : (s.loops (r', b')).switch = .running :=
          hEnds.elim hRunning And.right
        exact
          hOrderly.handed_of_settled hRoutes
            (hLt (hEnds.imp id And.left)) hRuns
            (by simp only [RouterChain.firstOpen, hNow,
              Nat.le_refl])
            (settled_of_ends hRuns hEnds hOk) hm hFor
      · rw [Function.update_of_ne hEq] at hEnd
        exact hOrderly.finished r' b' l ms hEnd m hm hFor
    · exact hOrderly.finished r' b' l ms hEnd m hm hFor
  · intro r' b' ms hEnd m hm hFor
    change m ∈ (s.loops (r', b')).expressed
    dsimp only [Node.record] at hEnd
    split at hEnd
    · rename_i hIs
      simp only [Bool.and_eq_true, decide_eq_true_eq,
        Bool.not_eq_true'] at hIs
      rcases hIs with ⟨rfl, hRuns⟩
      by_cases hEq : (r', b') = (r, b)
      · simp only [Prod.mk.injEq] at hEq
        rcases hEq with ⟨rfl, rfl⟩
        rw [Function.update_self] at hEnd
        cases hEnd
        simp only [endsSettled, hRuns, Bool.false_or,
          Bool.and_eq_true] at hOk
        exact
          hOrderly.expressed_of_settled hRoutes
            (hLt (.inr rfl)) hRuns hOk.1 hm hFor
      · rw [Function.update_of_ne hEq] at hEnd
        exact hOrderly.closed r' b' ms hEnd m hm hFor
    · exact hOrderly.closed r' b' ms hEnd m hm hFor

/- A step of the broadcast routers keeps the order. -/
theorem Orderly.setRbcs
    (hRoutes : Routes s) (hOrderly : Orderly s)
    {c : RouterChain (Numbered (RBCMsg β))}
    (hStep : Step (rbcmsgRouting β).numbered s.rbcs a c)
    (hOk :
      s.rbcs.leavesNone (rbcmsgRouting β).numbered a =
        true) :
    Orderly { s with rbcs := c } :=
  { hOrderly with
    rbcs :=
      hOrderly.rbcs.step rfl hStep (hRoutes.rbcs.flow hStep)
        hOk }

end Step

/- The rounds of an MVBA and the agreements in it. -/
theorem Orderly.run_baloop
    {N : Nat} {s : Node α β} {r : Nat} {a : RouterAction}
    {c : RouterChain (Numbered (BAMsg α))}
    (hRoutes : Routes s) (hOrderly : Orderly s)
    (hMay : s.mayRun N (.baloop r a) = true)
    (hOk : s.careful (.baloop r a) = true)
    (hStep :
      Step (baloopRouting α).numbered (s.baloops r) a c) :
    Orderly (s.setBaloop r c) := by
  rcases Bool.and_eq_true_iff.mp hOk with ⟨hLeaves, hEnds⟩
  have hTurn := RouterChain.turn_of_step hStep
  refine hOrderly.setBaloop hRoutes hStep hLeaves ?_ ?_
  · intro b hb
    cases hTurn with
    | same _ hOpen =>
        rw [hOpen] at hb
        exact hOrderly.ended r b hb
    | start _ hOld hOpen =>
        rw [hOpen, ← hOld] at hb
        exact hOrderly.ended r b hb
    | close b' _ hRounds _ hOld hOpen =>
        rw [hOpen] at hb
        rcases Nat.lt_or_eq_of_le (Nat.le_of_lt_succ hb) with
          hLt | rfl
        · exact hOrderly.ended r b (by rw [hOld]; exact hLt)
        · simp only [endsSettled, hRounds,
            Nat.add_sub_cancel] at hEnds
          exact hEnds
  · intro hStopped b hb
    by_cases hStop : a = .stop
    · subst hStop
      simp only [mayRun, Bool.and_eq_true,
        decide_eq_true_eq] at hMay
      rcases hMay with ⟨⟨hRunning, _⟩, _⟩
      cases hStep
      by_cases hLast : b = (s.baloops r).rounds - 1
      · subst hLast
        exact hEnds
      · refine hOrderly.ended r b ?_
        simp only at hb
        simp only [RouterChain.firstOpen, hRunning]
        omega
    · have hBefore := hStep.stopped_of_ne hStop
      rw [hStopped] at hBefore
      refine hOrderly.stopped r hBefore.symm b ?_
      cases hTurn with
      | same hRounds =>
          rw [hRounds] at hb
          exact hb
      | start =>
          -- none is started when the MVBA is done
          simp only [mayRun, ← hBefore, Bool.not_true,
            Bool.and_false, Bool.false_eq_true] at hMay
      | close b' _ hRounds hRounds' =>
          rw [hRounds', ← hRounds] at hb
          exact hb

/- A careful step of the round routers keeps the order. -/
theorem Orderly.run_ba
    {N : Nat} {s : Node α β} {a : RouterAction}
    {c : RouterChain (Numbered (BAMsg α))}
    (hRoutes : Routes s) (hOrderly : Orderly s)
    (hMay : s.mayRun N (.ba a) = true)
    (hOk : s.careful (.ba a) = true)
    (hStep : Step (bamsgRouting α).numbered s.bas a c) :
    Orderly (s.setBas c) := by
  have hNot : a ≠ .stop := by
    rintro rfl
    cases hMay
  refine
    hOrderly.setBas hRoutes hStep hNot
      (Bool.and_eq_true_iff.mp hOk).1 ?_
  intro r hr
  have hTurn := RouterChain.turn_of_step hStep
  cases hTurn with
  | same _ hOpen =>
      rw [hOpen] at hr
      exact hOrderly.below r hr
  | start _ hOld hOpen =>
      rw [hOpen, ← hOld] at hr
      exact hOrderly.below r hr
  | close => cases hMay

/- A round ends when its MVBA is done. -/
theorem Orderly.run_done
    {N : Nat} {s : Node α β}
    {c : RouterChain (Numbered (BAMsg α))}
    (hRoutes : Routes s) (hOrderly : Orderly s)
    (hMay : s.mayRun N .done = true)
    (hStep : Step (bamsgRouting α).numbered s.bas .close c) :
    Orderly (s.setBas c) := by
  refine hOrderly.setBas hRoutes hStep (by simp) rfl ?_
  intro r hr
  cases hStep with
  | close r' hRunning hRounds =>
      simp only [RouterChain.firstOpen, hRounds] at hr
      rcases Nat.lt_or_eq_of_le (Nat.le_of_lt_succ hr) with
        hLt | rfl
      · refine hOrderly.below r ?_
        simp only [RouterChain.firstOpen, hRunning, hRounds]
        exact hLt
      · simpa only [mayRun, hRounds, Nat.add_sub_cancel]
          using hMay

/- Every careful step keeps the order. -/
theorem Orderly.run
    {N : Nat} {s s' : Node α β} {a : NodeAction α β}
    (hRoutes : Routes s) (hOrderly : Orderly s)
    (hMay : s.mayRun N a = true)
    (hOk : s.careful a = true)
    (hRun : s.run a = some s') :
    Orderly s' := by
  cases a with
  | receiveBA m =>
      cases hRun
      exact
        { hOrderly with bas := hOrderly.bas.arrive _ }
  | receiveRBC m =>
      cases hRun
      exact
        { hOrderly with rbcs := hOrderly.rbcs.arrive _ }
  | ba a =>
      rcases Option.map_eq_some_iff.mp hRun with
        ⟨c, hExec, rfl⟩
      exact
        hOrderly.run_ba hRoutes hMay hOk
          (step_of_exec hExec)
  | rbc a =>
      rcases Option.map_eq_some_iff.mp hRun with
        ⟨c, hExec, rfl⟩
      exact
        hOrderly.setRbcs hRoutes (step_of_exec hExec)
          (Bool.and_eq_true_iff.mp hOk).1
  | done =>
      rcases Option.bind_eq_some_iff.mp hRun with
        ⟨c, hExec, hRest⟩
      rcases Option.map_eq_some_iff.mp hRest with
        ⟨c', hExec', rfl⟩
      have hStep := step_of_exec hExec
      exact
        (hOrderly.run_done hRoutes hMay hStep).setRbcs
          (hRoutes.setBas hStep) (step_of_exec hExec') rfl
  | baloop r a =>
      rcases Option.map_eq_some_iff.mp hRun with
        ⟨c, hExec, rfl⟩
      exact
        hOrderly.run_baloop hRoutes hMay hOk
          (step_of_exec hExec)
  | loop r b a =>
      rcases Option.map_eq_some_iff.mp hRun with
        ⟨c, hExec, rfl⟩
      rcases Bool.and_eq_true_iff.mp hOk with
        ⟨hLeaves, hEnds⟩
      have hStep := step_of_exec hExec
      have hRecord : Orderly (s.record r b a) := by
        refine hOrderly.record hRoutes ?_ ?_ hEnds
        · rintro (rfl | rfl)
          · exact of_decide_eq_true hMay
          · simp only [mayRun, Bool.and_eq_true,
              decide_eq_true_eq] at hMay
            exact hMay.1
        · rintro rfl
          cases hStep with
          | close _ hRunning => exact hRunning
      exact
        hRecord.setLoop (hRoutes.record r b a) hStep hLeaves
  | output r b | route r =>
      cases hRun
      exact { hOrderly with }

/- It holds in every careful run. -/
theorem orderly
    {N : Nat} {s : Node α β}
    (hReach :
      (node α β N).ReachableBy
        (fun s a => s.careful a = true) s) :
    Orderly s := by
  refine Machine.ReachableBy.invariant Orderly orderly_new ?_
    hReach
  intro s a s' hBefore hOrderly hOk hExec
  rcases Option.ite_none_right_eq_some.mp hExec with
    ⟨hMay, hRun⟩
  exact hOrderly.run (routes hBefore) hMay hOk hRun

end Node

------------------------------------------------------------
-- What Is Delivered
------------------------------------------------------------

namespace Node

section Statements

variable {α β : Type*}

/-
  An instance that is over in no level: one that is running
  or one that is to come.
-/
structure OpenBA (s : Node α β) (r b : Nat) : Prop where
  round : s.bas.firstOpen ≤ r
  mvba : (s.baloops r).stopped = false
  baRound : (s.baloops r).firstOpen ≤ b
  ba : (s.loops (r, b)).stopped = false

/- The loop has not been closed, nor what is above it. -/
structure OpenLoop (s : Node α β) (r b l : Nat) : Prop
    extends OpenBA s r b where
  loop : (s.loops (r, b)).firstOpen ≤ l

/- A message is where routers take it to the agreement. -/
def OnWay
    (s : Node α β) (r : Nat)
    (m : Numbered (BAMsg α)) : Prop :=
  s.bas.Coming m ∨ (s.baloops r).Coming m

/- A FINISH has not reached its handler yet. -/
def FinishOnWay
    (s : Node α β) (r b : Nat)
    (m : Numbered (BAMsg α)) : Prop :=
  s.OnWay r m ∨ m ∈ (s.loops (r, b)).input ∨
    ∃ l, m ∈ ((s.loops (r, b)).routers l).hand

/- The instance that is running now. -/
structure Runs (s : Node α β) (r b l : Nat) : Prop where
  round : s.bas.switch = .running ∧ s.bas.rounds = r + 1
  baRound :
    (s.baloops r).switch = .running ∧
      (s.baloops r).rounds = b + 1
  mvba : (s.baloops r).stopped = false
  loop :
    (s.loops (r, b)).switch = .running ∧
      (s.loops (r, b)).rounds = l + 1
  ba : (s.loops (r, b)).stopped = false

end Statements

variable {α β : Type*} [DecidableEq α] [DecidableEq β]

section State

variable {s : Node α β} {r b l : Nat}
variable {m : Numbered (BAMsg α)}

/- What has come for an open agreement is on its way to it. -/
theorem Orderly.onWay_or
    (hRoutes : Routes s) (hOrderly : Orderly s)
    (hOpen : s.OpenBA r b)
    (hMem : m ∈ s.bas.arrived)
    (hRound : m.msg.mvbaRound.toInt = r)
    (hBARound : m.msg.baRound.toInt = b) :
    s.OnWay r m ∨ m ∈ (s.loops (r, b)).arrived := by
  have hTop := hOpen.round
  have hMid := hOpen.baRound
  have hLevel :
      (s.bas.firstOpen : Int) ≤ m.msg.mvbaRound.toInt := by
    omega
  have hLevel' :
      ((s.baloops r).firstOpen : Int) ≤
        m.msg.baRound.toInt := by
    omega
  rcases hOrderly.bas.coming_or hRoutes.bas.placed
      hRoutes.bas.located hMem rfl hLevel with
    hComing | ⟨r', hHanded⟩
  · exact .inl (.inl hComing)
  · have hSame : m.msg.mvbaRound.toInt = r' :=
      (hRoutes.bas.placed.place (.handed r') m hHanded).2.1
    obtain rfl : r' = r := by omega
    rw [← hRoutes.baLink r'] at hHanded
    have hSound := hRoutes.baloops r'
    rcases (hOrderly.baloops r').coming_or hSound.placed
        hSound.located hHanded rfl hLevel' with
      hComing | ⟨b', hHanded'⟩
    · exact .inl (.inr hComing)
    · have hSame' : m.msg.baRound.toInt = b' :=
        (hSound.placed.place (.handed b') m hHanded').2.1
      obtain rfl : b' = b := by omega
      rw [hRoutes.loopLink (r', b')]
      exact .inr hHanded'

/- A message for an open loop is on its way or there. -/
theorem Orderly.coming
    (hRoutes : Routes s) (hOrderly : Orderly s)
    (hOpen : s.OpenLoop r b l)
    (hMem : m ∈ s.bas.arrived) (hFor : ForLoop r b l m.msg) :
    s.OnWay r m ∨ (s.loops (r, b)).Coming m ∨
      m ∈ (s.loops (r, b)).handed l := by
  rcases hFor with ⟨hRound, hBARound, hType, hLoop⟩
  rcases hOrderly.onWay_or hRoutes hOpen.toOpenBA hMem
      hRound hBARound with hWay | hHere
  · exact .inl hWay
  · have hSound := hRoutes.loops (r, b)
    have hLevel :
        ((s.loops (r, b)).firstOpen : Int) ≤
          m.msg.loop.toInt := by
      have hFirst := hOpen.loop
      omega
    rcases (hOrderly.loops (r, b)).coming_or hSound.placed
        hSound.located hHere (decide_eq_false hType)
        hLevel with hComing | ⟨l', hHanded⟩
    · exact .inr (.inl hComing)
    · have hSame : m.msg.loop.toInt = l' :=
        (hSound.placed.place (.handed l') m hHanded).2.1
      obtain rfl : l' = l := by omega
      exact .inr (.inr hHanded)

/- A FINISH is on its way or has come out. -/
theorem Orderly.comingBA
    (hRoutes : Routes s) (hOrderly : Orderly s)
    (hOpen : s.OpenBA r b)
    (hMem : m ∈ s.bas.arrived) (hFor : ForBA r b m.msg) :
    s.FinishOnWay r b m ∨ m ∈ (s.loops (r, b)).expressed := by
  rcases hFor with ⟨hRound, hBARound, hType⟩
  rcases hOrderly.onWay_or hRoutes hOpen hMem hRound
      hBARound with hWay | hHere
  · exact .inl (.inl hWay)
  · have hSound := hRoutes.loops (r, b)
    rcases RouterChain.express_or hSound.placed
        hSound.located hHere (decide_eq_true hType) with
      h | h | h
    · exact .inl (.inr (.inl h))
    · exact .inl (.inr (.inr h))
    · exact .inr h

/- A broadcast message is on its way or there. -/
theorem Orderly.comingRBC
    (hRoutes : Routes s) (hOrderly : Orderly s)
    {m : Numbered (RBCMsg β)}
    (hOpen : s.rbcs.firstOpen ≤ r)
    (hMem : m ∈ s.rbcs.arrived)
    (hRound : m.msg.round.toInt = r) :
    s.rbcs.Coming m ∨ m ∈ s.rbcs.handed r := by
  have hLevel :
      (s.rbcs.firstOpen : Int) ≤ m.msg.round.toInt := by
    omega
  rcases hOrderly.rbcs.coming_or hRoutes.rbcs.placed
      hRoutes.rbcs.located hMem rfl hLevel with
    hComing | ⟨r', hHanded⟩
  · exact .inl hComing
  · have hSame : m.msg.round.toInt = r' :=
      (hRoutes.rbcs.placed.place (.handed r') m hHanded).2.1
    obtain rfl : r' = r := by omega
    exact .inr hHanded

omit [DecidableEq α] [DecidableEq β] in
/- A loop that runs is open. -/
theorem Runs.openLoop
    (hRuns : s.Runs r b l) : s.OpenLoop r b l where
  round := by
    rcases hRuns.round with ⟨hRunning, hRounds⟩
    simp only [RouterChain.firstOpen, hRunning, hRounds,
      Nat.add_sub_cancel, Nat.le_refl]
  mvba := hRuns.mvba
  baRound := by
    rcases hRuns.baRound with ⟨hRunning, hRounds⟩
    simp only [RouterChain.firstOpen, hRunning, hRounds,
      Nat.add_sub_cancel, Nat.le_refl]
  ba := hRuns.ba
  loop := by
    rcases hRuns.loop with ⟨hRunning, hRounds⟩
    simp only [RouterChain.firstOpen, hRunning, hRounds,
      Nat.add_sub_cancel, Nat.le_refl]

/- What an agreement has has come to the node. -/
theorem Routes.arrived
    (hRoutes : Routes s)
    (hMem : m ∈ (s.loops (r, b)).arrived) :
    m ∈ s.bas.arrived := by
  rw [hRoutes.loopLink (r, b)] at hMem
  have hHere : m ∈ (s.baloops r).arrived :=
    (hRoutes.baloops r).located.arrived (.handed b) hMem
  rw [hRoutes.baLink r] at hHere
  exact hRoutes.bas.located.arrived (.handed r) hHere

/- A message of a known type makes no router panic. -/
theorem Routes.panics
    (hRoutes : Routes s)
    (hKnown :
      ∀ m ∈ s.bas.arrived,
        ([1, 2, 3, 4] : List Int32).contains m.msg.type =
          true)
    (hHolding : (s.loops (r, b)).routers l = .holding m) :
    (loopmsgRouting α r b).numbered.panics l m = false := by
  have hExpected := hRoutes.exact.expected r b l m hHolding
  have hHeld : m ∈ (s.loops (r, b)).contents (.held l) := by
    simp only [RouterChain.contents, hHolding, Router.hand,
      List.mem_singleton]
  have hType :=
    hKnown m
      (hRoutes.arrived
        ((hRoutes.loops (r, b)).located.arrived _ hHeld))
  simp only [Routing.numbered, loopmsgRouting, hExpected,
    Bool.or_self, Bool.false_or]
  unfold wrongType
  by_cases hFour : m.msg.type = 4
  · simp [hFour]
  · have hIn :
        ([1, 2, 3] : List Int32).contains m.msg.type =
          true := by
      simp only [List.contains_eq_mem, List.mem_cons,
        List.not_mem_nil, or_false, decide_eq_true_eq,
        hFour] at hType ⊢
      exact hType
    rw [hIn, Bool.not_true, Bool.and_false]

end State

end Node

------------------------------------------------------------
-- What Is Delivered through Bounded Channels
------------------------------------------------------------

namespace BoundedNode

open RouterChain (Drains Resting)

variable {α β : Type*}

/- The condition of the node, and that buffers have room. -/
def careful
    (s : BoundedNode α β) : BoundedAction α β → Bool
| .act a => s.toNode.careful a && s.leavesRoom a
| _ => true

/-
  No router of the three levels can take a step, and the
  goroutines of the loop have taken all that is there.
-/
structure Stuck
    (N : Nat) (s : BoundedNode α β) (r b l : Nat) :
    Prop where
  bas :
    ∀ a : RouterAction, a.isRouter = true →
      s.bas.execBounded (bamsgRouting α).numbered s.basFull
        a = none
  baloops :
    ∀ a : RouterAction, a.isRouter = true →
      (s.baloops r).execBounded (baloopRouting α).numbered
        (s.baloopsFull r) a = none
  loops :
    ∀ a : RouterAction, a.isRouter = true →
      (s.loops (r, b)).execBounded
        (loopmsgRouting α r b).numbered (s.loopsFull r b)
        a = none
  takeLoop :
    ∀ type, s.exec N (.takeLoop r b l type) = none
  takeFinish : s.exec N (.takeFinish r b) = none

/- Emptying a buffer never waits, and no message is lost. -/
structure Lossless
    [DecidableEq α] [DecidableEq β]
    (N : Nat) (s : BoundedNode α β) : Prop where
  bas : Drains (bamsgRouting α).numbered s.basFull s.bas
  rbcs : Drains (rbcmsgRouting β).numbered s.rbcsFull s.rbcs
  baloops :
    ∀ r, Drains (baloopRouting α).numbered (s.baloopsFull r)
      (s.baloops r)
  loops :
    ∀ r b, Drains (loopmsgRouting α r b).numbered
      (s.loopsFull r b) (s.loops (r, b))
  -- what had come by the end of an instance
  finished :
    ∀ r b l ms, s.finished (r, b, l) = some ms →
      ∀ m ∈ ms, ForLoop r b l m.msg →
        ((s.loops (r, b)).handed l).count m = 1
  closed :
    ∀ r b ms, s.closed (r, b) = some ms →
      ∀ m ∈ ms, ForBA r b m.msg →
        (s.loops (r, b)).expressed.count m = 1
  -- what has come for one that is not over
  coming :
    ∀ r b l, s.OpenLoop r b l →
      ∀ m ∈ s.bas.arrived, ForLoop r b l m.msg →
        s.OnWay r m ∨ (s.loops (r, b)).Coming m ∨
          ((s.loops (r, b)).handed l).count m = 1
  comingBA :
    ∀ r b, s.OpenBA r b →
      ∀ m ∈ s.bas.arrived, ForBA r b m.msg →
        s.FinishOnWay r b m ∨
          (s.loops (r, b)).expressed.count m = 1
  comingRBC :
    ∀ r : Nat, s.rbcs.firstOpen ≤ r →
      ∀ m ∈ s.rbcs.arrived, m.msg.round.toInt = r →
        s.rbcs.Coming m ∨ (s.rbcs.handed r).count m = 1
  -- when neither routers nor handlers can do any more
  rest :
    ∀ r b l, s.Runs r b l → s.Stuck N r b l →
      (∀ m ∈ s.bas.arrived,
        ([1, 2, 3, 4] : List Int32).contains m.msg.type =
          true) →
        ∀ m ∈ s.bas.arrived,
          (ForLoop r b l m.msg →
              ((s.loops (r, b)).handed l).count m = 1) ∧
            (ForBA r b m.msg →
              (s.loops (r, b)).expressed.count m = 1)

section Rest

variable [DecidableEq α] [DecidableEq β]
variable {N : Nat} {s : BoundedNode α β} {r b l : Nat}

/- A channel from which nothing can be taken is empty. -/
omit [DecidableEq α] [DecidableEq β] in
/- Where nothing can step, all messages have been taken. -/
theorem Stuck.loopCH
    (hStuck : s.Stuck N r b l) (type : Int32) :
    s.loopCH r b l type = [] := by
  have hNone := hStuck.takeLoop type
  simp only [exec] at hNone
  split at hNone
  · rename_i hEmpty
    exact List.isEmpty_iff.mp hEmpty
  · cases hNone

omit [DecidableEq α] [DecidableEq β] in
/- Where nothing can step, every FINISH has been taken. -/
theorem Stuck.finishCH
    (hStuck : s.Stuck N r b l) : s.finishCH r b = [] := by
  have hNone := hStuck.takeFinish
  simp only [exec] at hNone
  split at hNone
  · rename_i hEmpty
    exact List.isEmpty_iff.mp hEmpty
  · cases hNone

/-
  The routers come to rest from the loop upwards: a router
  only waits for the channel to the level below, which is
  empty once that level rests.
-/
theorem Stuck.resting
    (hRoutes : Node.Routes s.toNode)
    (hOrderly : Node.Orderly s.toNode)
    (hSpacious : Spacious s.toNode)
    (hRuns : s.Runs r b l) (hStuck : s.Stuck N r b l)
    (hKnown :
      ∀ m ∈ s.bas.arrived,
        ([1, 2, 3, 4] : List Int32).contains m.msg.type =
          true) :
    Resting (bamsgRouting α).numbered s.bas r ∧
      Resting (baloopRouting α).numbered (s.baloops r) b ∧
        Resting (loopmsgRouting α r b).numbered
          (s.loops (r, b)) l := by
  have hBas := hRoutes.bas
  have hBaloops := hRoutes.baloops r
  have hLoops := hRoutes.loops (r, b)
  have hRestLoops :
      Resting (loopmsgRouting α r b).numbered
        (s.loops (r, b)) l := by
    refine RouterChain.resting_of_stuck hLoops.alive
      hRuns.loop.2
      (RouterChain.told_of_running hLoops.placed
        hRuns.loop.1 hRuns.loop.2 hRuns.ba)
      (fun _ _ hHolding => hRoutes.panics hKnown hHolding)
      (fun l' _ => ?_) (fun _ => ?_) (fun m => ?_)
      hStuck.loops
    · have hRoom := hSpacious.loops (r, b) l'
      exact decide_eq_false (Nat.not_le.mpr hRoom)
    · simp only [loopsFull, hStuck.finishCH]
      rfl
    · simp only [loopsFull, hStuck.loopCH]
      rfl
  have hRestBaloops :
      Resting (baloopRouting α).numbered (s.baloops r) b := by
    refine RouterChain.resting_of_stuck hBaloops.alive
      hRuns.baRound.2
      (RouterChain.told_of_running hBaloops.placed
        hRuns.baRound.1 hRuns.baRound.2 hRuns.mvba)
      (fun _ _ _ => rfl) (fun b' _ => ?_) (fun _ => rfl)
      (fun m => ?_) hStuck.baloops
    · have hRoom := hSpacious.baloops r b'
      exact decide_eq_false (Nat.not_le.mpr hRoom)
    · simp only [baloopsFull, hRestLoops.input]
      rfl
  refine ⟨?_, hRestBaloops, hRestLoops⟩
  refine RouterChain.resting_of_stuck hBas.alive
    hRuns.round.2
    (RouterChain.told_of_running hBas.placed hRuns.round.1
      hRuns.round.2 hOrderly.basRuns)
    (fun _ _ _ => rfl) (fun r' _ => ?_) (fun _ => rfl)
    (fun m => ?_) hStuck.bas
  · have hRoom := hSpacious.bas r'
    exact decide_eq_false (Nat.not_le.mpr hRoom)
  · simp only [basFull, hRestBaloops.input]
    rfl

/- When no router can go on all is where it belongs. -/
theorem Stuck.rest
    (hRoutes : Node.Routes s.toNode)
    (hOrderly : Node.Orderly s.toNode)
    (hSpacious : Spacious s.toNode)
    (hRuns : s.Runs r b l) (hStuck : s.Stuck N r b l)
    (hKnown :
      ∀ m ∈ s.bas.arrived,
        ([1, 2, 3, 4] : List Int32).contains m.msg.type =
          true)
    {m : Numbered (BAMsg α)} (hMem : m ∈ s.bas.arrived) :
    (ForLoop r b l m.msg →
        m ∈ (s.loops (r, b)).handed l) ∧
      (ForBA r b m.msg →
        m ∈ (s.loops (r, b)).expressed) := by
  rcases hStuck.resting hRoutes hOrderly hSpacious hRuns
      hKnown with ⟨hRestBas, hRestBaloops, hRestLoops⟩
  have hNotWay :
      m.msg.mvbaRound.toInt = r →
        m.msg.baRound.toInt = b → ¬ s.OnWay r m := by
    intro hRound hBARound hWay
    rcases hWay with h | h
    · exact
        hRestBas.not_coming hRoutes.bas.placed
          hRuns.round.1 hRuns.round.2 hRound h
    · exact
        hRestBaloops.not_coming (hRoutes.baloops r).placed
          hRuns.baRound.1 hRuns.baRound.2 hBARound h
  constructor
  · intro hFor
    rcases hOrderly.coming hRoutes hRuns.openLoop hMem
        hFor with h | h | h
    · exact absurd h (hNotWay hFor.1 hFor.2.1)
    · exact
        absurd h
          (hRestLoops.not_coming
            (hRoutes.loops (r, b)).placed hRuns.loop.1
            hRuns.loop.2 hFor.2.2.2)
    · exact h
  · intro hFor
    rcases hOrderly.comingBA hRoutes
        hRuns.openLoop.toOpenBA hMem hFor with
      (h | h | ⟨l', h⟩) | h
    · exact absurd h (hNotWay hFor.1 hFor.2.1)
    · rw [hRestLoops.input] at h
      cases h
    · exact
        absurd h
          (hRestLoops.not_held (decide_eq_true hFor.2.2) l')
    · exact h

/-
  With room everywhere, nothing is lost and nothing is
  stuck.
-/
theorem lossless
    (hRoutes : Node.Routes s.toNode)
    (hOrderly : Node.Orderly s.toNode)
    (hSpacious : Spacious s.toNode) :
    s.Lossless N := by
  have hOnce :
      ∀ r b l m, m ∈ (s.loops (r, b)).handed l →
        ((s.loops (r, b)).handed l).count m = 1 :=
    fun r b l m h =>
      (hRoutes.loops (r, b)).located.count_eq (.handed l) h
  have hOnceBA :
      ∀ r b m, m ∈ (s.loops (r, b)).expressed →
        (s.loops (r, b)).expressed.count m = 1 :=
    fun r b m h =>
      (hRoutes.loops (r, b)).located.count_eq .expressed h
  exact
    { bas := hOrderly.bas.drains fun r _ =>
        decide_eq_false (Nat.not_le.mpr (hSpacious.bas r))
      rbcs := hOrderly.rbcs.drains fun r _ =>
        decide_eq_false (Nat.not_le.mpr (hSpacious.rbcs r))
      baloops := fun r =>
        (hOrderly.baloops r).drains fun b _ =>
          decide_eq_false
            (Nat.not_le.mpr (hSpacious.baloops r b))
      loops := fun r b =>
        (hOrderly.loops (r, b)).drains fun l _ =>
          decide_eq_false
            (Nat.not_le.mpr (hSpacious.loops (r, b) l))
      finished := fun r b l ms hEnd m hm hFor =>
        hOnce r b l m
          (hOrderly.finished r b l ms hEnd m hm hFor)
      closed := fun r b ms hEnd m hm hFor =>
        hOnceBA r b m
          (hOrderly.closed r b ms hEnd m hm hFor)
      coming := fun r b l hOpen m hm hFor =>
        (hOrderly.coming hRoutes hOpen hm hFor).imp id
          (Or.imp id (hOnce r b l m))
      comingBA := fun r b hOpen m hm hFor =>
        (hOrderly.comingBA hRoutes hOpen hm hFor).imp id
          (hOnceBA r b m)
      comingRBC := fun r hOpen m hm hRound =>
        (hOrderly.comingRBC hRoutes hOpen hm hRound).imp id
          (hRoutes.rbcs.located.count_eq (.handed r))
      rest := fun r b l hRuns hStuck hKnown m hm =>
        (hStuck.rest hRoutes hOrderly hSpacious hRuns hKnown
          hm).imp
          (fun h hFor => hOnce r b l m (h hFor))
          fun h hFor => hOnceBA r b m (h hFor) }

end Rest

end BoundedNode

/-
  In every run an instance gets nothing but its own messages,
  each once, and the panics at those of another round are
  never reached. In every run whose steps meet the condition
  no message for an instance is lost, and emptying a buffer
  waits neither for a message that is gone nor for room.
-/
theorem levels_routed
    (α β : Type*) [DecidableEq α] [DecidableEq β] (N : Nat) :
    (∀ s, (boundedNode α β N).Reachable s →
        s.toNode.Exact) ∧
      ∀ s,
        (boundedNode α β N).ReachableBy
            (fun s a => s.careful a = true) s →
          s.Lossless N := by
  constructor
  · intro s hReach
    have hNode : (node α β N).Reachable s.toNode :=
      BoundedNode.reachable_node (fun _ _ _ => trivial) hReach
    exact (Node.routes hNode).exact
  · intro s hReach
    have hNode :
        (node α β N).ReachableBy
          (fun s a => s.careful a = true) s.toNode :=
      BoundedNode.reachable_node
        (fun _ _ hOk => (Bool.and_eq_true_iff.mp hOk).1)
        hReach
    have hSpacious :=
      BoundedNode.spacious
        (fun _ _ hOk => (Bool.and_eq_true_iff.mp hOk).2)
        hReach
    exact
      BoundedNode.lossless (Node.routes hNode)
        (Node.orderly hNode) hSpacious

------------------------------------------------------------
-- A Run that Delivers and One that Waits Forever
------------------------------------------------------------

/- A message two loops ahead of the first. -/
def aheadMsg : BAMsg Unit :=
  ⟨1, 0, 0, 2, 1, ()⟩

/- A router takes a message from the input and hands it on. -/
def takeInput (r : Nat) : List RouterAction :=
  [.check r, .readInput r, .forward r]

/-
  The message comes to the router of loop 0, which puts it in
  its buffer, and loop 1 starts and ends with its router at
  the select.
-/
def aheadRun : List (NodeAction Unit Unit) :=
  ([.ba .next, .ba .start, .rbc .next, .rbc .start,
      .baloop 0 .next, .baloop 0 .start, .loop 0 0 .next,
      .loop 0 0 .start, .receiveBA aheadMsg]
        : List (NodeAction Unit Unit)) ++
    ((takeInput 0).map .ba : List (NodeAction Unit Unit)) ++
      ((takeInput 0).map (.baloop 0)
        : List (NodeAction Unit Unit)) ++
        ((takeInput 0).map (.loop 0 0)
          : List (NodeAction Unit Unit)) ++
          ([.loop 0 0 (.check 0), .loop 0 0 .close,
            .loop 0 0 (.quit 0), .loop 0 0 .next,
            .loop 0 0 .start, .loop 0 0 (.check 1),
            .loop 0 0 .close, .loop 0 0 .next]
              : List (NodeAction Unit Unit))

/- A message that came two loops early is delivered. -/
def deliveredRun : List (NodeAction Unit Unit) :=
  aheadRun ++
    ([.loop 0 0 (.quit 1), .loop 0 0 .drain,
      .loop 0 0 .start, .loop 0 0 (.check 2),
      .loop 0 0 (.readBuffer 2), .loop 0 0 (.forward 2)]
        : List (NodeAction Unit Unit))

/- Where the careful run ends. -/
def deliveredNode : BoundedNode Unit Unit :=
  (boundedNode Unit Unit 4).drive (fun s a => s.careful a)
    (boundedNode Unit Unit 4).init (deliveredRun.map .act)

/- The message is handed on in its own loop. -/
theorem levels_routed_ahead :
    deliveredNode.Lossless 4 ∧
      (deliveredNode.loops (0, 0)).handed 2 =
        [⟨0, aheadMsg⟩] := by
  have hReach :
      (boundedNode Unit Unit 4).ReachableBy
        (fun s a => s.careful a = true) deliveredNode :=
    Machine.ReachableBy.drive .init _
  exact
    ⟨(levels_routed Unit Unit 4).2 _ hReach,
      by decide +kernel⟩

/-
  The router of loop 1 takes the message that has been
  counted, and the goroutine that empties the buffer waits.
-/
def waitingRun : List (NodeAction Unit Unit) :=
  aheadRun ++
    [.loop 0 0 (.readBuffer 1), .loop 0 0 (.forward 1),
      .loop 0 0 (.check 1)]

/- A router still holds a message for the loop after next. -/
def waitingNode : BoundedNode Unit Unit :=
  (boundedNode Unit Unit 4).drive (fun _ _ => true)
    (boundedNode Unit Unit 4).init (waitingRun.map .act)

theorem waitingNode_reachable :
    (boundedNode Unit Unit 4).Reachable waitingNode :=
  Machine.reachable_drive _ _

/- All routers of the first loops have returned. -/
theorem waitingNode_routers (r : Nat) :
    (waitingNode.loops (0, 0)).routers r =
      if r < 2 then .returned else .absent := by
  have hNode : (node Unit Unit 4).Reachable waitingNode.toNode :=
    BoundedNode.reachable_node (fun _ _ _ => trivial)
      waitingNode_reachable
  have hPlaced := ((Node.routes hNode).loops (0, 0)).placed
  have hRounds : (waitingNode.loops (0, 0)).rounds = 2 := by
    decide +kernel
  split
  · rename_i hLt
    interval_cases r <;> decide +kernel
  · rename_i hNot
    exact hPlaced.absent r (by omega)

/-
  The routers have returned, and the agreement starts no loop
  any more: it can only be closed.
-/
theorem drain_waits :
    (boundedNode Unit Unit 4).Reachable waitingNode ∧
      (∀ a, a ≠ .stop →
        (waitingNode.loops (0, 0)).exec
            (loopmsgRouting Unit 0 0).numbered a = none) ∧
        ¬ waitingNode.Lossless 4 := by
  have hSwitch :
      (waitingNode.loops (0, 0)).switch = .draining 1 := by
    decide +kernel
  have hRounds : (waitingNode.loops (0, 0)).rounds = 2 := by
    decide +kernel
  have hBuffer : (waitingNode.loops (0, 0)).buffers 1 = [] := by
    decide +kernel
  have hStuck :
      ∀ a, a ≠ .stop →
        (waitingNode.loops (0, 0)).exec
            (loopmsgRouting Unit 0 0).numbered a = none := by
    intro a hNot
    cases a with
    | next | start | close =>
        simp only [RouterChain.exec, hSwitch]
    | drain =>
        simp only [RouterChain.exec, hSwitch, hRounds,
          RouterChain.drain, hBuffer]
    | stop => exact absurd rfl hNot
    | check r | quit r | readInput r | readBuffer r
    | forward r =>
        simp only [RouterChain.exec, waitingNode_routers r]
        split_ifs <;> rfl
  refine ⟨waitingNode_reachable, hStuck, ?_⟩
  intro hLossless
  have hSome := hLossless.loops 0 0 0 hSwitch
  rw [RouterChain.execBounded, hStuck .drain (by simp),
    ite_self] at hSome
  cases hSome

end Routing

end Jumbo
