import Jumbo.BinaryAgreement.Duties

/-
  What all goroutines of a party owe, in every run.

  Main declarations:
    * `PartyDuties`
    * `partyDuties`
-/

------------------------------------------------------------
-- Steps of One Party
------------------------------------------------------------

namespace Jumbo

namespace BinaryAgreement

variable {n : Nat}

/-
  What a party has sent for what it has counted, in all its
  loops.
-/
structure PartyDuties
    (sent : List (BAMsg n)) (id : Fin n) (ba : BA) :
    Prop where
  loops :
    ba.launched = true → ∀ loop, loop ≤ ba.loop →
      LoopDuties sent id loop (ba.loops loop)
  main : MainDuties n ba.info ba.main
  earlier :
    ∀ loop, loop < ba.loop →
      ConfPassed n (ba.loops loop).counts ∧
        CoinPassed n (ba.loops loop).counts
  finish : FinishDuties sent id ba

section Steps

variable {sent ms : List (BAMsg n)} {id : Fin n}
variable {loop : Nat} {info : LoopInfo} {main : Main}
variable {ba ba' : BA}

/- More that has been sent keeps what is owed of FINISH. -/
theorem FinishDuties.append
    (hFinish : FinishDuties sent id ba) :
    FinishDuties (sent ++ ms) id ba :=
  { hFinish with
    decided := fun b hb =>
      (hFinish.decided b hb).imp_right
        (List.mem_append_left _)
    amplify := fun b hb =>
      (hFinish.amplify b hb).imp_right
        (List.mem_append_left _)
    token := by
      intro hLaunched
      rcases hFinish.token hLaunched with hPos | ⟨b, hb⟩
      · exact Or.inl hPos
      · exact Or.inr ⟨b, List.mem_append_left _ hb⟩ }

/- More that has been sent keeps the duties of the party. -/
theorem PartyDuties.append
    (hParty : PartyDuties sent id ba) :
    PartyDuties (sent ++ ms) id ba :=
  { hParty with
    loops := fun hLaunched loop hLoop =>
      (hParty.loops hLaunched loop hLoop).append
    finish := hParty.finish.append }

/- Replacing one loop by a later version of it. -/
theorem PartyDuties.setLoop
    (hParty : PartyDuties sent id ba)
    (hLaunched : ba.launched = true)
    (hInfo : LoopDuties sent id loop info)
    (hLe : CountsLe (ba.loops loop).counts info.counts)
    (hMain :
      loop = ba.loop → MainDuties n info ba.main) :
    PartyDuties sent id (ba.setLoop loop info) where
  loops := by
    intro _ loop' hLoop'
    by_cases hEq : loop' = loop
    · subst hEq
      rw [BA.setLoop_self]
      exact hInfo
    · rw [BA.setLoop_of_ne _ _ hEq]
      exact hParty.loops hLaunched loop' hLoop'
  main := by
    unfold BA.info
    by_cases hEq : loop = ba.loop
    · rw [BA.setLoop_loop, ← hEq, BA.setLoop_self]
      exact hMain hEq
    · rw [BA.setLoop_loop,
        BA.setLoop_of_ne _ _ (Ne.symm hEq)]
      exact hParty.main
  earlier := by
    intro loop' hLt
    by_cases hEq : loop' = loop
    · subst hEq
      rw [BA.setLoop_self]
      have hOld := hParty.earlier loop' hLt
      exact ⟨hOld.1.mono hLe, hOld.2.mono hLe⟩
    · rw [BA.setLoop_of_ne _ _ hEq]
      exact hParty.earlier loop' hLt
  finish := { hParty.finish with }

/- The main goroutine moves on within its loop. -/
theorem PartyDuties.setMain
    (hParty : PartyDuties sent id ba)
    (hLaunched : ba.launched = true)
    (hInfo : LoopDuties sent id ba.loop info)
    (hMain : MainDuties n info main)
    (hNot : ∀ b, main ≠ .decided b) :
    PartyDuties sent id
      { ba.setLoop ba.loop info with main := main } where
  loops := by
    intro _ loop hLoop
    by_cases hEq : loop = ba.loop
    · subst hEq
      rw [BA.setLoop_self]
      exact hInfo
    · rw [BA.setLoop_of_ne _ _ hEq]
      exact hParty.loops hLaunched loop hLoop
  main := by
    simpa [BA.info, BA.setLoop] using hMain
  earlier := by
    intro loop hLt
    have hNe : loop ≠ ba.loop := Nat.ne_of_lt hLt
    rw [BA.setLoop_of_ne _ _ hNe]
    exact hParty.earlier loop hLt
  finish :=
    { hParty.finish with
      decided := fun b hb => absurd hb (hNot b)
      token := fun _ => hParty.finish.token hLaunched }

/- So does the start of a loop after one that is passed. -/
theorem PartyDuties.startLoop
    (input : Bool)
    (hParty : PartyDuties sent id ba)
    (hNew :
      ba.launched = true →
        ba.loop + 1 = loop ∧ ConfPassed n ba.info.counts ∧
          CoinPassed n ba.info.counts)
    (hFirst : ba.launched = false → loop = 0) :
    PartyDuties sent id (ba.startLoop loop input) where
  loops := by
    intro _ loop' hLoop'
    by_cases hEq : loop' = loop
    · subst hEq
      have hStarted :
          (ba.startLoop loop' input).loops loop' =
            LoopInfo.new input := by
        simp [BA.startLoop]
      rw [hStarted]
      exact .new input
    · have hLe : loop' ≤ loop := hLoop'
      cases hLaunched : ba.launched with
      | true =>
          have hNext := (hNew hLaunched).1
          have hOld :=
            hParty.loops hLaunched loop' (by omega)
          simpa [BA.startLoop, Function.update_of_ne hEq]
            using hOld
      | false =>
          have hZero := hFirst hLaunched
          omega
  main := by
    simpa [BA.startLoop, BA.info] using MainDuties.new input
  earlier := by
    intro loop' hLt
    have hLt' : loop' < loop := hLt
    cases hLaunched : ba.launched with
    | true =>
        rcases hNew hLaunched with ⟨hNext, hConf, hCoin⟩
        have hNe : loop' ≠ loop := Nat.ne_of_lt hLt'
        have hSame :
            (ba.startLoop loop input).loops loop' =
              ba.loops loop' := by
          simp [BA.startLoop, Function.update_of_ne hNe]
        rw [hSame]
        by_cases hEq : loop' = ba.loop
        · rw [hEq]
          exact ⟨hConf, hCoin⟩
        · exact hParty.earlier loop' (by omega)
    | false =>
        have hZero := hFirst hLaunched
        omega
  finish :=
    { hParty.finish with
      decided := fun b hb => by cases hb
      token := fun _ => Or.inl (Nat.succ_pos _) }

/- A FINISH that is counted keeps what is owed of it. -/
theorem FinishDuties.handleFinish
    {value : Bool}
    (hFaults : 0 < faults n)
    (hNone : ba.output = none)
    (hFinish : FinishDuties sent id ba) :
    FinishDuties sent id
      (handleFinish (faults n) ba value) := by
  have hOld :
      ∀ quota b, quota ≠ bump ba.finishCount value value →
        quota ≤ bump ba.finishCount value b →
          quota ≤ ba.finishCount b := by
    intro quota b hNe hb
    by_cases hEq : b = value
    · subst hEq
      simp only [bump_apply, if_true] at hNe hb
      omega
    · simpa [hEq] using hb
  unfold BinaryAgreement.handleFinish
  dsimp only
  split
  · rename_i hRelay
    exact
      { decided := fun b hb =>
          (hFinish.decided b hb).imp_left
            (List.mem_append_left _)
        amplify := by
          intro b hb
          by_cases hEq : b = value
          · exact Or.inl
              (List.mem_append_right _ (by simp [hEq]))
          · have hCount :
                faults n + 1 ≤ ba.finishCount b := by
              simpa [hEq] using hb
            exact (hFinish.amplify b hCount).imp_left
              (List.mem_append_left _)
        token := hFinish.token
        outputNone := by
          intro _ b
          have hBound := hFinish.outputNone hNone b
          by_cases hEq : b = value
          · rw [hEq]
            dsimp only
            rw [hRelay]
            omega
          · simpa [hEq] using hBound
        outputSome := by
          intro b hb
          rw [hNone] at hb
          cases hb }
  · rename_i hNotRelay
    have hAmplify :
        ∀ b, faults n + 1 ≤ bump ba.finishCount value b →
          b ∈ ba.sendFinishSignal ∨
            BA.finishMsg id b ∈ sent := fun b hb =>
      hFinish.amplify b (hOld _ b (Ne.symm hNotRelay) hb)
    split
    · rename_i hQuorum
      exact
        { decided := hFinish.decided
          amplify := hAmplify
          token := hFinish.token
          outputNone := fun hEq => by cases hEq
          outputSome := by
            intro b hb
            cases hb
            exact Nat.le_of_eq hQuorum.symm }
    · rename_i hNotQuorum
      exact
        { decided := hFinish.decided
          amplify := hAmplify
          token := hFinish.token
          outputNone := by
            intro _ b
            have hBound := hFinish.outputNone hNone b
            by_cases hEq : b = value
            · subst hEq
              simp only [bump_apply, if_true]
                at hNotQuorum ⊢
              omega
            · simpa [hEq] using hBound
          outputSome := by
            intro b hb
            rw [hNone] at hb
            cases hb }

/- A message keeps the duties of the party. -/
theorem PartyDuties.receive
    {m : BAMsg n}
    (hFaults : 0 < faults n)
    (hParty : PartyDuties sent id ba)
    (hLaunched : ba.launched = true)
    (hReceive : ba.receive id m = some ba') :
    PartyDuties sent id ba' := by
  rcases receive_cases hReceive with
    ⟨_, hLoop, hEq⟩ | ⟨_, hNone, hEq⟩
  · rw [hEq]
    apply hParty.setLoop hLaunched
    · exact (hParty.loops hLaunched m.loop
        hLoop).loopReceive hFaults m
    · exact loopReceive_counts_le _ _ _
    · intro hCurrent
      rw [hCurrent]
      exact hParty.main.loopReceive hFaults m
  · rw [hEq]
    exact
      { loops := by
          intro _ loop hLoop'
          rw [handleFinish_loop] at hLoop'
          rw [handleFinish_loops]
          exact hParty.loops hLaunched loop hLoop'
        main := by
          rw [BA.info, handleFinish_loop,
            handleFinish_loops, handleFinish_main]
          exact hParty.main
        earlier := by
          intro loop hLt
          rw [handleFinish_loop] at hLt
          rw [handleFinish_loops]
          exact hParty.earlier loop hLt
        finish := hParty.finish.handleFinish hFaults hNone }

/- So does the coin. -/
theorem PartyDuties.elect
    {cfg : Config}
    (hParty : PartyDuties sent id ba)
    (hLaunched : ba.launched = true)
    (hMain : ba.main = .elect) :
    PartyDuties sent id (ba.elect cfg) := by
  have hPassed := hParty.main
  rw [hMain] at hPassed
  rcases elect_cases cfg ba with
    ⟨value, hEq⟩ | ⟨input, hEq⟩
  · rw [hEq]
    exact
      { loops := fun _ => hParty.loops hLaunched
        main := hPassed
        earlier := hParty.earlier
        finish :=
          { hParty.finish with
            decided := by
              intro b hb
              cases hb
              exact Or.inl
                (List.mem_append_right _ List.mem_cons_self)
            amplify := fun b hb =>
              (hParty.finish.amplify b hb).imp_left
                (List.mem_append_left _)
            token := fun _ =>
              hParty.finish.token hLaunched } }
  · rw [hEq]
    apply hParty.startLoop
    · exact fun _ => ⟨rfl, hPassed.1, hPassed.2⟩
    · intro hIdle
      rw [hLaunched] at hIdle
      cases hIdle

/- So does every step of the party. -/
theorem PartyDuties.partyStep
    {cfg : Config} {event : Event}
    (hParty : PartyDuties sent id ba)
    (hLaunched : ba.launched = true)
    (hStep : PartyStep cfg id ba event ba' ms) :
    PartyDuties (sent ++ ms) id ba' := by
  have hCurrent :=
    hParty.loops hLaunched ba.loop (Nat.le_refl _)
  have hDuties := hParty.main
  cases hStep with
  | loop loop event info ms second hLoop hLoopStep =>
      have hInfo :=
        (hParty.loops hLaunched loop hLoop).loopStep
          hLoopStep
      have hAppend : PartyDuties (sent ++ ms) id ba :=
        hParty.append
      have hNext :=
        hAppend.setLoop hLaunched hInfo
          (by
            rw [hLoopStep.counts_eq]
            exact .rfl)
          (by
            intro hEq
            subst hEq
            exact hDuties.loopStep hLoopStep)
      exact
        { hNext with finish := { hNext.finish with } }
  | finish value rest hSignal =>
      have hSent :
          ∀ b, b ∈ ba.sendFinishSignal ∨
              BA.finishMsg id b ∈ sent →
            b ∈ rest ∨
              BA.finishMsg id b ∈
                sent ++ [BA.finishMsg id value] := by
        rintro b (hMem | hMem)
        · rw [hSignal] at hMem
          rcases List.mem_cons.mp hMem with rfl | hRest
          · exact Or.inr
              (List.mem_append_right _ List.mem_cons_self)
          · exact Or.inl hRest
        · exact Or.inr (List.mem_append_left _ hMem)
      exact
        { hParty.append with
          finish :=
            { hParty.finish with
              decided := fun b hb =>
                hSent b (hParty.finish.decided b hb)
              amplify := fun b hb =>
                hSent b (hParty.finish.amplify b hb)
              token := fun _ =>
                Or.inr ⟨value, List.mem_append_right _
                  List.mem_cons_self⟩ } }
  | elect hMain =>
      rw [List.append_nil]
      exact hParty.elect hLaunched hMain
  | mainConf flags signal info hMain hTake hWait =>
      rw [List.append_nil]
      rw [hMain] at hDuties
      rcases hDuties with ⟨hConf, hNot, hCoin⟩
      apply hParty.setMain hLaunched
        (hCurrent.takeConf hTake) ?_ (by simp)
      refine ⟨hConf.take hTake, ?_,
        takeConf_coinHeard hCoin hTake⟩
      rw [← select_iff_ready signal hNot, hWait]
      simp
  | mainConfReady flags signal info hMain hTake hReady =>
      rw [List.append_nil]
      rw [hMain] at hDuties
      rcases hDuties with ⟨hConf, hNot, hCoin⟩
      have hInfo := hCurrent.takeConf hTake
      have hPassed :=
        (hConf.take hTake).passed
          ((select_iff_ready signal hNot).mp hReady)
      apply hParty.setMain hLaunched ?_ ?_ (by simp)
      · exact { hInfo with confDone := by simp }
      have hHeard := takeConf_coinHeard hCoin hTake
      refine ⟨hPassed, by simp, hHeard, ?_⟩
      simp [Flags.Ready, Flags.new]
  | mainCoin flags signal info hMain hTake hWait =>
      rw [List.append_nil]
      rw [hMain] at hDuties
      rcases hDuties with ⟨hPassed, hConf, hCoin, hNot⟩
      apply hParty.setMain hLaunched
        (hCurrent.takeCoin hTake) ?_ (by simp)
      refine ⟨?_, ?_, hCoin.take hTake, ?_⟩
      · rw [takeCoin_counts hTake]
        exact hPassed
      · rw [(takeCoin_same hTake).2.1]
        exact hConf
      · rw [← select_iff_ready signal hNot, hWait]
        simp
  | mainCoinReady flags signal info hMain hTake hReady =>
      rw [List.append_nil]
      rw [hMain] at hDuties
      rcases hDuties with ⟨hPassed, hConf, hCoin, hNot⟩
      apply hParty.setMain hLaunched
        (hCurrent.takeCoin hTake) ?_ (by simp)
      refine ⟨?_, ?_⟩
      · rw [takeCoin_counts hTake]
        exact hPassed
      · exact (hCoin.take hTake).passed
          ((select_iff_ready signal hNot).mp hReady)

/- With at least one fault allowed for, all duties hold. -/
theorem partyDuties
    {cfg : Config} {ok : State n → Action n → Prop}
    {s : State n}
    (hFaults : 0 < faults n)
    (hReach : (machine n cfg).ReachableBy ok s)
    (p : Fin n) :
    PartyDuties s.log.sent p (s.party p) := by
  refine local_rule PartyDuties ?_ ?_ ?_ hReach p
  · intro p
    exact
      { loops := fun hLaunched => by cases hLaunched
        main := trivial
        earlier := fun loop hLt =>
          absurd hLt (Nat.not_lt_zero _)
        finish :=
          { decided := fun b hb => by cases hb
            amplify := fun b hb =>
              absurd hb (Nat.not_succ_le_zero _)
            token := fun hLaunched => by cases hLaunched
            outputNone := fun _ b => Nat.zero_le _
            outputSome := fun b hb => by cases hb } }
  · intro sent p ba ms hParty _
    exact hParty.append
  · intro s a p ba ms _ hAll _ hChange
    have hParty := hAll p
    cases hChange with
    | launch _ input hIdle =>
        rw [List.append_nil]
        apply hParty.startLoop
        · intro hLaunched
          rw [hIdle] at hLaunched
          cases hLaunched
        · exact fun _ => rfl
    | second =>
        rw [List.append_nil]
        exact
          { hParty with finish := { hParty.finish with } }
    | handle _ i m _ hLaunched hMsg hLoc hReceive =>
        rw [List.append_nil]
        exact hParty.receive hFaults hLaunched hReceive
    | go _ event _ _ hLaunched hStep =>
        exact hParty.partyStep hLaunched hStep

end Steps

end BinaryAgreement

end Jumbo
