import Jumbo.BinaryAgreement.Steps

/-
  The counters of the handlers, as counts of the log.

  A counter of party `p` changes only when `p` handles a
  message, so it is the number of messages of its kind that
  `p` has handled.

  Main declarations:
    * `LoopInfo.counts`
    * `Untouched`
    * `counter_rule`
    * `vCount_eq`
    * `auxCount_eq`
    * `confCount_le`
    * `finishCount_eq`
-/

------------------------------------------------------------
-- The Counters of One Loop
------------------------------------------------------------

namespace Jumbo

namespace BinaryAgreement

/- The counters of `handle_val`, `handle_aux`, `handle_conf`. -/
structure Counts where
  vCount : Bool → Nat
  auxCount : Bool → Nat
  auxMixCount : Nat
  confCount : Bool → Nat
  confMixCount : Nat

namespace LoopInfo

/- The counters of a loop. -/
def counts (info : LoopInfo) : Counts where
  vCount := info.vCount
  auxCount := info.auxCount
  auxMixCount := info.auxMixCount
  confCount := info.confCount
  confMixCount := info.confMixCount

end LoopInfo

/- Everything that `handle_aux` changes. -/
theorem handleAux_eq
    (faults : Nat) (info : LoopInfo) (value : Bool) :
    handleAux faults info value =
      { info with
        auxCount := bump info.auxCount value
        auxMixCount := info.auxMixCount + 1
        auxReady :=
          if info.auxCount value + 1 = faults * 2 + 1
          then bump info.auxReady value else info.auxReady
        auxMixReady :=
          if info.auxMixCount + 1 = faults * 2 + 1
          then info.auxMixReady + 1
          else info.auxMixReady } := by
  unfold handleAux
  simp only [bump_apply, if_true]
  split_ifs <;> rfl

/- The mixed count and its signal are all that changes. -/
theorem countConfMix_eq
    (faults : Nat) (info : LoopInfo) :
    countConfMix faults info =
      { info with
        confMixCount := info.confMixCount + 1
        confMixReady :=
          if info.confMixCount + 1 = faults * 2 + 1
          then info.confMixReady + 1
          else info.confMixReady } := by
  unfold countConfMix
  dsimp only
  split_ifs <;> rfl

/- The count for a value and its signal change. -/
theorem countConf_eq
    (faults : Nat) (info : LoopInfo) (value : Bool) :
    countConf faults info value =
      { info with
        confCount := bump info.confCount value
        confMixCount := info.confMixCount + 1
        confReady :=
          if info.confCount value + 1 = faults * 2 + 1
          then bump info.confReady value else info.confReady
        confMixReady :=
          if info.confMixCount + 1 = faults * 2 + 1
          then info.confMixReady + 1
          else info.confMixReady } := by
  unfold countConf
  simp only [countConfMix_eq, bump_apply, if_true]
  split_ifs <;> rfl

/- How `handle_conf` reads the values of a message. -/
theorem handleConf_cases
    (faults : Nat) (info : LoopInfo) (values : Values) :
    (values = ⟨false, false⟩ ∧
      handleConf faults info values = info) ∨
      (values = ⟨true, true⟩ ∧
        handleConf faults info values =
          countConfMix faults info) ∨
        ∃ b, values = Values.only b ∧
          handleConf faults info values =
            countConf faults info b := by
  rcases values with ⟨zero, one⟩
  cases zero <;> cases one
  · exact Or.inl ⟨rfl, rfl⟩
  · exact Or.inr (Or.inr ⟨true, rfl, rfl⟩)
  · exact Or.inr (Or.inr ⟨false, rfl, rfl⟩)
  · exact Or.inr (Or.inl ⟨rfl, rfl⟩)

/- Flags for one value tell the value. -/
theorem Values.only_inj
    {b c : Bool} (hEq : only b = only c) : b = c := by
  cases b <;> cases c <;> first | rfl | cases hEq

theorem Values.only_ne_empty (b : Bool) :
    only b ≠ ⟨false, false⟩ := by
  cases b <;> decide

/- Flags for one value are not both flags. -/
theorem Values.only_ne_both (b : Bool) :
    only b ≠ ⟨true, true⟩ := by
  cases b <;> decide

/- `handle_val` counts a message for its value. -/
theorem handleVal_counts
    (faults : Nat) (info : LoopInfo) (value : Bool) :
    (handleVal faults info value).counts =
      { info.counts with
        vCount := bump info.vCount value } := by
  unfold handleVal
  dsimp only
  split
  · rfl
  · split
    · split <;> rfl
    · rfl

/-
  `handle_aux` counts a message twice, for its value and as
  mixed.
-/
theorem handleAux_counts
    (faults : Nat) (info : LoopInfo) (value : Bool) :
    (handleAux faults info value).counts =
      { info.counts with
        auxCount := bump info.auxCount value
        auxMixCount := info.auxMixCount + 1 } := by
  rw [handleAux_eq]
  rfl

/- What `handle_conf` counts a message with these values as. -/
theorem handleConf_confCount
    (faults : Nat) (info : LoopInfo) (values : Values)
    (b : Bool) :
    (handleConf faults info values).counts.confCount b =
      info.confCount b +
        if values = Values.only b then 1 else 0 := by
  rcases handleConf_cases faults info values with
    ⟨hValues, hEq⟩ | ⟨hValues, hEq⟩ | ⟨c, hValues, hEq⟩
  · rw [hEq, hValues,
      if_neg (Ne.symm (Values.only_ne_empty b))]
    rfl
  · rw [hEq, hValues, countConfMix_eq,
      if_neg (Ne.symm (Values.only_ne_both b))]
    rfl
  · rw [hEq, hValues, countConf_eq]
    by_cases hb : b = c
    · subst hb
      simp [LoopInfo.counts]
    · have hNot : Values.only c ≠ Values.only b :=
        fun hSame => hb (Values.only_inj hSame).symm
      simp [LoopInfo.counts, hb, hNot]

/- A CONF with no flag is not counted. -/
theorem handleConf_confMixCount
    (faults : Nat) (info : LoopInfo) (values : Values) :
    (handleConf faults info values).counts.confMixCount =
      info.confMixCount +
        if values = ⟨false, false⟩ then 0 else 1 := by
  rcases handleConf_cases faults info values with
    ⟨hValues, hEq⟩ | ⟨hValues, hEq⟩ | ⟨c, hValues, hEq⟩
  · rw [hEq, if_pos hValues]
    rfl
  · rw [hEq, hValues, countConfMix_eq]
    rfl
  · rw [hEq, hValues, countConf_eq,
      if_neg (Values.only_ne_empty c)]
    rfl

/- `handle_conf` leaves the other handlers alone. -/
theorem handleConf_frame
    (faults : Nat) (info : LoopInfo) (values : Values) :
    ∃ confCount confMixCount confReady confMixReady,
      handleConf faults info values =
        { info with
          confCount := confCount
          confMixCount := confMixCount
          confReady := confReady
          confMixReady := confMixReady } := by
  rcases handleConf_cases faults info values with
    ⟨_, hEq⟩ | ⟨_, hEq⟩ | ⟨c, _, hEq⟩
  · exact ⟨_, _, _, _, hEq⟩
  · rw [hEq, countConfMix_eq]
    exact ⟨_, _, _, _, rfl⟩
  · rw [hEq, countConf_eq]
    exact ⟨_, _, _, _, rfl⟩

/- `handle_conf` counts a CONF with one flag for its value. -/
theorem handleConf_counts
    (faults : Nat) (info : LoopInfo) (values : Values) :
    (handleConf faults info values).counts =
      { info.counts with
        confCount := fun b =>
          info.confCount b +
            if values = Values.only b then 1 else 0
        confMixCount :=
          info.confMixCount +
            if values = ⟨false, false⟩ then 0 else 1 } := by
  have hConf :=
    funext (handleConf_confCount faults info values)
  have hMix := handleConf_confMixCount faults info values
  rcases handleConf_frame faults info values with
    ⟨_, _, _, _, hEq⟩
  rw [← hConf, ← hMix, hEq]
  rfl

variable {n : Nat}

/- The other goroutines of a loop count nothing. -/
theorem LoopStep.counts_eq
    {id : Fin n} {loop : Nat} {info info' : LoopInfo}
    {event : Event} {ms : List (BAMsg n)}
    (hStep : LoopStep id loop info event info' ms) :
    info'.counts = info.counts := by
  cases hStep <;> rfl

/- The main goroutine counts nothing before CONF. -/
theorem takeConf_counts
    {info info' : LoopInfo} {signal : Signal}
    (hTake : info.takeConf signal = some info') :
    info'.counts = info.counts := by
  cases signal <;>
    rcases Option.ite_none_right_eq_some.mp hTake with
      ⟨_, hEq⟩ <;>
    cases hEq <;>
    rfl

/- The main goroutine counts nothing before the coin. -/
theorem takeCoin_counts
    {info info' : LoopInfo} {signal : Signal}
    (hTake : info.takeCoin signal = some info') :
    info'.counts = info.counts := by
  cases signal <;>
    rcases Option.ite_none_right_eq_some.mp hTake with
      ⟨_, hEq⟩ <;>
    cases hEq <;>
    rfl

end BinaryAgreement

end Jumbo

------------------------------------------------------------
-- Counters Between Messages
------------------------------------------------------------

namespace Jumbo

namespace BinaryAgreement

variable {n : Nat}

/- Loops that a party has not entered hold nothing. -/
def Untouched (ba : BA) : Prop :=
  ∀ loop, (ba.launched = true → ba.loop < loop) →
    ∃ input, ba.loops loop = LoopInfo.new input

/- A party whose main goroutine runs was launched. -/
theorem BA.launched_eq_of_ne
    {ba : BA} (hMain : ba.main ≠ .idle) :
    ba.launched = true := by
  unfold BA.launched
  cases h : ba.main <;> first | exact absurd h hMain | rfl

@[simp] theorem BA.setLoop_loop
    (ba : BA) (loop : Nat) (info : LoopInfo) :
    (ba.setLoop loop info).loop = ba.loop := rfl

@[simp] theorem BA.setLoop_self
    (ba : BA) (loop : Nat) (info : LoopInfo) :
    (ba.setLoop loop info).loops loop = info :=
  Function.update_self _ _ _

theorem BA.setLoop_of_ne
    (ba : BA) {loop loop' : Nat} (info : LoopInfo)
    (hNe : loop' ≠ loop) :
    (ba.setLoop loop info).loops loop' = ba.loops loop' :=
  Function.update_of_ne hNe _ _

theorem handleFinish_loops
    (faults : Nat) (ba : BA) (value : Bool) :
    (handleFinish faults ba value).loops = ba.loops := by
  unfold handleFinish
  dsimp only
  split
  · rfl
  · split <;> rfl

theorem handleFinish_loop
    (faults : Nat) (ba : BA) (value : Bool) :
    (handleFinish faults ba value).loop = ba.loop := by
  unfold handleFinish
  dsimp only
  split
  · rfl
  · split <;> rfl

theorem handleFinish_main
    (faults : Nat) (ba : BA) (value : Bool) :
    (handleFinish faults ba value).main = ba.main := by
  unfold handleFinish
  dsimp only
  split
  · rfl
  · split <;> rfl

/- What a handler does with a message of its loop. -/
def loopReceive
    (id : Fin n) (info : LoopInfo) (m : BAMsg n) :
    LoopInfo :=
  match m.type with
  | .val => handleVal (faults n) info m.value
  | .aux => handleAux (faults n) info m.value
  | .conf =>
      handleConf (faults n) info (confValueAt id info m)
  | .finish => info

/- A received message changes one loop or `handle_finish`. -/
theorem receive_cases
    {id : Fin n} {ba ba' : BA} {m : BAMsg n}
    (hReceive : ba.receive id m = some ba') :
    (m.type ≠ .finish ∧ m.loop ≤ ba.loop ∧
      ba' = ba.setLoop m.loop
        (loopReceive id (ba.loops m.loop) m)) ∨
      (m.type = .finish ∧ ba.output = none ∧
        ba' = handleFinish (faults n) ba m.value) := by
  unfold BA.receive at hReceive
  unfold loopReceive
  cases hType : m.type <;>
    simp only [hType] at hReceive <;>
    rcases Option.ite_none_right_eq_some.mp hReceive with
      ⟨hGuard, hEq⟩ <;>
    cases hEq
  · exact Or.inl ⟨by simp, hGuard, rfl⟩
  · exact Or.inl ⟨by simp, hGuard, rfl⟩
  · exact Or.inl ⟨by simp, hGuard, rfl⟩
  · exact Or.inr ⟨rfl, by simpa using hGuard, rfl⟩

/- A loop starts with counters at zero, as it was before. -/
theorem startLoop_counts
    {ba : BA} (hUntouched : Untouched ba)
    (loop loop' : Nat) (input : Bool)
    (hNew : ba.launched = true → ba.loop < loop) :
    ((ba.startLoop loop input).loops loop').counts =
      (ba.loops loop').counts := by
  by_cases hEq : loop' = loop
  · subst hEq
    rcases hUntouched loop' hNew with ⟨old, hOld⟩
    rw [hOld]
    simp [BA.startLoop, LoopInfo.counts, LoopInfo.new]
  · simp [BA.startLoop, Function.update_of_ne hEq]

/- No message is counted for loops that have not started. -/
theorem startLoop_untouched
    {ba : BA} (hUntouched : Untouched ba)
    (loop : Nat) (input : Bool)
    (hNew : ba.launched = true → ba.loop < loop) :
    Untouched (ba.startLoop loop input) := by
  intro later hLater
  have hLt : loop < later := hLater rfl
  have hOld :
      ∃ old, ba.loops later = LoopInfo.new old := by
    apply hUntouched
    intro hLaunched
    have hLoop := hNew hLaunched
    omega
  simpa [BA.startLoop,
    Function.update_of_ne (Nat.ne_of_gt hLt)] using hOld

/- The loops of `elect` are those of a decision or a start. -/
theorem elect_cases
    (cfg : Config) (ba : BA) :
    (∃ value, ba.elect cfg =
        { ba with
          sendFinishSignal := ba.sendFinishSignal ++ [value]
          main := .decided value }) ∨
      ∃ input,
        ba.elect cfg = ba.startLoop (ba.loop + 1) input := by
  unfold BA.elect
  dsimp only
  split
  · exact Or.inr ⟨_, rfl⟩
  · split
    · exact Or.inl ⟨false, rfl⟩
    · split
      · exact Or.inl ⟨true, rfl⟩
      · exact Or.inr ⟨_, rfl⟩

/- A step in a loop that has started touches no later one. -/
theorem setLoop_untouched
    {ba : BA} (hUntouched : Untouched ba)
    {loop : Nat} (info : LoopInfo)
    (hLaunched : ba.launched = true)
    (hLoop : loop ≤ ba.loop) :
    Untouched (ba.setLoop loop info) := by
  intro later hLater
  have hLt : ba.loop < later := hLater hLaunched
  rw [BA.setLoop_of_ne _ _ (by omega)]
  exact hUntouched later fun _ => hLt

/- No step touches a loop that has not started. -/
theorem PartyStep.untouched
    {cfg : Config} {id : Fin n} {ba ba' : BA}
    {event : Event} {ms : List (BAMsg n)}
    (hStep : PartyStep cfg id ba event ba' ms)
    (hLaunched : ba.launched = true)
    (hUntouched : Untouched ba) :
    Untouched ba' := by
  have hSet :
      ∀ loop info, loop ≤ ba.loop →
        ∀ later, ba.loop < later →
          ∃ input, (ba.setLoop loop info).loops later =
            LoopInfo.new input := by
    intro loop info hLoop later hLt
    exact setLoop_untouched hUntouched info hLaunched hLoop
      later fun _ => hLt
  cases hStep with
  | loop loop event info ms second hLoop hLoopStep =>
      intro later hLater
      exact hSet loop info hLoop later (hLater hLaunched)
  | finish value rest hSignal => exact hUntouched
  | elect hMain =>
      rcases elect_cases cfg ba with
        ⟨value, hEq⟩ | ⟨input, hEq⟩
      · rw [hEq]
        intro later hLater
        exact hUntouched later fun _ => hLater rfl
      · rw [hEq]
        exact startLoop_untouched hUntouched _ _
          fun _ => Nat.lt_succ_self _
  | mainConf _ _ info | mainConfReady _ _ info
  | mainCoin _ _ info | mainCoinReady _ _ info =>
      intro later hLater
      exact hSet ba.loop _ (Nat.le_refl _) later
        (hLater rfl)

/- Between messages no counter of any loop changes. -/
theorem PartyStep.counts_eq
    {cfg : Config} {id : Fin n} {ba ba' : BA}
    {event : Event} {ms : List (BAMsg n)}
    (hStep : PartyStep cfg id ba event ba' ms)
    (hUntouched : Untouched ba)
    (loop : Nat) :
    (ba'.loops loop).counts = (ba.loops loop).counts := by
  have hSet :
      ∀ loop' info,
        info.counts = (ba.loops loop').counts →
          ((ba.setLoop loop' info).loops loop).counts =
            (ba.loops loop).counts := by
    intro loop' info hCounts
    by_cases hEq : loop = loop'
    · subst hEq
      rw [BA.setLoop_self, hCounts]
    · rw [BA.setLoop_of_ne _ _ hEq]
  cases hStep with
  | loop loop' event info ms second hLoop hLoopStep =>
      exact hSet loop' info hLoopStep.counts_eq
  | finish value rest hSignal => rfl
  | elect hMain =>
      rcases elect_cases cfg ba with
        ⟨value, hEq⟩ | ⟨input, hEq⟩
      · rw [hEq]
      · rw [hEq]
        exact startLoop_counts hUntouched _ _ _
          fun _ => Nat.lt_succ_self _
  | mainConf flags signal info hMain hTake
  | mainConfReady flags signal info hMain hTake =>
      have hCounts := takeConf_counts hTake
      exact hSet ba.loop _ hCounts
  | mainCoin flags signal info hMain hTake
  | mainCoinReady flags signal info hMain hTake =>
      exact hSet ba.loop _ (takeCoin_counts hTake)

/- Only FINISH messages that are read are counted. -/
theorem PartyStep.finishCount_eq
    {cfg : Config} {id : Fin n} {ba ba' : BA}
    {event : Event} {ms : List (BAMsg n)}
    (hStep : PartyStep cfg id ba event ba' ms) :
    ba'.finishCount = ba.finishCount := by
  cases hStep with
  | elect hMain =>
      rcases elect_cases cfg ba with
        ⟨value, hEq⟩ | ⟨input, hEq⟩
      · rw [hEq]
      · rw [hEq]
        rfl
  | _ => rfl

/- No message reaches a loop that has not started. -/
theorem receive_untouched
    {id : Fin n} {ba ba' : BA} {m : BAMsg n}
    (hReceive : ba.receive id m = some ba')
    (hLaunched : ba.launched = true)
    (hUntouched : Untouched ba) :
    Untouched ba' := by
  rcases receive_cases hReceive with
    ⟨_, hLoop, hEq⟩ | ⟨_, _, hEq⟩
  · rw [hEq]
    exact setLoop_untouched hUntouched _ hLaunched hLoop
  · rw [hEq]
    intro later hLater
    rw [handleFinish_loops]
    rw [handleFinish_loop] at hLater
    apply hUntouched later
    intro _
    apply hLater
    rw [BA.launched, handleFinish_main]
    exact hLaunched

/- A party that was launched stays so. -/
theorem PartyStep.launched
    {cfg : Config} {id : Fin n} {ba ba' : BA}
    {event : Event} {ms : List (BAMsg n)}
    (hStep : PartyStep cfg id ba event ba' ms)
    (hLaunched : ba.launched = true) :
    ba'.launched = true := by
  cases hStep with
  | elect hMain =>
      rcases elect_cases cfg ba with
        ⟨value, hEq⟩ | ⟨input, hEq⟩ <;>
        rw [hEq] <;>
        rfl
  | loop | finish => exact hLaunched
  | _ => rfl

/- Messages launch no party. -/
theorem receive_launched
    {id : Fin n} {ba ba' : BA} {m : BAMsg n}
    (hReceive : ba.receive id m = some ba') :
    ba'.launched = ba.launched := by
  rcases receive_cases hReceive with
    ⟨_, _, hEq⟩ | ⟨_, _, hEq⟩
  · rw [hEq]
    rfl
  · rw [hEq, BA.launched, handleFinish_main]
    rfl

/- No loop ahead of a party is ever written. -/
theorem untouched
    {cfg : Config} {ok : State n → Action n → Prop}
    {s : State n}
    (hReach : (machine n cfg).ReachableBy ok s)
    (p : Fin n) :
    Untouched (s.party p) := by
  refine local_rule (fun _ _ ba => Untouched ba)
    ?_ ?_ ?_ hReach p
  · intro p loop _
    exact ⟨false, rfl⟩
  · intro sent p ba ms hUntouched _
    exact hUntouched
  · intro s a p ba ms _ hAll _ hChange
    cases hChange with
    | launch p input hIdle =>
        apply startLoop_untouched (hAll p)
        intro hLaunched
        rw [hIdle] at hLaunched
        cases hLaunched
    | second p => exact hAll p
    | handle p i m ba hLaunched hMsg hLoc hReceive =>
        exact receive_untouched hReceive hLaunched (hAll p)
    | go p event ba ms hLaunched hStep =>
        exact hStep.untouched hLaunched (hAll p)

end BinaryAgreement

end Jumbo

------------------------------------------------------------
-- Counters and the Log
------------------------------------------------------------

namespace Jumbo

namespace BinaryAgreement

open Protocol

variable {n : Nat}

/- A broadcast changes nothing that has been counted. -/
theorem tally_publish
    (log : BroadcastLog n (BAMsg n) Loc)
    (p q : Fin n) (before after : Nat)
    (ms : List (BAMsg n)) (P : BAMsg n → Bool) :
    (publish log p before after ms).tally q .handled P =
      log.tally q .handled P := by
  unfold publish
  dsimp only
  have hPost :
      (log.postAll p .chan .net ms).tally q .handled P =
        log.tally q .handled P :=
    log.tally_postAll p q ms P (by decide) (by decide)
  split
  · rw [← hPost]
    apply BroadcastLog.tally_relocate
    intro i
    split
    · rename_i hLoc
      rw [hLoc]
      split <;> simp
    · rename_i hLoc
      rw [hLoc]
      simp
    · rfl
  · exact hPost

/-
  What a receiver has handled grows by the message that it
  handles, and by nothing else.
-/
theorem exec_tally
    {cfg : Config} {s s' : State n} {a : Action n}
    (hExec : exec cfg s a = some s')
    (q : Fin n) (P : BAMsg n → Bool) :
    (s'.log.tally q .handled P =
        s.log.tally q .handled P ∧
      ∀ i, a ≠ .handle q i) ∨
      ∃ i m, a = .handle q i ∧
        s.log.sent[i]? = some m ∧
          s'.log.tally q .handled P =
            s.log.tally q .handled P +
              if P m = true then 1 else 0 := by
  cases a with
  | launch p input =>
      rcases Option.ite_none_right_eq_some.mp hExec with
        ⟨_, hEq⟩
      cases hEq
      exact Or.inl ⟨rfl, by simp⟩
  | second p =>
      rcases Option.ite_none_right_eq_some.mp hExec with
        ⟨_, hEq⟩
      cases hEq
      exact Or.inl ⟨rfl, by simp⟩
  | crash p =>
      cases hExec
      exact Or.inl ⟨rfl, by simp⟩
  | route p i =>
      left
      refine ⟨?_, by simp⟩
      simp only [exec] at hExec
      split at hExec
      · rename_i m _
        split at hExec
        · rename_i hReady
          cases hExec
          apply BroadcastLog.tally_move_other
          · unfold handleLoopMsg
            split_ifs <;> simp
          · rcases hReady.2 with hLoc | hLoc <;>
              rw [hLoc] <;>
              simp
        · cases hExec
      · cases hExec
  | handle p i =>
      simp only [exec] at hExec
      split at hExec
      · rename_i m hMsg
        split at hExec
        · rename_i hReady
          split at hExec
          · rename_i ba hReceive
            cases hExec
            by_cases hq : q = p
            · subst hq
              right
              refine ⟨i, m, rfl, hMsg, ?_⟩
              apply BroadcastLog.tally_move_to _ _ _ hMsg
              rw [hReady.2]
              simp
            · left
              refine ⟨?_, ?_⟩
              · exact BroadcastLog.tally_move_of_ne
                  _ _ _ _ _ hq
              · intro j hEq
                cases hEq
                exact hq rfl
          · cases hExec
        · cases hExec
      · cases hExec
  | go p event =>
      left
      refine ⟨?_, by simp⟩
      simp only [exec] at hExec
      split at hExec
      · split at hExec
        · cases hExec
          exact tally_publish _ _ _ _ _ _ _
        · cases hExec
      · cases hExec

/-
  The rule for what a party has handled: a relation between
  its state and the tally of `P` that every other step keeps
  and that every handled message carries on.
-/
theorem tally_rule
    {cfg : Config} {ok : State n → Action n → Prop}
    (p : Fin n)
    (P : BAMsg n → Bool) (R : BA → Nat → Prop)
    (hInit : R BA.new 0)
    (hKeep :
      ∀ s a ba ms t, (machine n cfg).ReachableBy ok s →
        Change cfg s a p ba ms → (∀ i, a ≠ .handle p i) →
          R (s.party p) t → R ba t)
    (hHandle :
      ∀ s i m ba t, (machine n cfg).ReachableBy ok s →
        ok s (.handle p i) → s.log.sent[i]? = some m →
          (s.party p).launched = true →
            (s.party p).receive p m = some ba →
              R (s.party p) t →
                R ba (t + if P m then 1 else 0))
    {s : State n}
    (hReach : (machine n cfg).ReachableBy ok s) :
    R (s.party p) (s.log.tally p .handled P) := by
  induction hReach with
  | init => exact hInit
  | @step s s' a hBefore hOk hStep ih =>
      have hExec : exec cfg s a = some s' := hStep
      rcases exec_tally hExec p P with
        ⟨hTally, hOther⟩ | ⟨i, m, hAction, hMsg, hTally⟩
      · rw [hTally]
        rcases exec_change hExec with
          ⟨hParty, _⟩ | ⟨q, ba, ms, hChange, hParty, _⟩
        · rw [hParty]
          exact ih
        · rw [hParty]
          by_cases hq : p = q
          · subst hq
            rw [Function.update_self]
            exact hKeep _ _ _ _ _ hBefore hChange hOther ih
          · rw [Function.update_of_ne hq]
            exact ih
      · subst hAction
        rw [hTally]
        rcases exec_change hExec with
          ⟨_, _, hOther⟩ | ⟨q, ba, ms, hChange, hParty, _⟩
        · exact absurd rfl (hOther p i)
        · cases hChange with
          | handle _ _ m' _ hLaunched hMsg' _ hReceive =>
              rw [hMsg] at hMsg'
              cases hMsg'
              rw [hParty, Function.update_self]
              exact hHandle _ _ _ _ _ hBefore hOk hMsg
                hLaunched hReceive ih

/- The rule for a counter that only messages change. -/
theorem counter_rule
    {cfg : Config} {ok : State n → Action n → Prop}
    (p : Fin n)
    (count : BA → Nat) (P : BAMsg n → Bool)
    (R : Nat → Nat → Prop)
    (hInit : R (count BA.new) 0)
    (hKeep :
      ∀ s a ba ms, (machine n cfg).ReachableBy ok s →
        Change cfg s a p ba ms → (∀ i, a ≠ .handle p i) →
          count ba = count (s.party p))
    (hHandle :
      ∀ s i m ba t, (machine n cfg).ReachableBy ok s →
        ok s (.handle p i) → s.log.sent[i]? = some m →
          (s.party p).receive p m = some ba →
            R (count (s.party p)) t →
              R (count ba) (t + if P m then 1 else 0))
    {s : State n}
    (hReach : (machine n cfg).ReachableBy ok s) :
    R (count (s.party p)) (s.log.tally p .handled P) := by
  refine tally_rule p P (fun ba t => R (count ba) t)
    hInit ?_ ?_ hReach
  · intro s a ba ms t hBefore hChange hNot hR
    rw [hKeep s a ba ms hBefore hChange hNot]
    exact hR
  · intro s i m ba t hBefore hOk hMsg _ hReceive hR
    exact hHandle s i m ba t hBefore hOk hMsg hReceive hR

/- The same rule for a counter of one loop. -/
theorem loop_counter_rule
    {cfg : Config} {ok : State n → Action n → Prop}
    (p : Fin n) (loop : Nat)
    (count : Counts → Nat) (P : BAMsg n → Bool)
    (R : Nat → Nat → Prop)
    (hInit : R (count (LoopInfo.new false).counts) 0)
    (hOther :
      ∀ m, m.loop ≠ loop ∨ m.type = .finish → P m = false)
    (hHandle :
      ∀ s i m t, (machine n cfg).ReachableBy ok s →
        ok s (.handle p i) → s.log.sent[i]? = some m →
          m.loop = loop → m.type ≠ .finish →
            R (count ((s.party p).loops loop).counts) t →
              R (count (loopReceive p
                  ((s.party p).loops loop) m).counts)
                (t + if P m then 1 else 0))
    {s : State n}
    (hReach : (machine n cfg).ReachableBy ok s) :
    R (count ((s.party p).loops loop).counts)
      (s.log.tally p .handled P) := by
  refine counter_rule p
    (fun ba => count (ba.loops loop).counts) P R
    hInit ?_ ?_ hReach
  · intro s a ba ms hBefore hChange hNot
    have hUntouched := untouched hBefore p
    cases hChange with
    | launch _ input hIdle =>
        rw [startLoop_counts hUntouched]
        intro hLaunched
        rw [hIdle] at hLaunched
        cases hLaunched
    | second => rfl
    | handle _ i => exact absurd rfl (hNot i)
    | go _ event _ _ _ hStep =>
        rw [hStep.counts_eq hUntouched]
  · intro s i m ba t hBefore hOk hMsg hReceive hR
    rcases receive_cases hReceive with
      ⟨hType, _, hEq⟩ | ⟨hType, _, hEq⟩
    · by_cases hLoop : m.loop = loop
      · subst hLoop
        rw [hEq, BA.setLoop_self]
        exact hHandle s i m t hBefore hOk hMsg rfl hType hR
      · rw [hEq, BA.setLoop_of_ne _ _ (Ne.symm hLoop),
          hOther m (Or.inl hLoop)]
        exact hR
    · rw [hEq, handleFinish_loops,
        hOther m (Or.inr hType)]
      exact hR

end BinaryAgreement

end Jumbo

------------------------------------------------------------
-- What Each Counter Counts
------------------------------------------------------------

namespace Jumbo

namespace BinaryAgreement

open Protocol

variable {n : Nat}

/- VAL messages of a loop for a value. -/
def isVal (loop : Nat) (b : Bool) (m : BAMsg n) : Bool :=
  m.type = .val && m.loop = loop && b == m.value

/- An AUX of a loop for a value. -/
def isAux (loop : Nat) (b : Bool) (m : BAMsg n) : Bool :=
  m.type = .aux && m.loop = loop && b == m.value

/- An AUX of a loop for any value. -/
def isAuxMix (loop : Nat) (m : BAMsg n) : Bool :=
  m.type = .aux && m.loop = loop

/- CONF messages of a loop for exactly one value. -/
def isConf (loop : Nat) (b : Bool) (m : BAMsg n) : Bool :=
  m.type = .conf && m.loop = loop &&
    m.confValue = Values.only b

/- A CONF of a loop with any flags. -/
def isConfMix (loop : Nat) (m : BAMsg n) : Bool :=
  m.type = .conf && m.loop = loop

/- A FINISH for a value. -/
def isFinish (b : Bool) (m : BAMsg n) : Bool :=
  m.type = .finish && b == m.value

variable {cfg : Config} {ok : State n → Action n → Prop}
variable {s : State n}

/- A party has counted the VAL messages it has read. -/
theorem vCount_eq
    (hReach : (machine n cfg).ReachableBy ok s)
    (p : Fin n) (loop : Nat) (b : Bool) :
    ((s.party p).loops loop).vCount b =
      s.log.tally p .handled (isVal loop b) := by
  refine loop_counter_rule p loop
    (fun counts => counts.vCount b) (isVal loop b)
    (fun x y => x = y) rfl ?_ ?_ hReach
  · rintro m (hLoop | hType)
    · simp [isVal, hLoop]
    · simp [isVal, hType]
  · intro s i m t _ _ _ hLoop _ hCount
    rw [← hCount]
    cases hType : m.type <;>
      simp only [loopReceive, hType, handleVal_counts,
        handleAux_counts, handleConf_counts]
    · simp [isVal, hType, hLoop, LoopInfo.counts]
    · simp [isVal, hType, LoopInfo.counts]
    · simp [isVal, hType, LoopInfo.counts]
    · simp [isVal, hType, LoopInfo.counts]

/- It has counted the AUX messages it has read. -/
theorem auxCount_eq
    (hReach : (machine n cfg).ReachableBy ok s)
    (p : Fin n) (loop : Nat) (b : Bool) :
    ((s.party p).loops loop).auxCount b =
      s.log.tally p .handled (isAux loop b) := by
  refine loop_counter_rule p loop
    (fun counts => counts.auxCount b) (isAux loop b)
    (fun x y => x = y) rfl ?_ ?_ hReach
  · rintro m (hLoop | hType)
    · simp [isAux, hLoop]
    · simp [isAux, hType]
  · intro s i m t _ _ _ hLoop _ hCount
    rw [← hCount]
    cases hType : m.type <;>
      simp only [loopReceive, hType, handleVal_counts,
        handleAux_counts, handleConf_counts]
    · simp [isAux, hType, LoopInfo.counts]
    · simp [isAux, hType, hLoop, LoopInfo.counts]
    · simp [isAux, hType, LoopInfo.counts]
    · simp [isAux, hType, LoopInfo.counts]

/- The mixed count is that of all AUX messages read. -/
theorem auxMixCount_eq
    (hReach : (machine n cfg).ReachableBy ok s)
    (p : Fin n) (loop : Nat) :
    ((s.party p).loops loop).auxMixCount =
      s.log.tally p .handled (isAuxMix loop) := by
  refine loop_counter_rule p loop
    (fun counts => counts.auxMixCount) (isAuxMix loop)
    (fun x y => x = y) rfl ?_ ?_ hReach
  · rintro m (hLoop | hType)
    · simp [isAuxMix, hLoop]
    · simp [isAuxMix, hType]
  · intro s i m t _ _ _ hLoop _ hCount
    rw [← hCount]
    cases hType : m.type <;>
      simp only [loopReceive, hType, handleVal_counts,
        handleAux_counts, handleConf_counts]
    · simp [isAuxMix, hType, LoopInfo.counts]
    · simp [isAuxMix, hType, hLoop, LoopInfo.counts]
    · simp [isAuxMix, hType, LoopInfo.counts]
    · simp [isAuxMix, hType, LoopInfo.counts]

/- `handle_finish` counts a FINISH for its value. -/
theorem handleFinish_finishCount
    (faults : Nat) (ba : BA) (value : Bool) :
    (handleFinish faults ba value).finishCount =
      bump ba.finishCount value := by
  unfold handleFinish
  dsimp only
  split
  · rfl
  · split <;> rfl

/- It has counted the FINISH messages it has read. -/
theorem finishCount_eq
    (hReach : (machine n cfg).ReachableBy ok s)
    (p : Fin n) (b : Bool) :
    (s.party p).finishCount b =
      s.log.tally p .handled (isFinish b) := by
  refine counter_rule p
    (fun ba => ba.finishCount b) (isFinish b)
    (fun x y => x = y) rfl ?_ ?_ hReach
  · intro s a ba ms _ hChange hNot
    cases hChange with
    | launch | second => rfl
    | handle _ i => exact absurd rfl (hNot i)
    | go _ _ _ _ _ hStep => rw [hStep.finishCount_eq]
  · intro s i m ba t _ _ _ hReceive hCount
    rw [← hCount]
    rcases receive_cases hReceive with
      ⟨hType, _, hEq⟩ | ⟨hType, _, hEq⟩
    · rw [hEq]
      simp [isFinish, hType, BA.setLoop]
    · rw [hEq, handleFinish_finishCount]
      simp [isFinish, hType]

/-
  A counter of CONF messages never exceeds the messages with
  that single value: values only grow after they were sent,
  so a copy of the party's own message that still shows one
  value was sent with that value.
-/
theorem confCount_le
    (hReach : (machine n cfg).ReachableBy ok s)
    (p : Fin n) (loop : Nat) (b : Bool)
    (hOwn :
      ∀ s i m, (machine n cfg).ReachableBy ok s →
        ok s (.handle p i) → s.log.sent[i]? = some m →
          m.type = .conf → m.id = p → m.loop = loop →
            ((s.party p).loops loop).values =
                Values.only b →
              m.confValue = Values.only b) :
    ((s.party p).loops loop).confCount b ≤
      s.log.tally p .handled (isConf loop b) := by
  refine loop_counter_rule p loop
    (fun counts => counts.confCount b) (isConf loop b)
    (fun x y => x ≤ y) (Nat.le_refl _) ?_ ?_ hReach
  · rintro m (hLoop | hType)
    · simp [isConf, hLoop]
    · simp [isConf, hType]
  · intro s i m t hBefore hOk hMsg hLoop _ hCount
    cases hType : m.type <;>
      simp only [loopReceive, hType, handleVal_counts,
        handleAux_counts, handleConf_counts]
    · exact Nat.le_add_right_of_le hCount
    · exact Nat.le_add_right_of_le hCount
    · by_cases hShown :
          confValueAt p ((s.party p).loops loop) m =
            Values.only b
      · have hSent : m.confValue = Values.only b := by
          unfold confValueAt at hShown
          split at hShown
          · rename_i hId
            exact hOwn s i m hBefore hOk hMsg hType hId
              hLoop hShown
          · exact hShown
        have hConf : isConf loop b m = true := by
          simp [isConf, hType, hLoop, hSent]
        rw [if_pos hShown, if_pos hConf]
        exact Nat.add_le_add_right hCount 1
      · rw [if_neg hShown]
        exact Nat.le_add_right_of_le hCount
    · exact Nat.le_add_right_of_le hCount

end BinaryAgreement

end Jumbo
