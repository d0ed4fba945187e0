import Jumbo.BinaryAgreement.Signals

/-
  What the goroutines of a party still have to do.

  A counter that has passed a threshold has put its signal,
  and a signal that is no longer waiting has been acted on:
  the message it asks for has been sent, or the flag of the
  main goroutine has been set.

  Main declarations:
    * `LoopDuties`
    * `Heard`
    * `MainDuties`
    * `FinishDuties`
    * `partyDuties`
-/

------------------------------------------------------------
-- Duties of One Loop
------------------------------------------------------------

namespace Jumbo

namespace BinaryAgreement

variable {n : Nat}

/- `sendval` has taken this value or still finds it waiting. -/
def ValDue (info : LoopInfo) (b : Bool) : Prop :=
  b ∈ info.sendValSignal ∨ info.valSent b = true ∨
    info.sendValNow = some b

/- The same for `sendaux`. -/
def AuxDue (info : LoopInfo) (b : Bool) : Prop :=
  b ∈ info.sendAuxSignal ∨ info.auxSent b = true

/-
  What a party has sent in a loop for what it has counted in
  it.
-/
structure LoopDuties
    (sent : List (BAMsg n)) (id : Fin n) (loop : Nat)
    (info : LoopInfo) : Prop where
  input : ValDue info info.input
  relay :
    ∀ b, faults n + 1 ≤ info.vCount b → ValDue info b
  valSent :
    ∀ b, info.valSent b = true ∨ info.sendValNow = some b →
      BA.valMsg id loop b ∈ sent
  values :
    ∀ b, faults n * 2 + 1 ≤ info.vCount b →
      info.values.get b = true
  justified :
    ∀ b, info.values.get b = true →
      faults n * 2 + 1 ≤ info.vCount b ∨
        (loop = 0 ∧ b = true)
  aux :
    ∀ b, faults n * 2 + 1 ≤ info.vCount b →
      info.isAuxSent = true
  auxDue :
    info.isAuxSent = true →
      ∃ b, faults n * 2 + 1 ≤ info.vCount b ∧
        AuxDue info b
  auxSent :
    ∀ b, info.auxSent b = true →
      BA.auxMsg id loop b ∈ sent
  confDone :
    info.sendConf = .done →
      ∃ values, BA.confMsg id loop values ∈ sent

/-
  The flags and waiting signals of one phase of `Launch`
  against the counters behind them.
-/
structure Heard
    (quota : Nat)
    (vCount qCount : Bool → Nat) (mixCount : Nat)
    (vReady qReady : Bool → Nat) (mixReady : Nat)
    (flags : Flags) : Prop where
  value :
    ∀ b, 0 < vReady b ∨ flags.value b = true ↔
      quota ≤ vCount b
  quorum :
    ∀ b, 0 < qReady b ∨ flags.quorum b = true ↔
      quota ≤ qCount b
  mix :
    0 < mixReady ∨ flags.mix = true ↔ quota ≤ mixCount

/- The phase before `sendconf`. -/
def ConfHeard
    (n : Nat) (info : LoopInfo) (flags : Flags) : Prop :=
  Heard (faults n * 2 + 1)
    info.vCount info.auxCount info.auxMixCount
    info.valueReady info.auxReady info.auxMixReady flags

/- The phase before the coin. -/
def CoinHeard
    (n : Nat) (info : LoopInfo) (flags : Flags) : Prop :=
  Heard (faults n * 2 + 1)
    info.vCount info.confCount info.confMixCount
    info.valueReadyConf info.confReady info.confMixReady
    flags

/- What lets a phase end, in terms of its flags. -/
def Flags.Ready (flags : Flags) : Prop :=
  (∃ b, flags.value b = true ∧ flags.quorum b = true) ∨
    ((∀ b, flags.value b = true) ∧ flags.mix = true)

/- The same in terms of counters. -/
def Passed
    (quota : Nat)
    (vCount qCount : Bool → Nat) (mixCount : Nat) : Prop :=
  (∃ b, quota ≤ vCount b ∧ quota ≤ qCount b) ∨
    ((∀ b, quota ≤ vCount b) ∧ quota ≤ mixCount)

/- Enough is counted to end the wait for the AUX messages. -/
def ConfPassed (n : Nat) (counts : Counts) : Prop :=
  Passed (faults n * 2 + 1)
    counts.vCount counts.auxCount counts.auxMixCount

/- Enough is counted to end the wait for the CONF messages. -/
def CoinPassed (n : Nat) (counts : Counts) : Prop :=
  Passed (faults n * 2 + 1)
    counts.vCount counts.confCount counts.confMixCount

/- The main goroutine against the loop it is in. -/
def MainDuties (n : Nat) (info : LoopInfo) : Main → Prop
| .idle => True
| .conf flags =>
    ConfHeard n info flags ∧ ¬ flags.Ready ∧
      CoinHeard n info Flags.new
| .coin flags =>
    ConfPassed n info.counts ∧ info.sendConf ≠ .none ∧
      CoinHeard n info flags ∧ ¬ flags.Ready
| .elect =>
    ConfPassed n info.counts ∧ CoinPassed n info.counts
| .decided _ =>
    ConfPassed n info.counts ∧ CoinPassed n info.counts

/- The part of a party that deals with FINISH messages. -/
structure FinishDuties
    (sent : List (BAMsg n)) (id : Fin n) (ba : BA) :
    Prop where
  decided :
    ∀ b, ba.main = .decided b →
      b ∈ ba.sendFinishSignal ∨ BA.finishMsg id b ∈ sent
  amplify :
    ∀ b, faults n + 1 ≤ ba.finishCount b →
      b ∈ ba.sendFinishSignal ∨ BA.finishMsg id b ∈ sent
  token :
    ba.launched = true →
      0 < ba.sendFinish ∨ ∃ b, BA.finishMsg id b ∈ sent
  outputNone :
    ba.output = none →
      ∀ b, ba.finishCount b ≤ faults n * 2
  outputSome :
    ∀ b, ba.output = some b →
      faults n * 2 + 1 ≤ ba.finishCount b

end BinaryAgreement

end Jumbo

------------------------------------------------------------
-- Handlers and Goroutines Keep the Duties of a Loop
------------------------------------------------------------

namespace Jumbo

namespace BinaryAgreement

variable {n : Nat}
variable {sent ms : List (BAMsg n)} {id : Fin n} {loop : Nat}
variable {info info' : LoopInfo}

/- A new loop owes its input only. -/
theorem LoopDuties.new
    (input : Bool) :
    LoopDuties sent id loop (LoopInfo.new input) where
  input := Or.inl (by simp [LoopInfo.new])
  relay := by
    intro b hCount
    simp [LoopInfo.new] at hCount
  valSent := by
    intro b hSent
    simp [LoopInfo.new] at hSent
  values := by
    intro b hCount
    simp [LoopInfo.new] at hCount
  justified := by
    intro b hb
    cases b <;> simp [LoopInfo.new] at hb
  aux := by
    intro b hCount
    simp [LoopInfo.new] at hCount
  auxDue := by
    intro hSent
    simp [LoopInfo.new] at hSent
  auxSent := by
    intro b hSent
    simp [LoopInfo.new] at hSent
  confDone := by
    intro hDone
    simp [LoopInfo.new] at hDone

/- More that has been sent keeps the duties. -/
theorem LoopDuties.append
    (hDuties : LoopDuties sent id loop info) :
    LoopDuties (sent ++ ms) id loop info :=
  { hDuties with
    valSent := fun b hb =>
      List.mem_append_left _ (hDuties.valSent b hb)
    auxSent := fun b hb =>
      List.mem_append_left _ (hDuties.auxSent b hb)
    confDone := by
      intro hDone
      rcases hDuties.confDone hDone with ⟨values, hMem⟩
      exact ⟨values, List.mem_append_left _ hMem⟩ }

/- The end of an iteration of `sendval`. -/
theorem LoopDuties.valDone
    {value : Bool}
    (hDuties : LoopDuties sent id loop info)
    (hNow : info.sendValNow = some value) :
    LoopDuties sent id loop
      { info with
        valSent := mark info.valSent value
        sendValNow := none } := by
  have hDue :
      ∀ b, ValDue info b →
        ValDue
          { info with
            valSent := mark info.valSent value
            sendValNow := none } b := by
    rintro b (hMem | hDone | hOld)
    · exact Or.inl hMem
    · exact Or.inr (Or.inl (by simp [hDone]))
    · rw [hNow] at hOld
      cases hOld
      exact Or.inr (Or.inl (by simp))
  exact
    { hDuties with
      input := hDue _ hDuties.input
      relay := fun b hb => hDue b (hDuties.relay b hb)
      valSent := by
        rintro b (hDone | hOld)
        · by_cases hb : b = value
          · rw [hb]
            exact hDuties.valSent value (Or.inr hNow)
          · apply hDuties.valSent b
            left
            simpa [hb] using hDone
        · cases hOld }

/- The early flag and AUX signal of the first loop. -/
theorem LoopDuties.flagTrue
    (hDuties : LoopDuties sent id loop info)
    (hLoop : loop = 0) :
    LoopDuties sent id loop
      { info with
        sendAuxSignal := info.sendAuxSignal ++ [true]
        values := info.values.set true } :=
  { hDuties with
    values := by
      intro b hb
      simp [hDuties.values b hb]
    justified := by
      intro b hb
      cases b with
      | true => exact Or.inr ⟨hLoop, rfl⟩
      | false =>
          apply hDuties.justified
          simpa using hb
    auxDue := by
      intro hSent
      rcases hDuties.auxDue hSent with
        ⟨b, hb, hMem | hDone⟩
      · exact ⟨b, hb,
          Or.inl (List.mem_append_left _ hMem)⟩
      · exact ⟨b, hb, Or.inr hDone⟩ }

/- A step of the goroutines of the loop keeps the duties. -/
theorem LoopDuties.loopStep
    {event : Event}
    (hDuties : LoopDuties sent id loop info)
    (hStep : LoopStep id loop info event info' ms) :
    LoopDuties (sent ++ ms) id loop info' := by
  have hAppend : LoopDuties (sent ++ ms) id loop info :=
    hDuties.append
  cases hStep with
  | valSkip value rest hSignal hSent =>
      have hDue :
          ∀ b, ValDue info b →
            ValDue { info with sendValSignal := rest } b := by
        rintro b (hMem | hDone)
        · rw [hSignal] at hMem
          rcases List.mem_cons.mp hMem with rfl | hRest
          · exact Or.inr (Or.inl hSent)
          · exact Or.inl hRest
        · exact Or.inr hDone
      exact
        { hAppend with
          input := hDue _ hDuties.input
          relay := fun b hb => hDue b (hDuties.relay b hb) }
  | valNew value rest second hSignal hNow hFresh =>
      have hDue :
          ∀ b, ValDue info b →
            ValDue
              { info with
                sendValSignal := rest
                sendValNow := some value
                secondVal := second } b := by
        rintro b (hMem | hDone | hOld)
        · rw [hSignal] at hMem
          rcases List.mem_cons.mp hMem with rfl | hRest
          · exact Or.inr (Or.inr rfl)
          · exact Or.inl hRest
        · exact Or.inr (Or.inl hDone)
        · rw [hNow] at hOld
          cases hOld
      exact
        { hAppend with
          input := hDue _ hDuties.input
          relay := fun b hb => hDue b (hDuties.relay b hb)
          valSent := by
            rintro b (hDone | hOld)
            · exact hAppend.valSent b (Or.inl hDone)
            · cases hOld
              exact List.mem_append_right _
                List.mem_cons_self }
  | valDone value hNow hLater => exact hAppend.valDone hNow
  | valDoneFirst hNow hLoop =>
      exact (hAppend.flagTrue hLoop).valDone hNow
  | second hLoop hSecond => exact { hAppend with }
  | secondDone hLoop hSecond =>
      exact { hAppend.flagTrue hLoop with }
  | auxSkip value rest hSignal hSent =>
      exact
        { hAppend with
          auxDue := by
            intro hFlag
            rcases hDuties.auxDue hFlag with
              ⟨b, hb, hMem | hDone⟩
            · rw [hSignal] at hMem
              rcases List.mem_cons.mp hMem with rfl | hRest
              · exact ⟨_, hb, Or.inr hSent⟩
              · exact ⟨b, hb, Or.inl hRest⟩
            · exact ⟨b, hb, Or.inr hDone⟩ }
  | auxNew value rest hSignal hFresh =>
      exact
        { hAppend with
          auxDue := by
            intro hFlag
            rcases hDuties.auxDue hFlag with
              ⟨b, hb, hMem | hDone⟩
            · rw [hSignal] at hMem
              rcases List.mem_cons.mp hMem with rfl | hRest
              · exact ⟨_, hb, Or.inr (by simp)⟩
              · exact ⟨b, hb, Or.inl hRest⟩
            · exact ⟨b, hb, Or.inr (by simp [hDone])⟩
          auxSent := by
            intro b hDone
            by_cases hb : b = value
            · rw [hb]
              exact List.mem_append_right _
                List.mem_cons_self
            · apply hAppend.auxSent b
              simpa [hb] using hDone }
  | conf hPending =>
      exact
        { hAppend with
          confDone := fun _ =>
            ⟨_, List.mem_append_right _ List.mem_cons_self⟩ }

/- So does a VAL, which may signal a new one. -/
theorem LoopDuties.handleVal
    (hFaults : 0 < faults n)
    (hDuties : LoopDuties sent id loop info)
    (value : Bool) :
    LoopDuties sent id loop
      (handleVal (faults n) info value) := by
  -- what holds when only the counter has moved
  have hCount :
      ∀ b, b ≠ value →
        bump info.vCount value b = info.vCount b := by
    intro b hb
    simp [hb]
  have hLe :
      ∀ b, info.vCount b ≤ bump info.vCount value b := by
    intro b
    simp
  have hJustified :
      ∀ b, info.values.get b = true →
        faults n * 2 + 1 ≤ bump info.vCount value b ∨
          (loop = 0 ∧ b = true) := by
    intro b hb
    rcases hDuties.justified b hb with hOld | hFirst
    · exact Or.inl (hOld.trans (hLe b))
    · exact Or.inr hFirst
  have hAuxDue :
      info.isAuxSent = true →
        ∃ b, faults n * 2 + 1 ≤ bump info.vCount value b ∧
          AuxDue info b := by
    intro hSent
    rcases hDuties.auxDue hSent with ⟨b, hb, hDue⟩
    exact ⟨b, hb.trans (hLe b), hDue⟩
  have hOld :
      ∀ quota b, quota ≠ bump info.vCount value value →
        quota ≤ bump info.vCount value b →
          quota ≤ info.vCount b := by
    intro quota b hNe hb
    by_cases hEq : b = value
    · subst hEq
      simp only [bump_apply, if_true] at hNe hb
      omega
    · rw [hCount b hEq] at hb
      exact hb
  unfold BinaryAgreement.handleVal
  dsimp only
  split
  · rename_i hRelay
    have hDue :
        ∀ b, ValDue info b →
          ValDue
            { info with
              vCount := bump info.vCount value
              sendValSignal :=
                info.sendValSignal ++ [value] } b := by
      rintro b (hMem | hDone)
      · exact Or.inl (List.mem_append_left _ hMem)
      · exact Or.inr hDone
    exact
      { hDuties with
        input := hDue _ hDuties.input
        relay := by
          intro b hb
          by_cases hEq : b = value
          · exact Or.inl
              (List.mem_append_right _ (by simp [hEq]))
          · apply hDue b
            apply hDuties.relay b
            rw [← hCount b hEq]
            exact hb
        values := fun b hb =>
          hDuties.values b (hOld _ b (by omega) hb)
        justified := hJustified
        aux := fun b hb =>
          hDuties.aux b (hOld _ b (by omega) hb)
        auxDue := hAuxDue }
  · rename_i hNotRelay
    have hRelay :
        ∀ b, faults n + 1 ≤ bump info.vCount value b →
          ValDue info b := fun b hb =>
      hDuties.relay b (hOld _ b (Ne.symm hNotRelay) hb)
    split
    · rename_i hQuorum
      have hValues :
          ∀ b, faults n * 2 + 1 ≤
              bump info.vCount value b →
            (info.values.set value).get b = true := by
        intro b hb
        by_cases hEq : b = value
        · simp [hEq]
        · rw [hCount b hEq] at hb
          simp [hDuties.values b hb]
      have hSetJustified :
          ∀ b, (info.values.set value).get b = true →
            faults n * 2 + 1 ≤ bump info.vCount value b ∨
              (loop = 0 ∧ b = true) := by
        intro b hb
        by_cases hEq : b = value
        · left
          rw [hEq, hQuorum]
        · apply hJustified b
          simpa [Ne.symm hEq] using hb
      split
      · rename_i hSent
        exact
          { hDuties with
            relay := hRelay
            values := hValues
            justified := hSetJustified
            aux := fun _ _ => hSent
            auxDue := hAuxDue }
      · exact
          { hDuties with
            relay := hRelay
            values := hValues
            justified := hSetJustified
            aux := fun _ _ => rfl
            auxDue := fun _ =>
              ⟨value, Nat.le_of_eq hQuorum.symm,
                Or.inl (List.mem_append_right _
                  List.mem_cons_self)⟩ }
    · rename_i hNotQuorum
      exact
        { hDuties with
          relay := hRelay
          values := fun b hb =>
            hDuties.values b
              (hOld _ b (Ne.symm hNotQuorum) hb)
          justified := hJustified
          aux := fun b hb =>
            hDuties.aux b (hOld _ b (Ne.symm hNotQuorum) hb)
          auxDue := hAuxDue }

/- So does any message of the loop. -/
theorem LoopDuties.loopReceive
    (hFaults : 0 < faults n)
    (hDuties : LoopDuties sent id loop info)
    (m : BAMsg n) :
    LoopDuties sent id loop (loopReceive id info m) := by
  unfold BinaryAgreement.loopReceive
  split
  · exact hDuties.handleVal hFaults m.value
  · rw [handleAux_eq]
    exact { hDuties with }
  · rcases handleConf_frame (faults n) info
      (confValueAt id info m) with ⟨_, _, _, _, hEq⟩
    rw [hEq]
    exact { hDuties with }
  · exact hDuties

end BinaryAgreement

end Jumbo

------------------------------------------------------------
-- Signals Against Counters
------------------------------------------------------------

namespace Jumbo

namespace BinaryAgreement

/- A counter fires exactly when it reaches its quota. -/
theorem fires_iff
    {quota count ready : Nat} {flag : Bool}
    (hHeard : 0 < ready ∨ flag = true ↔ quota ≤ count) :
    (0 < (if count + 1 = quota then ready + 1 else ready) ∨
        flag = true) ↔ quota ≤ count + 1 := by
  by_cases hQuota : count + 1 = quota
  · rw [if_pos hQuota]
    constructor
    · intro _
      omega
    · intro _
      exact Or.inl (Nat.succ_pos _)
  · rw [if_neg hQuota, hHeard]
    omega

/- The same for one of two counters. -/
theorem fires_bump_iff
    {quota : Nat} {count ready : Bool → Nat}
    {flag : Bool → Bool}
    (hHeard :
      ∀ b, 0 < ready b ∨ flag b = true ↔ quota ≤ count b)
    (value b : Bool) :
    (0 < (if count value + 1 = quota
          then bump ready value else ready) b ∨
        flag b = true) ↔ quota ≤ bump count value b := by
  by_cases hb : b = value
  · subst hb
    have hFires := fires_iff (hHeard b)
    rw [bump_apply, if_pos rfl, ← hFires]
    split <;> simp
  · simp only [bump_apply, if_neg hb, Nat.add_zero]
    rw [← hHeard b]
    split
    · simp [hb]
    · exact Iff.rfl

section

variable {quota : Nat} {vCount qCount : Bool → Nat}
variable {mixCount : Nat} {vReady qReady : Bool → Nat}
variable {mixReady : Nat} {flags : Flags}

/- One more message for a value, with its signal. -/
theorem Heard.bumpValue
    (hHeard :
      Heard quota vCount qCount mixCount
        vReady qReady mixReady flags)
    (value : Bool) :
    Heard quota (bump vCount value) qCount mixCount
      (if vCount value + 1 = quota
        then bump vReady value else vReady)
      qReady mixReady flags :=
  { hHeard with
    value := fires_bump_iff hHeard.value value }

/- One more message of the quorum, with its signal. -/
theorem Heard.bumpQuorum
    (hHeard :
      Heard quota vCount qCount mixCount
        vReady qReady mixReady flags)
    (value : Bool) :
    Heard quota vCount (bump qCount value) mixCount
      vReady
      (if qCount value + 1 = quota
        then bump qReady value else qReady)
      mixReady flags :=
  { hHeard with
    quorum := fires_bump_iff hHeard.quorum value }

/- One more message for both values, with its signal. -/
theorem Heard.bumpMix
    (hHeard :
      Heard quota vCount qCount mixCount
        vReady qReady mixReady flags) :
    Heard quota vCount qCount (mixCount + 1)
      vReady qReady
      (if mixCount + 1 = quota then mixReady + 1
        else mixReady)
      flags :=
  { hHeard with mix := fires_iff hHeard.mix }

/- Nothing has been counted yet. -/
theorem Heard.new :
    Heard (quota + 1) (fun _ => 0) (fun _ => 0) 0
      (fun _ => 0) (fun _ => 0) 0 Flags.new where
  value := by simp [Flags.new]
  quorum := by simp [Flags.new]
  mix := by simp [Flags.new]

/- Receiving a signal moves it into the flags. -/
theorem Heard.takeValue
    (hHeard :
      Heard quota vCount qCount mixCount
        vReady qReady mixReady flags)
    {b : Bool} (hPos : 0 < vReady b) :
    Heard quota vCount qCount mixCount
      (unbump vReady b) qReady mixReady
      (flags.select (.value b)).1 :=
  { hHeard with
    value := by
      intro c
      rw [← hHeard.value c]
      by_cases hc : c = b
      · subst hc
        simp [Flags.select, hPos]
      · simp [Flags.select, hc] }

/- The signal of a quorum is taken into its flag. -/
theorem Heard.takeQuorum
    (hHeard :
      Heard quota vCount qCount mixCount
        vReady qReady mixReady flags)
    {b : Bool} (hPos : 0 < qReady b) :
    Heard quota vCount qCount mixCount
      vReady (unbump qReady b) mixReady
      (flags.select (.quorum b)).1 :=
  { hHeard with
    quorum := by
      intro c
      rw [← hHeard.quorum c]
      by_cases hc : c = b
      · subst hc
        simp [Flags.select, hPos]
      · simp [Flags.select, hc] }

/- The signal for both values is taken into its flag. -/
theorem Heard.takeMix
    (hHeard :
      Heard quota vCount qCount mixCount
        vReady qReady mixReady flags)
    (hPos : 0 < mixReady) :
    Heard quota vCount qCount mixCount
      vReady qReady (mixReady - 1)
      (flags.select .mix).1 :=
  { hHeard with
    mix := by
      rw [← hHeard.mix]
      simp [Flags.select, hPos] }

/- Flags that end a phase come with their counters. -/
theorem Heard.passed
    (hHeard :
      Heard quota vCount qCount mixCount
        vReady qReady mixReady flags)
    (hReady : flags.Ready) :
    Passed quota vCount qCount mixCount := by
  rcases hReady with ⟨b, hValue, hQuorum⟩ | ⟨hBoth, hMix⟩
  · exact Or.inl
      ⟨b, (hHeard.value b).mp (Or.inr hValue),
        (hHeard.quorum b).mp (Or.inr hQuorum)⟩
  · exact Or.inr
      ⟨fun b => (hHeard.value b).mp (Or.inr (hBoth b)),
        hHeard.mix.mp (Or.inr hMix)⟩

/- Once no signal waits, full counters end the phase. -/
theorem Heard.ready
    (hHeard :
      Heard quota vCount qCount mixCount
        vReady qReady mixReady flags)
    (hValue : ∀ b, vReady b = 0)
    (hQuorum : ∀ b, qReady b = 0)
    (hMix : mixReady = 0)
    (hPassed : Passed quota vCount qCount mixCount) :
    flags.Ready := by
  have hFlag :
      ∀ b, quota ≤ vCount b → flags.value b = true := by
    intro b hb
    rcases (hHeard.value b).mpr hb with hPos | hFlag
    · rw [hValue b] at hPos
      exact absurd hPos (Nat.lt_irrefl 0)
    · exact hFlag
  rcases hPassed with ⟨b, hb, hCount⟩ | ⟨hBoth, hCount⟩
  · refine Or.inl ⟨b, hFlag b hb, ?_⟩
    rcases (hHeard.quorum b).mpr hCount with hPos | hDone
    · rw [hQuorum b] at hPos
      exact absurd hPos (Nat.lt_irrefl 0)
    · exact hDone
  · refine Or.inr ⟨fun b => hFlag b (hBoth b), ?_⟩
    rcases hHeard.mix.mpr hCount with hPos | hDone
    · rw [hMix] at hPos
      exact absurd hPos (Nat.lt_irrefl 0)
    · exact hDone

/- Larger counts pass as well. -/
theorem Passed.mono
    {vCount' qCount' : Bool → Nat} {mixCount' : Nat}
    (hPassed : Passed quota vCount qCount mixCount)
    (hV : ∀ b, vCount b ≤ vCount' b)
    (hQ : ∀ b, qCount b ≤ qCount' b)
    (hMix : mixCount ≤ mixCount') :
    Passed quota vCount' qCount' mixCount' := by
  rcases hPassed with ⟨b, hb, hCount⟩ | ⟨hBoth, hCount⟩
  · exact Or.inl
      ⟨b, hb.trans (hV b), hCount.trans (hQ b)⟩
  · exact Or.inr
      ⟨fun b => (hBoth b).trans (hV b), hCount.trans hMix⟩

end

/- A select reports exactly that the phase can end. -/
theorem select_iff_ready
    {flags : Flags} (signal : Signal)
    (hNot : ¬ flags.Ready) :
    (flags.select signal).2 = true ↔
      (flags.select signal).1.Ready := by
  cases signal with
  | value b =>
      simp only [Flags.select, Flags.Ready, mark_apply,
        Bool.or_eq_true, Bool.and_eq_true, beq_iff_eq]
      constructor
      · rintro (hQuorum | ⟨hOther, hMix⟩)
        · exact Or.inl ⟨b, Or.inr rfl, hQuorum⟩
        · refine Or.inr ⟨?_, hMix⟩
          intro c
          by_cases hc : c = b
          · exact Or.inr hc
          · left
            rw [Bool.eq_not_of_ne hc]
            exact hOther
      · rintro (⟨c, hValue | hc, hQuorum⟩ | ⟨hBoth, hMix⟩)
        · exact absurd
            (Or.inl ⟨c, hValue, hQuorum⟩) hNot
        · rw [← hc]
          exact Or.inl hQuorum
        · rcases hBoth (!b) with hOther | hSelf
          · exact Or.inr ⟨hOther, hMix⟩
          · cases b <;> cases hSelf
  | quorum b =>
      simp only [Flags.select, Flags.Ready, mark_apply,
        Bool.or_eq_true, beq_iff_eq]
      constructor
      · intro hValue
        exact Or.inl ⟨b, hValue, Or.inr rfl⟩
      · rintro (⟨c, hValue, hQuorum | hc⟩ | hBoth)
        · exact absurd
            (Or.inl ⟨c, hValue, hQuorum⟩) hNot
        · rw [← hc]
          exact hValue
        · exact absurd (Or.inr hBoth) hNot
  | mix =>
      simp only [Flags.select, Flags.Ready,
        Bool.and_eq_true]
      constructor
      · rintro ⟨hFalse, hTrue⟩
        refine Or.inr ⟨?_, trivial⟩
        intro c
        cases c
        · exact hFalse
        · exact hTrue
      · rintro (hOne | ⟨hBoth, _⟩)
        · exact absurd (Or.inl hOne) hNot
        · exact ⟨hBoth false, hBoth true⟩

end BinaryAgreement

end Jumbo

------------------------------------------------------------
-- The Main Goroutine
------------------------------------------------------------

namespace Jumbo

namespace BinaryAgreement

variable {n : Nat}
variable {sent ms : List (BAMsg n)} {id : Fin n} {loop : Nat}
variable {info info' : LoopInfo}

/- What `handle_val` leaves alone, and its value signals. -/
theorem handleVal_ready
    {faults : Nat} (hFaults : 0 < faults)
    (info : LoopInfo) (value : Bool) :
    ∃ sendValSignal values sendAuxSignal isAuxSent,
      handleVal faults info value =
        { info with
          vCount := bump info.vCount value
          sendValSignal := sendValSignal
          valueReady :=
            if info.vCount value + 1 = faults * 2 + 1
            then bump info.valueReady value
            else info.valueReady
          valueReadyConf :=
            if info.vCount value + 1 = faults * 2 + 1
            then bump info.valueReadyConf value
            else info.valueReadyConf
          values := values
          sendAuxSignal := sendAuxSignal
          isAuxSent := isAuxSent } := by
  unfold handleVal
  simp only [bump_apply, if_true]
  split
  · rename_i hRelay
    have hNot :
        ¬ info.vCount value + 1 = faults * 2 + 1 := by
      omega
    rw [if_neg hNot, if_neg hNot]
    exact ⟨_, _, _, _, rfl⟩
  · split
    · split <;> exact ⟨_, _, _, _, rfl⟩
    · exact ⟨_, _, _, _, rfl⟩

/- A message keeps what the wait for AUX has heard. -/
theorem ConfHeard.loopReceive
    {flags : Flags}
    (hFaults : 0 < faults n)
    (hHeard : ConfHeard n info flags)
    (m : BAMsg n) :
    ConfHeard n (loopReceive id info m) flags := by
  unfold BinaryAgreement.loopReceive
  split
  · rcases handleVal_ready hFaults info m.value with
      ⟨_, _, _, _, hEq⟩
    rw [hEq]
    exact hHeard.bumpValue m.value
  · rw [handleAux_eq]
    exact (hHeard.bumpQuorum m.value).bumpMix
  · rcases handleConf_frame (faults n) info
      (confValueAt id info m) with ⟨_, _, _, _, hEq⟩
    rw [hEq]
    exact hHeard
  · exact hHeard

/- A message keeps what the wait for CONF has heard. -/
theorem CoinHeard.loopReceive
    {flags : Flags}
    (hFaults : 0 < faults n)
    (hHeard : CoinHeard n info flags)
    (m : BAMsg n) :
    CoinHeard n (loopReceive id info m) flags := by
  unfold BinaryAgreement.loopReceive
  split
  · rcases handleVal_ready hFaults info m.value with
      ⟨_, _, _, _, hEq⟩
    rw [hEq]
    exact hHeard.bumpValue m.value
  · rw [handleAux_eq]
    exact hHeard
  · rcases handleConf_cases (faults n) info
      (confValueAt id info m) with
      ⟨_, hEq⟩ | ⟨_, hEq⟩ | ⟨b, _, hEq⟩
    · rw [hEq]
      exact hHeard
    · rw [hEq, countConfMix_eq]
      exact hHeard.bumpMix
    · rw [hEq, countConf_eq]
      exact (hHeard.bumpQuorum b).bumpMix
  · exact hHeard

/- Counters only grow. -/
structure CountsLe (counts counts' : Counts) : Prop where
  vCount : ∀ b, counts.vCount b ≤ counts'.vCount b
  auxCount : ∀ b, counts.auxCount b ≤ counts'.auxCount b
  auxMixCount : counts.auxMixCount ≤ counts'.auxMixCount
  confCount : ∀ b, counts.confCount b ≤ counts'.confCount b
  confMixCount : counts.confMixCount ≤ counts'.confMixCount

/- No count is above itself. -/
theorem CountsLe.rfl {counts : Counts} :
    CountsLe counts counts where
  vCount := fun _ => Nat.le_refl _
  auxCount := fun _ => Nat.le_refl _
  auxMixCount := Nat.le_refl _
  confCount := fun _ => Nat.le_refl _
  confMixCount := Nat.le_refl _

/- A message lowers no count. -/
theorem loopReceive_counts_le
    (id : Fin n) (info : LoopInfo) (m : BAMsg n) :
    CountsLe info.counts (loopReceive id info m).counts := by
  unfold BinaryAgreement.loopReceive
  split
  · rw [handleVal_counts]
    exact
      { CountsLe.rfl with
        vCount := fun b => by simp [LoopInfo.counts] }
  · rw [handleAux_counts]
    exact
      { CountsLe.rfl with
        auxCount := fun b => by simp [LoopInfo.counts]
        auxMixCount := Nat.le_succ _ }
  · rw [handleConf_counts]
    exact
      { CountsLe.rfl with
        confCount := fun b => Nat.le_add_right _ _
        confMixCount := Nat.le_add_right _ _ }
  · exact .rfl

/- Larger counts end the wait for AUX as well. -/
theorem ConfPassed.mono
    {counts counts' : Counts}
    (hPassed : ConfPassed n counts)
    (hLe : CountsLe counts counts') :
    ConfPassed n counts' :=
  Passed.mono hPassed hLe.vCount hLe.auxCount
    hLe.auxMixCount

/- Larger counts end the wait for CONF as well. -/
theorem CoinPassed.mono
    {counts counts' : Counts}
    (hPassed : CoinPassed n counts)
    (hLe : CountsLe counts counts') :
    CoinPassed n counts' :=
  Passed.mono hPassed hLe.vCount hLe.confCount
    hLe.confMixCount

/- A message keeps where the main loop may stand. -/
theorem MainDuties.loopReceive
    {main : Main}
    (hFaults : 0 < faults n)
    (hMain : MainDuties n info main)
    (m : BAMsg n) :
    MainDuties n (loopReceive id info m) main := by
  have hLe := loopReceive_counts_le id info m
  cases main with
  | idle => trivial
  | conf flags =>
      exact ⟨ConfHeard.loopReceive hFaults hMain.1 m,
        hMain.2.1,
        CoinHeard.loopReceive hFaults hMain.2.2 m⟩
  | coin flags =>
      refine ⟨hMain.1.mono hLe, ?_,
        CoinHeard.loopReceive hFaults hMain.2.2.1 m,
        hMain.2.2.2⟩
      rw [loopReceive_sendConf]
      exact hMain.2.1
  | elect | decided _ =>
      exact ⟨hMain.1.mono hLe, hMain.2.mono hLe⟩

/- So does a step of the goroutines of the loop. -/
theorem MainDuties.loopStep
    {main : Main} {event : Event}
    (hMain : MainDuties n info main)
    (hStep : LoopStep id loop info event info' ms) :
    MainDuties n info' main := by
  have hCounts := hStep.counts_eq
  have hConf :
      info.sendConf ≠ .none → info'.sendConf ≠ .none := by
    intro hSome
    cases hStep with
    | conf => simp
    | _ => exact hSome
  cases main with
  | idle => trivial
  | conf flags =>
      refine ⟨?_, hMain.2.1, ?_⟩
      · cases hStep <;> exact hMain.1
      · cases hStep <;> exact hMain.2.2
  | coin flags =>
      refine ⟨?_, hConf hMain.2.1, ?_, hMain.2.2.2⟩
      · rw [hCounts]
        exact hMain.1
      · cases hStep <;> exact hMain.2.2.1
  | elect | decided _ =>
      refine ⟨?_, ?_⟩
      · rw [hCounts]
        exact hMain.1
      · rw [hCounts]
        exact hMain.2

/- The main loop of a new loop has heard nothing. -/
theorem MainDuties.new (input : Bool) :
    MainDuties n (LoopInfo.new input)
      (.conf Flags.new) := by
  refine ⟨Heard.new, ?_, Heard.new⟩
  simp [Flags.Ready, Flags.new]

/- A signal before `sendconf` has been received. -/
theorem ConfHeard.take
    {flags : Flags} {signal : Signal}
    (hHeard : ConfHeard n info flags)
    (hTake : info.takeConf signal = some info') :
    ConfHeard n info' (flags.select signal).1 := by
  cases signal with
  | value b =>
      rcases Option.ite_none_right_eq_some.mp hTake with
        ⟨hPos, hEq⟩
      cases hEq
      exact hHeard.takeValue hPos
  | quorum b =>
      rcases Option.ite_none_right_eq_some.mp hTake with
        ⟨hPos, hEq⟩
      cases hEq
      exact hHeard.takeQuorum hPos
  | mix =>
      rcases Option.ite_none_right_eq_some.mp hTake with
        ⟨hPos, hEq⟩
      cases hEq
      exact hHeard.takeMix hPos

/- A signal before the coin has been received. -/
theorem CoinHeard.take
    {flags : Flags} {signal : Signal}
    (hHeard : CoinHeard n info flags)
    (hTake : info.takeCoin signal = some info') :
    CoinHeard n info' (flags.select signal).1 := by
  cases signal with
  | value b =>
      rcases Option.ite_none_right_eq_some.mp hTake with
        ⟨hPos, hEq⟩
      cases hEq
      exact hHeard.takeValue hPos
  | quorum b =>
      rcases Option.ite_none_right_eq_some.mp hTake with
        ⟨hPos, hEq⟩
      cases hEq
      exact hHeard.takeQuorum hPos
  | mix =>
      rcases Option.ite_none_right_eq_some.mp hTake with
        ⟨hPos, hEq⟩
      cases hEq
      exact hHeard.takeMix hPos

/- The phase before `sendconf` keeps the coin's signals. -/
theorem takeConf_coinHeard
    {flags : Flags} {signal : Signal}
    (hHeard : CoinHeard n info flags)
    (hTake : info.takeConf signal = some info') :
    CoinHeard n info' flags := by
  cases signal <;>
    rcases Option.ite_none_right_eq_some.mp hTake with
      ⟨_, hEq⟩ <;>
    cases hEq <;>
    exact hHeard

/- Taking signals keeps what is due in the loop. -/
theorem LoopDuties.takeConf
    {signal : Signal}
    (hDuties : LoopDuties sent id loop info)
    (hTake : info.takeConf signal = some info') :
    LoopDuties sent id loop info' := by
  cases signal <;>
    rcases Option.ite_none_right_eq_some.mp hTake with
      ⟨_, hEq⟩ <;>
    cases hEq <;>
    exact { hDuties with }

/- A signal that is taken for the coin keeps the duties. -/
theorem LoopDuties.takeCoin
    {signal : Signal}
    (hDuties : LoopDuties sent id loop info)
    (hTake : info.takeCoin signal = some info') :
    LoopDuties sent id loop info' := by
  cases signal <;>
    rcases Option.ite_none_right_eq_some.mp hTake with
      ⟨_, hEq⟩ <;>
    cases hEq <;>
    exact { hDuties with }

end BinaryAgreement

end Jumbo
