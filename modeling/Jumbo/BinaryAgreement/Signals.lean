import Jumbo.BinaryAgreement.Counting

/-
  What the signals of a loop tell the main goroutine.

  A waiting value signal says that the value flag is set, a
  waiting CONF signal that the counter has reached its
  quorum. The flags of `Launch` inherit this, so a loop is
  left only with a value that the flags or a quorum support.

  Main declarations:
    * `LoopSignals`
    * `MainSignals`
    * `partySignals`
-/

------------------------------------------------------------
-- Signals of One Loop
------------------------------------------------------------

namespace Jumbo

namespace BinaryAgreement

variable {n : Nat}

/- The state of one loop of party `id` after sending `sent`. -/
structure LoopSignals
    (sent : List (BAMsg n)) (id : Fin n) (loop : Nat)
    (info : LoopInfo) : Prop where
  valueReady :
    ∀ b, 0 < info.valueReady b → info.values.get b = true
  valueReadyConf :
    ∀ b, 0 < info.valueReadyConf b →
      info.values.get b = true
  confReady :
    ∀ b, 0 < info.confReady b →
      faults n * 2 + 1 ≤ info.confCount b
  pending :
    info.sendConf = .pending → ∃ b, info.values.get b = true
  confSent :
    ∀ values, BA.confMsg id loop values ∈ sent →
      info.sendConf = .done ∧
        (∃ b, values.get b = true) ∧
          ∀ b, values.get b = true →
            info.values.get b = true

/- The flags of the main goroutine in loop `info`. -/
def MainSignals (n : Nat) (info : LoopInfo) : Main → Prop
| .idle => True
| .conf flags =>
    info.sendConf = .none ∧
      ∀ b, flags.value b = true → info.values.get b = true
| .coin flags =>
    (∀ b, flags.value b = true →
      info.values.get b = true) ∧
      ∀ b, flags.quorum b = true →
        faults n * 2 + 1 ≤ info.confCount b
| .elect =>
    (∃ b, info.values.get b = true ∧
      faults n * 2 + 1 ≤ info.confCount b) ∨
      ∀ b, info.values.get b = true
| .decided _ => True

/- A loop that has just started, before any CONF of it. -/
theorem LoopSignals.new
    {sent : List (BAMsg n)} {id : Fin n} {loop : Nat}
    (input : Bool)
    (hNone : ∀ values, BA.confMsg id loop values ∉ sent) :
    LoopSignals sent id loop (LoopInfo.new input) where
  valueReady := fun b hPos => absurd hPos (Nat.lt_irrefl 0)
  valueReadyConf := fun b hPos =>
    absurd hPos (Nat.lt_irrefl 0)
  confReady := fun b hPos => absurd hPos (Nat.lt_irrefl 0)
  pending := fun hPending => by cases hPending
  confSent := fun values hSent =>
    absurd hSent (hNone values)

/- Broadcasts other than the loop's CONF change nothing. -/
theorem LoopSignals.append
    {sent ms : List (BAMsg n)} {id : Fin n} {loop : Nat}
    {info : LoopInfo}
    (hSignals : LoopSignals sent id loop info)
    (hNone : ∀ values, BA.confMsg id loop values ∉ ms) :
    LoopSignals (sent ++ ms) id loop info where
  valueReady := hSignals.valueReady
  valueReadyConf := hSignals.valueReadyConf
  confReady := hSignals.confReady
  pending := hSignals.pending
  confSent := by
    intro values hSent
    rcases List.mem_append.mp hSent with hOld | hNew
    · exact hSignals.confSent values hOld
    · exact absurd hNew (hNone values)

/- Setting a value flag keeps what the loop says. -/
theorem LoopSignals.setValue
    {sent : List (BAMsg n)} {id : Fin n} {loop : Nat}
    {info : LoopInfo} (b : Bool)
    (hSignals : LoopSignals sent id loop info) :
    LoopSignals sent id loop
      { info with values := info.values.set b } where
  valueReady := by
    intro c hPos
    simp [hSignals.valueReady c hPos]
  valueReadyConf := by
    intro c hPos
    simp [hSignals.valueReadyConf c hPos]
  confReady := hSignals.confReady
  pending := fun _ => ⟨b, by simp⟩
  confSent := by
    intro values hSent
    rcases hSignals.confSent values hSent with
      ⟨hDone, hSome, hSub⟩
    refine ⟨hDone, hSome, ?_⟩
    intro c hc
    simp [hSub c hc]

/- Values that are set stay set. -/
def ValuesLe (info info' : LoopInfo) : Prop :=
  ∀ b, info.values.get b = true →
    info'.values.get b = true

theorem ValuesLe.rfl {info : LoopInfo} :
    ValuesLe info info :=
  fun _ h => h

/- Writing a flag takes no flag back. -/
theorem ValuesLe.of_set
    {info info' : LoopInfo} {b : Bool}
    (hSet : info'.values = info.values.set b) :
    ValuesLe info info' := by
  intro c hc
  rw [hSet]
  simp [hc]

/- A step of a loop takes no flag back. -/
theorem LoopStep.values_le
    {id : Fin n} {loop : Nat} {info info' : LoopInfo}
    {event : Event} {ms : List (BAMsg n)}
    (hStep : LoopStep id loop info event info' ms) :
    ValuesLe info info' := by
  cases hStep with
  | valDoneFirst => exact .of_set (b := true) rfl
  | secondDone => exact .of_set (b := true) rfl
  | _ => exact .rfl

/- `handle_val` takes no flag back. -/
theorem handleVal_values_le
    (faults : Nat) (info : LoopInfo) (value : Bool) :
    ValuesLe info (handleVal faults info value) := by
  unfold handleVal
  dsimp only
  split
  · exact .rfl
  · split
    · split
      · exact .of_set (b := value) rfl
      · exact .of_set (b := value) rfl
    · exact .rfl

/- A message takes no flag back. -/
theorem loopReceive_values_le
    (id : Fin n) (info : LoopInfo) (m : BAMsg n) :
    ValuesLe info (loopReceive id info m) := by
  unfold loopReceive
  split
  · exact handleVal_values_le _ _ _
  · rw [handleAux_eq]
    exact .rfl
  · rcases handleConf_frame (faults n) info
      (confValueAt id info m) with ⟨_, _, _, _, hEq⟩
    rw [hEq]
    exact .rfl
  · exact .rfl

end BinaryAgreement

end Jumbo

------------------------------------------------------------
-- Handlers and Goroutines Keep the Signals
------------------------------------------------------------

namespace Jumbo

namespace BinaryAgreement

variable {n : Nat}
variable {sent : List (BAMsg n)} {id : Fin n} {loop : Nat}
variable {info info' : LoopInfo}

/- `handle_val` gives its signal with a quorum. -/
theorem LoopSignals.handleVal
    (hSignals : LoopSignals sent id loop info)
    (faults : Nat) (value : Bool) :
    LoopSignals sent id loop
      (handleVal faults info value) := by
  have hSet := hSignals.setValue value
  unfold BinaryAgreement.handleVal
  dsimp only
  split
  · exact { hSignals with }
  · split
    · have hReady :
          ∀ count b, (0 < count b →
              info.values.get b = true) →
            0 < bump count value b →
              (info.values.set value).get b = true := by
        intro count b hOld hPos
        by_cases hb : value = b
        · simp [hb]
        · have hSame : 0 < count b := by
            simpa [Ne.symm hb] using hPos
          simp [hOld hSame]
      split
      · exact
          { hSet with
            valueReady := fun b =>
              hReady _ b (hSignals.valueReady b)
            valueReadyConf := fun b =>
              hReady _ b (hSignals.valueReadyConf b) }
      · exact
          { hSet with
            valueReady := fun b =>
              hReady _ b (hSignals.valueReady b)
            valueReadyConf := fun b =>
              hReady _ b (hSignals.valueReadyConf b) }
    · exact { hSignals with }

/- `handle_aux` gives signals of its own only. -/
theorem LoopSignals.handleAux
    (hSignals : LoopSignals sent id loop info)
    (faults : Nat) (value : Bool) :
    LoopSignals sent id loop
      (handleAux faults info value) := by
  rw [handleAux_eq]
  exact { hSignals with }

/- `handle_conf` gives its signal with a quorum. -/
theorem LoopSignals.handleConf
    (hSignals : LoopSignals sent id loop info)
    (values : Values) :
    LoopSignals sent id loop
      (handleConf (faults n) info values) := by
  rcases handleConf_cases (faults n) info values with
    ⟨_, hEq⟩ | ⟨_, hEq⟩ | ⟨c, _, hEq⟩
  · rw [hEq]
    exact hSignals
  · rw [hEq, countConfMix_eq]
    exact { hSignals with }
  · rw [hEq, countConf_eq]
    refine { hSignals with confReady := ?_ }
    intro b hPos
    dsimp only at hPos ⊢
    rw [bump_apply]
    split_ifs at hPos with hQuorum
    · by_cases hb : b = c
      · subst hb
        rw [if_pos rfl]
        exact Nat.le_of_eq hQuorum.symm
      · apply Nat.le_add_right_of_le
        apply hSignals.confReady b
        simpa [hb] using hPos
    · exact Nat.le_add_right_of_le
        (hSignals.confReady b hPos)

/- What is read keeps the signals backed. -/
theorem LoopSignals.loopReceive
    (hSignals : LoopSignals sent id loop info)
    (m : BAMsg n) :
    LoopSignals sent id loop (loopReceive id info m) := by
  unfold BinaryAgreement.loopReceive
  split
  · exact hSignals.handleVal _ _
  · exact hSignals.handleAux _ _
  · exact hSignals.handleConf _
  · exact hSignals

/- A step of a loop keeps its signals backed. -/
theorem LoopSignals.loopStep
    {event : Event} {ms : List (BAMsg n)}
    (hSignals : LoopSignals sent id loop info)
    (hStep : LoopStep id loop info event info' ms) :
    LoopSignals (sent ++ ms) id loop info' := by
  cases hStep with
  | valNew value =>
      exact { hSignals.append (by simp [BA.valMsg,
        BA.confMsg]) with }
  | second =>
      exact { hSignals.append (by simp [BA.valMsg,
        BA.confMsg]) with }
  | auxNew value =>
      exact { hSignals.append (by simp [BA.auxMsg,
        BA.confMsg]) with }
  | valSkip | valDone | auxSkip =>
      rw [List.append_nil]
      exact { hSignals with }
  | valDoneFirst | secondDone =>
      rw [List.append_nil]
      exact { hSignals.setValue true with }
  | conf hPending =>
      refine { hSignals with pending := ?_, confSent := ?_ }
      · exact fun hDone => by cases hDone
      · intro values hSent
        rcases List.mem_append.mp hSent with hOld | hNew
        · have hDone := (hSignals.confSent values hOld).1
          rw [hPending] at hDone
          cases hDone
        · have hEq : values = info.values := by
            simpa [BA.confMsg] using hNew
          rw [hEq]
          exact ⟨rfl, hSignals.pending hPending,
            fun _ h => h⟩

/- A signal that is taken leaves the others backed. -/
theorem LoopSignals.takeConf
    {signal : Signal}
    (hSignals : LoopSignals sent id loop info)
    (hTake : info.takeConf signal = some info') :
    LoopSignals sent id loop info' := by
  cases signal with
  | value b =>
      rcases Option.ite_none_right_eq_some.mp hTake with
        ⟨_, hEq⟩
      cases hEq
      refine { hSignals with valueReady := ?_ }
      intro c hPos
      apply hSignals.valueReady c
      exact Nat.lt_of_lt_of_le hPos (by simp)
  | quorum b =>
      rcases Option.ite_none_right_eq_some.mp hTake with
        ⟨_, hEq⟩
      cases hEq
      exact { hSignals with }
  | mix =>
      rcases Option.ite_none_right_eq_some.mp hTake with
        ⟨_, hEq⟩
      cases hEq
      exact { hSignals with }

/- So it is with the signals before the coin. -/
theorem LoopSignals.takeCoin
    {signal : Signal}
    (hSignals : LoopSignals sent id loop info)
    (hTake : info.takeCoin signal = some info') :
    LoopSignals sent id loop info' := by
  cases signal with
  | value b =>
      rcases Option.ite_none_right_eq_some.mp hTake with
        ⟨_, hEq⟩
      cases hEq
      refine { hSignals with valueReadyConf := ?_ }
      intro c hPos
      apply hSignals.valueReadyConf c
      exact Nat.lt_of_lt_of_le hPos (by simp)
  | quorum b =>
      rcases Option.ite_none_right_eq_some.mp hTake with
        ⟨_, hEq⟩
      cases hEq
      refine { hSignals with confReady := ?_ }
      intro c hPos
      apply hSignals.confReady c
      exact Nat.lt_of_lt_of_le hPos (by simp)
  | mix =>
      rcases Option.ite_none_right_eq_some.mp hTake with
        ⟨_, hEq⟩
      cases hEq
      exact { hSignals with }

end BinaryAgreement

end Jumbo

------------------------------------------------------------
-- The Main Goroutine
------------------------------------------------------------

namespace Jumbo

namespace BinaryAgreement

variable {n : Nat}

/- More values and CONF messages keep the flags justified. -/
theorem MainSignals.mono
    {info info' : LoopInfo} {main : Main}
    (hMain : MainSignals n info main)
    (hConf : info.sendConf = .none → info'.sendConf = .none)
    (hValues : ValuesLe info info')
    (hCount : ∀ b, info.confCount b ≤ info'.confCount b) :
    MainSignals n info' main := by
  cases main with
  | idle => trivial
  | conf flags =>
      exact ⟨hConf hMain.1,
        fun b hb => hValues b (hMain.2 b hb)⟩
  | coin flags =>
      exact ⟨fun b hb => hValues b (hMain.1 b hb),
        fun b hb => (hMain.2 b hb).trans (hCount b)⟩
  | elect =>
      rcases hMain with ⟨b, hb, hQuorum⟩ | hBoth
      · exact Or.inl ⟨b, hValues b hb,
          hQuorum.trans (hCount b)⟩
      · exact Or.inr fun b => hValues b (hBoth b)
  | decided value => trivial

/- Flags after a select stay justified by its signal. -/
theorem select_value
    {flags : Flags} {signal : Signal} {b : Bool}
    (hFlag : (flags.select signal).1.value b = true) :
    flags.value b = true ∨ signal = .value b := by
  cases signal with
  | value c =>
      by_cases hb : b = c
      · exact Or.inr (by rw [hb])
      · left
        simpa [Flags.select, hb] using hFlag
  | quorum c => exact Or.inl hFlag
  | mix => exact Or.inl hFlag

/- A quorum flag is set by its own signal. -/
theorem select_quorum
    {flags : Flags} {signal : Signal} {b : Bool}
    (hFlag : (flags.select signal).1.quorum b = true) :
    flags.quorum b = true ∨ signal = .quorum b := by
  cases signal with
  | value c => exact Or.inl hFlag
  | quorum c =>
      by_cases hb : b = c
      · exact Or.inr (by rw [hb])
      · left
        simpa [Flags.select, hb] using hFlag
  | mix => exact Or.inl hFlag

/- A phase ends with a value and its quorum, or both values. -/
theorem select_ready
    {flags : Flags} {signal : Signal}
    (hReady : (flags.select signal).2 = true) :
    (∃ b, (flags.select signal).1.value b = true ∧
      (flags.select signal).1.quorum b = true) ∨
      ∀ b, (flags.select signal).1.value b = true := by
  cases signal with
  | value c =>
      simp only [Flags.select, Bool.or_eq_true,
        Bool.and_eq_true] at hReady ⊢
      rcases hReady with hQuorum | ⟨hOther, _⟩
      · exact Or.inl ⟨c, by simp, hQuorum⟩
      · right
        intro b
        cases b <;> cases c <;> simp_all
  | quorum c =>
      exact Or.inl ⟨c, hReady, by simp [Flags.select]⟩
  | mix =>
      right
      simp only [Flags.select, Bool.and_eq_true] at hReady ⊢
      intro b
      cases b
      · exact hReady.1
      · exact hReady.2

/- Only a signal that is there is taken. -/
theorem takeConf_value
    {info info' : LoopInfo} {b : Bool}
    (hTake : info.takeConf (.value b) = some info') :
    0 < info.valueReady b :=
  (Option.ite_none_right_eq_some.mp hTake).1

/- So it is before the coin. -/
theorem takeCoin_value
    {info info' : LoopInfo} {b : Bool}
    (hTake : info.takeCoin (.value b) = some info') :
    0 < info.valueReadyConf b :=
  (Option.ite_none_right_eq_some.mp hTake).1

/- So it is with the quorum of CONF. -/
theorem takeCoin_quorum
    {info info' : LoopInfo} {b : Bool}
    (hTake : info.takeCoin (.quorum b) = some info') :
    0 < info.confReady b :=
  (Option.ite_none_right_eq_some.mp hTake).1

/- Taking a signal leaves the other goroutines alone. -/
theorem takeConf_same
    {info info' : LoopInfo} {signal : Signal}
    (hTake : info.takeConf signal = some info') :
    info'.values = info.values ∧
      info'.sendConf = info.sendConf ∧
        info'.input = info.input ∧
          info'.sendValSignal = info.sendValSignal := by
  cases signal <;>
    rcases Option.ite_none_right_eq_some.mp hTake with
      ⟨_, hEq⟩ <;>
    cases hEq <;>
    exact ⟨rfl, rfl, rfl, rfl⟩

/- A signal taken before the coin changes nothing else. -/
theorem takeCoin_same
    {info info' : LoopInfo} {signal : Signal}
    (hTake : info.takeCoin signal = some info') :
    info'.values = info.values ∧
      info'.sendConf = info.sendConf ∧
        info'.input = info.input ∧
          info'.sendValSignal = info.sendValSignal := by
  cases signal <;>
    rcases Option.ite_none_right_eq_some.mp hTake with
      ⟨_, hEq⟩ <;>
    cases hEq <;>
    exact ⟨rfl, rfl, rfl, rfl⟩

end BinaryAgreement

end Jumbo

------------------------------------------------------------
-- Signals of One Party
------------------------------------------------------------

namespace Jumbo

namespace BinaryAgreement

variable {n : Nat}

/-
  The signals of all loops are backed by messages, and no
  CONF is sent ahead of the loops.
-/
structure PartySignals
    (sent : List (BAMsg n)) (id : Fin n) (ba : BA) :
    Prop where
  loops :
    ba.launched = true → ∀ loop, loop ≤ ba.loop →
      LoopSignals sent id loop (ba.loops loop)
  ahead :
    ∀ loop values, BA.confMsg id loop values ∈ sent →
      ba.launched = true ∧ loop ≤ ba.loop
  main : MainSignals n ba.info ba.main

section Steps

variable {sent ms : List (BAMsg n)} {id : Fin n}
variable {ba ba' : BA}

/- Broadcasts without CONF of this party change nothing. -/
theorem PartySignals.append
    (hParty : PartySignals sent id ba)
    (hNone :
      ∀ loop values, BA.confMsg id loop values ∉ ms) :
    PartySignals (sent ++ ms) id ba where
  loops := fun hLaunched loop hLoop =>
    (hParty.loops hLaunched loop hLoop).append (hNone loop)
  ahead := by
    intro loop values hSent
    rcases List.mem_append.mp hSent with hOld | hNew
    · exact hParty.ahead loop values hOld
    · exact absurd hNew (hNone loop values)
  main := hParty.main

/-
  Replacing one loop by a later version of it, with the same
  main goroutine.
-/
theorem PartySignals.setLoop
    {loop : Nat} {info : LoopInfo}
    (hParty : PartySignals sent id ba)
    (hLaunched : ba.launched = true)
    (hLoop : loop ≤ ba.loop)
    (hOther :
      ∀ loop', loop' ≠ loop → ∀ values,
        BA.confMsg id loop' values ∉ ms)
    (hInfo : LoopSignals (sent ++ ms) id loop info)
    (hMain :
      MainSignals n ((ba.setLoop loop info).info)
        ba.main) :
    PartySignals (sent ++ ms) id (ba.setLoop loop info) where
  loops := by
    intro _ loop' hLoop'
    by_cases hEq : loop' = loop
    · subst hEq
      rw [BA.setLoop_self]
      exact hInfo
    · rw [BA.setLoop_of_ne _ _ hEq]
      exact (hParty.loops hLaunched loop' hLoop').append
        (hOther loop' hEq)
  ahead := by
    intro loop' values hSent
    by_cases hEq : loop' = loop
    · subst hEq
      exact ⟨hLaunched, hLoop⟩
    · rcases List.mem_append.mp hSent with hOld | hNew
      · exact hParty.ahead loop' values hOld
      · exact absurd hNew (hOther loop' hEq values)
  main := hMain

/- The main goroutine moves on within its loop. -/
theorem PartySignals.setMain
    {info : LoopInfo} {main : Main}
    (hParty : PartySignals sent id ba)
    (hLaunched : ba.launched = true)
    (hInfo : LoopSignals sent id ba.loop info)
    (hMain : MainSignals n info main)
    (hNot : main ≠ .idle) :
    PartySignals sent id
      { ba.setLoop ba.loop info with main := main } where
  loops := by
    intro _ loop hLoop
    by_cases hEq : loop = ba.loop
    · subst hEq
      rw [BA.setLoop_self]
      exact hInfo
    · rw [BA.setLoop_of_ne _ _ hEq]
      exact hParty.loops hLaunched loop hLoop
  ahead := fun loop values hSent =>
    ⟨BA.launched_eq_of_ne hNot,
      (hParty.ahead loop values hSent).2⟩
  main := by
    simpa [BA.info, BA.setLoop] using hMain

/- A new loop starts without signals. -/
theorem PartySignals.startLoop
    {loop : Nat} (input : Bool)
    (hParty : PartySignals sent id ba)
    (hNew : ba.launched = true → ba.loop + 1 = loop)
    (hFirst : ba.launched = false → loop = 0) :
    PartySignals sent id (ba.startLoop loop input) where
  loops := by
    intro _ loop' hLoop'
    by_cases hEq : loop' = loop
    · subst hEq
      have hStarted :
          (ba.startLoop loop' input).loops loop' =
            LoopInfo.new input := by
        simp [BA.startLoop]
      rw [hStarted]
      apply LoopSignals.new
      intro values hSent
      rcases hParty.ahead _ _ hSent with ⟨hLaunched, hLe⟩
      have hNext := hNew hLaunched
      omega
    · have hLe : loop' ≤ loop := hLoop'
      cases hLaunched : ba.launched with
      | true =>
          have hNext := hNew hLaunched
          have hOld :=
            hParty.loops hLaunched loop' (by omega)
          simpa [BA.startLoop, Function.update_of_ne hEq]
            using hOld
      | false =>
          have hZero := hFirst hLaunched
          omega
  ahead := by
    intro loop' values hSent
    rcases hParty.ahead _ _ hSent with ⟨hLaunched, hLe⟩
    have hNext := hNew hLaunched
    exact ⟨rfl, show loop' ≤ loop by omega⟩
  main := by
    simp [BA.startLoop, BA.info, MainSignals, LoopInfo.new,
      Flags.new]

/- Only the main goroutine asks for a CONF. -/
theorem LoopStep.sendConf_none
    {loop : Nat} {info info' : LoopInfo} {event : Event}
    (hStep : LoopStep id loop info event info' ms)
    (hNone : info.sendConf = .none) :
    info'.sendConf = .none := by
  cases hStep with
  | conf hPending =>
      rw [hNone] at hPending
      cases hPending
  | _ => exact hNone

/- A step of a loop counts no CONF. -/
theorem LoopStep.confCount_eq
    {loop : Nat} {info info' : LoopInfo} {event : Event}
    (hStep : LoopStep id loop info event info' ms) :
    info'.confCount = info.confCount :=
  congrArg Counts.confCount hStep.counts_eq

/- A broadcast of a loop is not CONF of another loop. -/
theorem LoopStep.no_conf
    {loop loop' : Nat} {info info' : LoopInfo}
    {event : Event}
    (hStep : LoopStep id loop info event info' ms)
    (hNe : loop' ≠ loop) (values : Values) :
    BA.confMsg id loop' values ∉ ms := by
  cases hStep <;>
    simp [BA.confMsg, BA.valMsg, BA.auxMsg, hNe]

/- Flags before `sendconf` after receiving a signal. -/
theorem MainSignals.select_conf
    {loop : Nat} {info info' : LoopInfo} {flags : Flags}
    {signal : Signal}
    (hFlags : MainSignals n info (.conf flags))
    (hInfo : LoopSignals sent id loop info)
    (hTake : info.takeConf signal = some info') :
    MainSignals n info'
      (.conf (flags.select signal).1) := by
  rcases takeConf_same hTake with ⟨hValues, hConf, _⟩
  refine ⟨by rw [hConf]; exact hFlags.1, ?_⟩
  intro b hb
  rw [hValues]
  rcases select_value hb with hOld | hNew
  · exact hFlags.2 b hOld
  · subst hNew
    exact hInfo.valueReady b (takeConf_value hTake)

/- Flags before the coin after receiving a signal. -/
theorem MainSignals.select_coin
    {loop : Nat} {info info' : LoopInfo} {flags : Flags}
    {signal : Signal}
    (hFlags : MainSignals n info (.coin flags))
    (hInfo : LoopSignals sent id loop info)
    (hTake : info.takeCoin signal = some info') :
    MainSignals n info'
      (.coin (flags.select signal).1) := by
  have hCount : info'.confCount = info.confCount :=
    congrArg Counts.confCount (takeCoin_counts hTake)
  constructor
  · intro b hb
    rw [(takeCoin_same hTake).1]
    rcases select_value hb with hOld | hNew
    · exact hFlags.1 b hOld
    · subst hNew
      exact hInfo.valueReadyConf b (takeCoin_value hTake)
  · intro b hb
    rw [hCount]
    rcases select_quorum hb with hOld | hNew
    · exact hFlags.2 b hOld
    · subst hNew
      exact hInfo.confReady b (takeCoin_quorum hTake)

/- `handle_conf` never lowers a counter. -/
theorem loopReceive_confCount_le
    (info : LoopInfo) (m : BAMsg n) (b : Bool) :
    info.confCount b ≤
      (loopReceive id info m).confCount b := by
  have hCounts :
      info.counts.confCount b ≤
        (loopReceive id info m).counts.confCount b := by
    unfold loopReceive
    split
    · rw [handleVal_counts]
    · rw [handleAux_counts]
    · rw [handleConf_counts]
      exact Nat.le_add_right _ _
    · exact Nat.le_refl _
  exact hCounts

theorem handleVal_sendConf
    (faults : Nat) (info : LoopInfo) (value : Bool) :
    (handleVal faults info value).sendConf =
      info.sendConf := by
  unfold handleVal
  dsimp only
  split
  · rfl
  · split
    · split <;> rfl
    · rfl

theorem loopReceive_sendConf
    (info : LoopInfo) (m : BAMsg n) :
    (loopReceive id info m).sendConf = info.sendConf := by
  unfold loopReceive
  split
  · exact handleVal_sendConf _ _ _
  · rw [handleAux_eq]
  · rcases handleConf_frame (faults n) info
      (confValueAt id info m) with ⟨_, _, _, _, hEq⟩
    rw [hEq]
  · rfl

/- What a party reads keeps its signals backed. -/
theorem PartySignals.receive
    {m : BAMsg n}
    (hParty : PartySignals sent id ba)
    (hLaunched : ba.launched = true)
    (hReceive : ba.receive id m = some ba') :
    PartySignals sent id ba' := by
  rcases receive_cases hReceive with
    ⟨_, hLoop, hEq⟩ | ⟨_, _, hEq⟩
  · subst hEq
    have hInfo := hParty.loops hLaunched m.loop hLoop
    have hLater :
        LoopSignals (sent ++ []) id m.loop
          (loopReceive id (ba.loops m.loop) m) := by
      rw [List.append_nil]
      exact hInfo.loopReceive m
    have hNext :=
      hParty.setLoop hLaunched hLoop (by simp) hLater
    rw [List.append_nil] at hNext
    apply hNext
    by_cases hCurrent : m.loop = ba.loop
    · unfold BA.info
      rw [BA.setLoop_loop, ← hCurrent, BA.setLoop_self]
      have hMain := hParty.main
      unfold BA.info at hMain
      rw [← hCurrent] at hMain
      apply hMain.mono
      · rw [loopReceive_sendConf]
        exact fun h => h
      · exact loopReceive_values_le _ _ _
      · exact loopReceive_confCount_le _ _
    · unfold BA.info
      rw [BA.setLoop_loop,
        BA.setLoop_of_ne _ _ (Ne.symm hCurrent)]
      exact hParty.main
  · subst hEq
    exact
      { loops := by
          intro _ loop hLoop
          rw [handleFinish_loop] at hLoop
          rw [handleFinish_loops]
          exact hParty.loops hLaunched loop hLoop
        ahead := by
          intro loop values hSent
          rw [BA.launched, handleFinish_main,
            handleFinish_loop]
          exact hParty.ahead loop values hSent
        main := by
          rw [BA.info, handleFinish_loop,
            handleFinish_loops, handleFinish_main]
          exact hParty.main }

/- A step of a party keeps its signals backed. -/
theorem PartySignals.partyStep
    {cfg : Config} {event : Event}
    (hParty : PartySignals sent id ba)
    (hLaunched : ba.launched = true)
    (hStep : PartyStep cfg id ba event ba' ms) :
    PartySignals (sent ++ ms) id ba' := by
  have hInfo :
      LoopSignals sent id ba.loop ba.info :=
    hParty.loops hLaunched ba.loop (Nat.le_refl _)
  cases hStep with
  | loop loop event info ms second hLoop hLoopStep =>
      have hNext :=
        hParty.setLoop hLaunched hLoop
          (fun loop' hNe => hLoopStep.no_conf hNe)
          ((hParty.loops hLaunched loop hLoop).loopStep
            hLoopStep)
      refine { hNext ?_ with }
      by_cases hEq : loop = ba.loop
      · subst hEq
        unfold BA.info
        rw [BA.setLoop_loop, BA.setLoop_self]
        apply hParty.main.mono
        · exact hLoopStep.sendConf_none
        · exact hLoopStep.values_le
        · intro b
          rw [hLoopStep.confCount_eq]
          exact Nat.le_refl _
      · unfold BA.info
        rw [BA.setLoop_loop,
          BA.setLoop_of_ne _ _ (Ne.symm hEq)]
        exact hParty.main
  | finish value rest hSignal =>
      exact { hParty.append (by simp [BA.finishMsg,
        BA.confMsg]) with }
  | elect hMain =>
      rw [List.append_nil]
      rcases elect_cases cfg ba with
        ⟨value, hEq⟩ | ⟨input, hEq⟩
      · rw [hEq]
        exact
          { loops := fun _ => hParty.loops hLaunched
            ahead := fun loop values hSent =>
              ⟨rfl, (hParty.ahead loop values hSent).2⟩
            main := trivial }
      · rw [hEq]
        apply hParty.startLoop input (fun _ => rfl)
        intro hIdle
        rw [hLaunched] at hIdle
        cases hIdle
  | mainConf flags signal info hMain hTake hWait =>
      rw [List.append_nil]
      have hFlags := hParty.main
      rw [hMain] at hFlags
      apply hParty.setMain hLaunched (hInfo.takeConf hTake)
      · exact hFlags.select_conf hInfo hTake
      · simp
  | mainConfReady flags signal info hMain hTake hReady =>
      rw [List.append_nil]
      have hFlags := hParty.main
      rw [hMain] at hFlags
      have hAfter := hFlags.select_conf hInfo hTake
      have hTaken := hInfo.takeConf hTake
      apply hParty.setMain hLaunched
      · refine
          { hTaken with pending := ?_, confSent := ?_ }
        · intro _
          rcases select_ready hReady with
            ⟨b, hb, _⟩ | hBoth
          · exact ⟨b, hAfter.2 b hb⟩
          · exact ⟨true, hAfter.2 true (hBoth true)⟩
        · intro values hSent
          have hDone := (hTaken.confSent values hSent).1
          rw [hAfter.1] at hDone
          cases hDone
      · simp [MainSignals, Flags.new]
      · simp
  | mainCoin flags signal info hMain hTake hWait =>
      rw [List.append_nil]
      have hFlags := hParty.main
      rw [hMain] at hFlags
      apply hParty.setMain hLaunched (hInfo.takeCoin hTake)
      · exact hFlags.select_coin hInfo hTake
      · simp
  | mainCoinReady flags signal info hMain hTake hReady =>
      rw [List.append_nil]
      have hFlags := hParty.main
      rw [hMain] at hFlags
      have hAfter := hFlags.select_coin hInfo hTake
      apply hParty.setMain hLaunched (hInfo.takeCoin hTake)
      · rcases select_ready hReady with
          ⟨b, hb, hQuorum⟩ | hBoth
        · exact Or.inl
            ⟨b, hAfter.1 b hb, hAfter.2 b hQuorum⟩
        · exact Or.inr fun b => hAfter.1 b (hBoth b)
      · simp

/- What a party says about its loops holds in every run. -/
theorem partySignals
    {cfg : Config} {ok : State n → Action n → Prop}
    {s : State n}
    (hReach : (machine n cfg).ReachableBy ok s)
    (p : Fin n) :
    PartySignals s.log.sent p (s.party p) := by
  refine local_rule PartySignals ?_ ?_ ?_ hReach p
  · intro p
    exact
      { loops := fun hLaunched => by cases hLaunched
        ahead := fun loop values hSent => by cases hSent
        main := trivial }
  · intro sent p ba ms hParty hIds
    apply hParty.append
    intro loop values hMem
    exact hIds _ hMem rfl
  · intro s a p ba ms _ hAll _ hChange
    have hParty := hAll p
    cases hChange with
    | launch _ input hIdle =>
        rw [List.append_nil]
        apply hParty.startLoop input
        · intro hLaunched
          rw [hIdle] at hLaunched
          cases hLaunched
        · exact fun _ => rfl
    | second =>
        rw [List.append_nil]
        exact { hParty with }
    | handle _ i m _ hLaunched hMsg hLoc hReceive =>
        rw [List.append_nil]
        exact hParty.receive hLaunched hReceive
    | go _ event _ _ hLaunched hStep =>
        exact hParty.partyStep hLaunched hStep

end Steps

end BinaryAgreement

end Jumbo
