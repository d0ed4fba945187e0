import Jumbo.BinaryAgreement.Speech

/-
  A party speaks once in each phase of a binary agreement
  when the sources of its broadcasts stay apart.

  Two goroutines may send VAL for true in the first loop, two
  may signal AUX there, every loop brings a goroutine for
  FINISH, and the own CONF shares its slice with the flags.
  The condition is about the steps in which the sources of
  two broadcasts come together, before anything is sent twice.

  Main declarations:
    * `undisturbed`
    * `Move.loops`
    * `ValApart`, `AuxApart`, `FinishApart` and `OwnApart`
    * `SpeaksOnce`
    * `speaksOnce`
-/

------------------------------------------------------------
-- Where a Second Broadcast Comes From
------------------------------------------------------------

namespace Jumbo

namespace BinaryAgreement

variable {n : Nat}

/- `sendval` was told true, by its input or by `f + 1` VAL. -/
def LoopInfo.toldTrue (faults : Nat) (info : LoopInfo) : Bool :=
  info.input || decide (faults + 1 ≤ info.vCount true)

/- A signal for AUX of `b` has been put. -/
def LoopInfo.signalled (info : LoopInfo) (b : Bool) : Bool :=
  info.sendAuxSignal.contains b || info.auxSent b

namespace BA

/- VAL for false went out, and `sendsencondval` was started. -/
def secondStarted (ba : BA) : Bool :=
  decide ((ba.loops 0).secondVal ≠ .none)

/- The main component has given the second input. -/
def secondGiven (ba : BA) : Bool :=
  decide (0 < ba.secondInput) ||
    (ba.loops 0).secondVal.spoken

/-
  How often FINISH was asked for: by `f + 1` FINISH messages
  for each value and by the decision of the party.
-/
def finishCauses (faults : Nat) (ba : BA) : Nat :=
  (decide (faults + 1 ≤ ba.finishCount false)).toNat +
    (decide (faults + 1 ≤ ba.finishCount true)).toNat +
      ba.main.isDecided.toNat

/- The loop ends with a decision and not with another loop. -/
def decides (cfg : Config) (ba : BA) : Bool :=
  let coin := handleCoin cfg ba.loop ba.loop
  let values := ba.info.values
  !(values.zero && values.one) &&
    (values.zero && !coin || values.one && coin)

end BA

/- The own CONF of a loop is sent and not counted yet. -/
def Solo.confWaits (s : Solo n) (loop : Nat) : Bool :=
  s.waiting.any (isConfMix loop)

/-
  The condition on a message that is counted. The `f + 1`st
  VAL for true of the first loop does not meet both a started
  `sendsencondval` and its input; the `f + 1`st FINISH for a
  value does not come after another cause of FINISH, unless
  the only goroutine `sendfinish` is that of the first loop.
-/
def undisturbedBy (s : Solo n) (m : BAMsg n) : Bool :=
  match m.type with
  | .val =>
      !(decide (m.loop = 0) && m.value &&
          decide ((s.ba.loops 0).vCount true = faults n)) ||
        !(s.ba.secondStarted && s.ba.secondGiven)
  | .finish =>
      decide (s.ba.finishCount m.value ≠ faults n) ||
        decide (s.ba.loop = 0) ||
          decide (s.ba.finishCauses (faults n) = 0)
  | _ => true

/-
  The condition on a statement.

  In the first loop `sendval` does not start `sendsencondval`
  when the second input is there and true was told. The bias
  puts no signal for AUX after `handle_val` has put one for
  false, nor `handle_val` one for false after the bias. No
  flag is set between sending and counting the own CONF of
  its loop. A decision after the first loop is the first
  cause of FINISH, and a loop is left with one at most.
-/
def undisturbedStatement
    (cfg : Config) (s : Solo n) : Statement → Bool
| .whole (.sendVal 0) =>
    let info := s.ba.loops 0
    info.sendValSignal.head?.all fun value =>
      value || info.valSent false ||
        !(s.ba.secondGiven && info.toldTrue (faults n))
| .whole .mainElect =>
    if s.ba.decides cfg then
      decide (s.ba.loop = 0) ||
        decide (s.ba.finishCauses (faults n) = 0)
    else decide (s.ba.finishCauses (faults n) ≤ 1)
| .handleVal loop =>
    let info := s.ba.loops loop
    match (s.party.stage loop).handleVal with
    | .readyConf value =>
        info.values.get value || !s.confWaits loop
    | .flagged value =>
        decide (loop ≠ 0) || value || info.isAuxSent ||
          !info.signalled true
    | _ => true
| .sendValSignal | .sencondValSignal =>
    !(s.ba.loops 0).signalled false
| .sendValFlag | .sencondValFlag =>
    (s.ba.loops 0).values.one || !s.confWaits 0
| _ => true

/-
  The condition on a step: what causes a second broadcast
  does not come together. The second input is not given to a
  party that has started `sendsencondval` and was told true.
-/
def undisturbed
    (cfg : Config) (s : Solo n) : Solo.Action n → Bool
| .launch _ => true
| .second =>
    !(s.ba.launched && s.ba.secondStarted &&
      (s.ba.loops 0).toldTrue (faults n))
| .foreign m => undisturbedBy s m
| .own i => (s.waiting[i]?).all (undisturbedBy s)
| .go statement => undisturbedStatement cfg s statement

end BinaryAgreement

end Jumbo

------------------------------------------------------------
-- What Each Loop Keeps
------------------------------------------------------------

namespace Jumbo

namespace BinaryAgreement

variable {n : Nat}

/- The part of a loop that its signals are about. -/
structure Sources where
  input : Bool
  values : Values
  vCount : Bool → Nat
  sendValSignal : List Bool
  sendAuxSignal : List Bool
  isAuxSent : Bool
  valSent : Bool → Bool
  sendValNow : Option Bool
  secondVal : SecondVal
  auxSent : Bool → Bool

/- What tells the senders of a loop to send. -/
def LoopInfo.sources (info : LoopInfo) : Sources where
  input := info.input
  values := info.values
  vCount := info.vCount
  sendValSignal := info.sendValSignal
  sendAuxSignal := info.sendAuxSignal
  isAuxSent := info.isAuxSent
  valSent := info.valSent
  sendValNow := info.sendValNow
  secondVal := info.secondVal
  auxSent := info.auxSent

/- Handlers other than `handle_val` leave it alone. -/
theorem loopReceive_sources
    (id : Fin n) (info : LoopInfo) {m : BAMsg n}
    (hType : m.type ≠ .val) :
    (loopReceive id info m).sources = info.sources := by
  unfold loopReceive
  split
  · rename_i hVal
    exact absurd hVal hType
  · rw [handleAux_eq]
    rfl
  · rcases handleConf_frame (faults n) info
      (confValueAt id info m) with ⟨_, _, _, _, hEq⟩
    rw [hEq]
    rfl
  · rfl

/- The main goroutine takes signals, it gives none. -/
theorem takeConf_sources
    {info info' : LoopInfo} {signal : Signal}
    (hTake : info.takeConf signal = some info') :
    info'.sources = info.sources := by
  cases signal <;>
    rcases Option.ite_none_right_eq_some.mp hTake with
      ⟨_, hEq⟩ <;>
    cases hEq <;>
    rfl

/- So it is with the signals before the coin. -/
theorem takeCoin_sources
    {info info' : LoopInfo} {signal : Signal}
    (hTake : info.takeCoin signal = some info') :
    info'.sources = info.sources := by
  cases signal <;>
    rcases Option.ite_none_right_eq_some.mp hTake with
      ⟨_, hEq⟩ <;>
    cases hEq <;>
    rfl

/- Iterations that run as a whole set no flag of a value. -/
structure Unsplit (info : LoopInfo) (event : Event) : Prop where
  val :
    event = .sendValDone 0 → info.sendValNow ≠ some true
  second : event ≠ .sendSencondValDone

/- An iteration that is not split changes no flag of true. -/
theorem unsplit_of_splits
    {ba : BA} {event : Event}
    (hWhole : Interleaved.splits ba event = false) :
    Unsplit (ba.loops 0) event := by
  constructor
  · rintro rfl hNow
    simp [Interleaved.splits, hNow] at hWhole
  · rintro rfl
    cases hWhole

/- Actions that let the party count message `m`. -/
def Solo.Takes
    (s : Solo n) (m : BAMsg n) : Solo.Action n → Prop
| .foreign m' => m' = m
| .own i => s.waiting[i]? = some m
| _ => False

/- The guard is about the message that is read. -/
theorem undisturbed_takes
    {cfg : Config} {s : Solo n} {a : Solo.Action n}
    {m : BAMsg n}
    (hTakes : Solo.Takes s m a)
    (hOk : undisturbed cfg s a = true) :
    undisturbedBy s m = true := by
  cases a with
  | foreign m' =>
      cases hTakes
      exact hOk
  | own i =>
      have hMsg : s.waiting[i]? = some m := hTakes
      simpa only [undisturbed, hMsg, Option.all_some]
        using hOk
  | _ => cases hTakes

section Loops

variable {cfg : Config} {id : Fin n} {s s' : Solo n}
variable {a : Solo.Action n}
variable {P : Nat → LoopInfo → Prop}

/-
  The rule for what holds of every loop of a party: a new
  loop has it, it is about the sources only, and what writes
  them keeps it.
-/
theorem Move.loops
    (hMove : Move cfg id s a s')
    (hAll :
      s.ba.launched = true → ∀ l, l ≤ s.ba.loop →
        P l (s.ba.loops l))
    (hNew : ∀ l input, P l (LoopInfo.new input))
    (hSame :
      ∀ l info info', info'.sources = info.sources →
        P l info → P l info')
    (hStep :
      ∀ l event info ms,
        LoopStep id l (s.ba.loops l) event info ms →
          (l = 0 → Unsplit (s.ba.loops l) event) →
            P l (s.ba.loops l) → P l info)
    (hVal :
      ∀ m info stage, Solo.Takes s m a → m.type = .val →
        ValStep (faults n) (s.ba.loops m.loop) m.value info
            stage →
          P m.loop (s.ba.loops m.loop) → P m.loop info)
    (hPart :
      ∀ statement l info stage, a = .go statement →
        LoopPart l (s.ba.loops l) (s.party.stage l) statement
            info stage →
          P l (s.ba.loops l) → P l info) :
    s'.ba.launched = true → ∀ l, l ≤ s'.ba.loop →
      P l (s'.ba.loops l) := by
  have hSet :
      ∀ (loop : Nat) (info : LoopInfo),
        s.ba.launched = true → loop ≤ s.ba.loop →
          P loop info → ∀ l, l ≤ s.ba.loop →
            P l ((s.ba.setLoop loop info).loops l) := by
    intro loop info hLaunched hLoop hInfo l hl
    by_cases hEq : l = loop
    · subst hEq
      rw [BA.setLoop_self]
      exact hInfo
    · rw [BA.setLoop_of_ne _ _ hEq]
      exact hAll hLaunched l hl
  have hStart :
      ∀ (loop : Nat) (input : Bool),
        (∀ l, l < loop → P l (s.ba.loops l)) →
          ∀ l, l ≤ loop →
            P l ((s.ba.startLoop loop input).loops l) := by
    intro loop input hOld l hl
    rcases Nat.lt_or_eq_of_le hl with hLt | rfl
    · simpa [BA.startLoop,
        Function.update_of_ne (Nat.ne_of_lt hLt)]
        using hOld l hLt
    · simpa [BA.startLoop] using hNew l input
  have hReceived :
      ∀ (m : BAMsg n) (party : Interleaved), Solo.Takes s m a →
        s.ba.launched = true → Received id s.party m party →
          ∀ l, l ≤ party.ba.loop → P l (party.ba.loops l) := by
    intro m party hTakes hLaunched hReceived
    cases hReceived with
    | val info stage hType hLoop hIdle hValStep =>
        exact hSet m.loop info hLaunched hLoop
          (hVal m info stage hTakes hType hValStep
            (hAll hLaunched _ hLoop))
    | other ba hType hRun =>
        rcases receive_cases hRun with
          ⟨_, hLoop, rfl⟩ | ⟨_, _, rfl⟩
        · exact hSet m.loop _ hLaunched hLoop
            (hSame _ _ _ (loopReceive_sources id _ hType)
              (hAll hLaunched _ hLoop))
        · dsimp only
          rw [handleFinish_loops, handleFinish_loop]
          exact hAll hLaunched
  cases hMove with
  | launch input hIdle =>
      intro _
      exact hStart 0 input fun l hl => absurd hl (Nat.not_lt_zero l)
  | second => exact hAll
  | foreign m party hLaunched hRun =>
      intro _
      exact hReceived m party rfl hLaunched hRun
  | own i m party hLaunched hMsg hRun =>
      intro _
      exact hReceived m party hMsg hLaunched hRun
  | go statement party ms hLaunched hRun =>
      intro _
      cases hRun with
      | part statement loop info stage hLoop hLoopPart =>
          exact hSet loop info hLaunched hLoop
            (hPart statement loop info stage rfl hLoopPart
              (hAll hLaunched _ hLoop))
      | whole event ba ms hWhole hRun =>
          cases partyStep_of_step hRun with
          | loop loop event info ms second hLoop hLoopStep =>
              refine hSet loop info hLaunched hLoop
                (hStep loop event info ms hLoopStep ?_
                  (hAll hLaunched _ hLoop))
              rintro rfl
              exact unsplit_of_splits hWhole
          | finish => exact hAll hLaunched
          | mainConf flags signal info hMain hTake
          | mainConfReady flags signal info hMain hTake =>
              have hSources := takeConf_sources hTake
              exact hSet s.ba.loop _ hLaunched (Nat.le_refl _)
                (hSame _ _ _ hSources
                  (hAll hLaunched _ (Nat.le_refl _)))
          | mainCoin flags signal info hMain hTake
          | mainCoinReady flags signal info hMain hTake =>
              exact hSet s.ba.loop _ hLaunched (Nat.le_refl _)
                (hSame _ _ _ (takeCoin_sources hTake)
                  (hAll hLaunched _ (Nat.le_refl _)))
          | elect hMain =>
              dsimp only [Solo.ba]
              rcases elect_cases cfg s.ba with
                ⟨value, hEq⟩ | ⟨input, hEq⟩
              · rw [hEq]
                exact hAll hLaunched
              · rw [hEq]
                exact hStart (s.ba.loop + 1) input
                  fun l hl =>
                    hAll hLaunched l (Nat.le_of_lt_succ hl)

end Loops

end BinaryAgreement

end Jumbo

------------------------------------------------------------
-- VAL for True in the First Loop
------------------------------------------------------------

namespace Jumbo

namespace BinaryAgreement

open Protocol

variable {n : Nat}

/- What `sendval` is to send or has sent for true it was told. -/
def Told (faults : Nat) (info : LoopInfo) : Prop :=
  (true ∈ info.sendValSignal ∨ info.valSent true = true ∨
    info.sendValNow = some true) →
      info.toldTrue faults = true

theorem toldTrue_congr
    {faults : Nat} {info info' : LoopInfo}
    (hSources : info'.sources = info.sources) :
    info'.toldTrue faults = info.toldTrue faults := by
  injection hSources with hInput _ hCount
  rw [LoopInfo.toldTrue, hInput, hCount]
  rfl

theorem Told.congr
    {faults : Nat} {info info' : LoopInfo}
    (hSources : info'.sources = info.sources)
    (hTold : Told faults info) :
    Told faults info' := by
  unfold Told
  rw [toldTrue_congr hSources]
  injection hSources with _ _ _ hSignal _ _ hSent hNow
  rw [hSignal, hSent, hNow]
  exact hTold

/- A new loop has told `sendval` its own input only. -/
theorem Told.new (faults : Nat) (input : Bool) :
    Told faults (LoopInfo.new input) := by
  intro hTrue
  simpa [LoopInfo.new, LoopInfo.toldTrue, eq_comm] using hTrue

/- Only `handle_val` asks `sendval` for true. -/
theorem LoopStep.toldTrue_eq
    {id : Fin n} {loop : Nat}
    {info info' : LoopInfo} {event : Event}
    {ms : List (BAMsg n)}
    (hStep : LoopStep id loop info event info' ms)
    (faults : Nat) :
    info'.toldTrue faults = info.toldTrue faults := by
  cases hStep <;> rfl

/- The other goroutines of a loop pass on what they are told. -/
theorem LoopStep.told
    {faults : Nat} {id : Fin n} {loop : Nat}
    {info info' : LoopInfo} {event : Event}
    {ms : List (BAMsg n)}
    (hStep : LoopStep id loop info event info' ms)
    (hTold : Told faults info) :
    Told faults info' := by
  unfold Told
  rw [hStep.toldTrue_eq]
  intro hTrue
  apply hTold
  cases hStep with
  | valSkip value rest hSignal hSent =>
      rw [hSignal]
      exact hTrue.imp_left (List.mem_cons_of_mem value)
  | valNew value rest second hSignal hNow hFresh =>
      rw [hSignal]
      rcases hTrue with h | h | h
      · exact .inl (List.mem_cons_of_mem value h)
      · exact .inr (.inl h)
      · cases h
        exact .inl List.mem_cons_self
  | valDone value hNow hLater =>
      rcases hTrue with h | h | h
      · exact .inl h
      · have h : mark info.valSent value true = true := h
        rw [mark_apply] at h
        cases value with
        | false => exact .inr (.inl (by simpa using h))
        | true => exact .inr (.inr hNow)
      · cases h
  | valDoneFirst hNow hLoop => exact .inr (.inr hNow)
  | _ => exact hTrue

/- No statement told apart tells `sendval` a value. -/
theorem LoopPart.toldTrue_eq
    {faults loop : Nat} {info info' : LoopInfo}
    {stage stage' : Stage} {statement : Statement}
    (hPart :
      LoopPart loop info stage statement info' stage') :
    info'.toldTrue faults = info.toldTrue faults := by
  cases hPart <;> rfl

/- So do the statements that are told apart. -/
theorem LoopPart.told
    {faults loop : Nat} {info info' : LoopInfo}
    {stage stage' : Stage} {statement : Statement}
    (hPart : LoopPart loop info stage statement info' stage')
    (hStaged : loop = 0 → Staged info stage)
    (hTold : Told faults info) :
    Told faults info' := by
  unfold Told
  rw [hPart.toldTrue_eq]
  intro hTrue
  apply hTold
  cases hPart with
  | valFlag hLoop hStage =>
      exact .inr (.inr ((hStaged hLoop).val hStage))
  | _ => exact hTrue

/- Once `sendval` is told true it stays told. -/
theorem ValStep.toldTrue_of
    {faults : Nat} {info info' : LoopInfo} {value : Bool}
    {stage : HandleVal}
    (hStep : ValStep faults info value info' stage)
    (hTold : info.toldTrue faults = true) :
    info'.toldTrue faults = true := by
  have hMore :
      info'.input = info.input ∧
        info'.vCount = bump info.vCount value := by
    cases hStep <;> exact ⟨rfl, rfl⟩
  simp only [LoopInfo.toldTrue, Bool.or_eq_true,
    decide_eq_true_eq] at hTold ⊢
  rw [hMore.1, hMore.2, bump_apply]
  exact hTold.imp_right fun h => by omega

/- A message that is counted may tell `sendval` its value. -/
theorem ValStep.told
    {faults : Nat} {info info' : LoopInfo} {value : Bool}
    {stage : HandleVal}
    (hStep : ValStep faults info value info' stage)
    (hTold : Told faults info) :
    Told faults info' := by
  intro hTrue
  cases hStep with
  | amplify hFew =>
      rcases hTrue with h | h
      · rcases List.mem_append.mp h with h | h
        · exact (ValStep.amplify hFew).toldTrue_of
            (hTold (.inl h))
        · cases List.mem_singleton.mp h
          simp only [LoopInfo.toldTrue, hFew, Nat.le_refl,
            decide_true, Bool.or_true]
      · exact (ValStep.amplify hFew).toldTrue_of
          (hTold (.inr h))
  | quorum hMany hNot =>
      exact (ValStep.quorum hMany hNot).toldTrue_of
        (hTold hTrue)
  | other hNot =>
      exact (ValStep.other hNot).toldTrue_of (hTold hTrue)

/-
  `sendval` sends what it was told, and `sendsencondval` is
  not both started and given its input where it was true.
-/
structure ValApart (s : Solo n) : Prop where
  told :
    s.ba.launched = true → Told (faults n) (s.ba.loops 0)
  apart :
    s.ba.launched = true →
      s.ba.secondStarted = true →
        s.ba.secondGiven = true →
          (s.ba.loops 0).toldTrue (faults n) = false

/- Only `sendsencondval` takes the second input. -/
theorem step_secondInput
    {cfg : Config} {id : Fin n} {ba ba' : BA}
    {event : Event} {ms : List (BAMsg n)}
    (hStep : ba.step cfg id event = some (ba', ms))
    (hEvent : event ≠ .sendSencondVal) :
    ba'.secondInput = ba.secondInput := by
  cases event with
  | sendSencondVal => exact absurd rfl hEvent
  | sendVal loop =>
      rcases Option.ite_none_right_eq_some.mp hStep with
        ⟨_, hRun⟩
      unfold BA.sendVal at hRun
      dsimp only at hRun
      split at hRun
      · cases hRun
      · split at hRun
        · split at hRun <;> cases hRun <;> rfl
        · cases hRun
  | sendValDone loop =>
      rcases Option.ite_none_right_eq_some.mp hStep with
        ⟨_, hRun⟩
      unfold BA.sendValDone at hRun
      dsimp only at hRun
      split at hRun
      · cases hRun
        rfl
      · cases hRun
  | sendSencondValDone =>
      rcases Option.ite_none_right_eq_some.mp hStep with
        ⟨_, hEq⟩
      cases hEq
      rfl
  | sendAux loop =>
      rcases Option.ite_none_right_eq_some.mp hStep with
        ⟨_, hRun⟩
      unfold BA.sendAux at hRun
      dsimp only at hRun
      split at hRun
      · cases hRun
      · split at hRun
        · split at hRun <;> cases hRun <;> rfl
        · cases hRun
  | sendConf loop =>
      rcases Option.ite_none_right_eq_some.mp hStep with
        ⟨_, hRun⟩
      rcases Option.ite_none_right_eq_some.mp hRun with
        ⟨_, hEq⟩
      cases hEq
      rfl
  | sendFinish =>
      have hRun : ba.sendFinishStep id = some (ba', ms) := hStep
      unfold BA.sendFinishStep at hRun
      split at hRun
      · split at hRun <;> cases hRun
        rfl
      · cases hRun
  | mainConf signal =>
      have hRun : ba.mainConf signal = some (ba', ms) := hStep
      unfold BA.mainConf at hRun
      split at hRun
      · dsimp only at hRun
        split at hRun <;> cases hRun <;> rfl
      · cases hRun
  | mainCoin signal =>
      have hRun : ba.mainCoin signal = some (ba', ms) := hStep
      unfold BA.mainCoin at hRun
      split at hRun
      · cases hRun
        rfl
      · cases hRun
  | mainElect =>
      have hRun : ba.mainElect cfg = some (ba', ms) := hStep
      unfold BA.mainElect at hRun
      split at hRun
      · cases hRun
        rcases elect_cases cfg ba with
          ⟨value, hEq⟩ | ⟨input, hEq⟩
        · exact (congrArg BA.secondInput hEq).trans rfl
        · exact (congrArg BA.secondInput hEq).trans rfl
      · cases hRun

/- Reading a FINISH takes no second input. -/
theorem handleFinish_secondInput
    (faults : Nat) (ba : BA) (value : Bool) :
    (handleFinish faults ba value).secondInput =
      ba.secondInput := by
  unfold handleFinish
  dsimp only
  split
  · rfl
  · split <;> rfl

/- What it depends on in the first loop. -/
theorem second_congr
    (ba ba' : BA)
    (hSecond :
      (ba'.loops 0).secondVal = (ba.loops 0).secondVal)
    (hInput : ba'.secondInput = ba.secondInput) :
    ba'.secondStarted = ba.secondStarted ∧
      ba'.secondGiven = ba.secondGiven := by
  unfold BA.secondStarted BA.secondGiven
  rw [hSecond, hInput]
  exact ⟨rfl, rfl⟩

section Apart

variable {cfg : Config} {id : Fin n} {s s' : Solo n}
variable {a : Solo.Action n}

/- A step that brings none of the three. -/
theorem ValApart.keep
    (hVal : ValApart s) (hLaunched : s.ba.launched = true)
    {ba : BA}
    (hStarted :
      ba.secondStarted = true → s.ba.secondStarted = true)
    (hGiven :
      ba.secondGiven = true → s.ba.secondGiven = true)
    (hTold :
      (ba.loops 0).toldTrue (faults n) =
        (s.ba.loops 0).toldTrue (faults n)) :
    ba.secondStarted = true → ba.secondGiven = true →
      (ba.loops 0).toldTrue (faults n) = false := by
  intro h h'
  rw [hTold]
  exact hVal.apart hLaunched (hStarted h) (hGiven h')

/- A message that is read keeps the two senders of VAL apart. -/
theorem ValApart.received
    (hVal : ValApart s) (hLaunched : s.ba.launched = true)
    {m : BAMsg n} {party : Interleaved}
    (hOk : undisturbedBy s m = true)
    (hReceived : Received id s.party m party) :
    party.ba.secondStarted = true →
      party.ba.secondGiven = true →
        (party.ba.loops 0).toldTrue (faults n) = false := by
  cases hReceived with
  | val info stage hType hLoop hIdle hStep =>
      by_cases hZero : m.loop = 0
      · have hSecond :
            info.secondVal =
              (s.ba.loops m.loop).secondVal := by
          cases hStep <;> rfl
        have hInfo :
            (s.party.setLoop m.loop info
              { s.party.stage m.loop with
                handleVal := stage }).ba.loops 0 = info := by
          simp [Interleaved.setLoop, BA.setLoop, hZero]
        rw [hZero] at hSecond hStep
        rcases second_congr s.ba
          (s.party.setLoop m.loop info
            { s.party.stage m.loop with
              handleVal := stage }).ba
          (by rw [hInfo]; exact hSecond) rfl with
          ⟨hStarted, hGiven⟩
        rw [hStarted, hGiven, hInfo]
        intro h h'
        have hNot := hVal.apart hLaunched h h'
        have hFew :
            ¬ (m.value = true ∧
              (s.ba.loops 0).vCount true = faults n) := by
          rintro ⟨hTrue, hCount⟩
          simp [undisturbedBy, hType, hZero, hTrue, hCount, h,
            h'] at hOk
        have hMore :
            info.input = (s.ba.loops 0).input ∧
              info.vCount =
                bump (s.ba.loops 0).vCount m.value := by
          cases hStep <;> exact ⟨rfl, rfl⟩
        simp only [LoopInfo.toldTrue, Bool.or_eq_false_iff,
          decide_eq_false_iff_not] at hNot ⊢
        rw [hMore.1, hMore.2, bump_apply]
        refine ⟨hNot.1, ?_⟩
        by_cases hTrue : true = m.value
        · rw [if_pos hTrue]
          have hCount := hFew
          rw [← hTrue] at hCount
          have hNe :
              (s.ba.loops 0).vCount true ≠ faults n :=
            fun h => hCount ⟨rfl, h⟩
          omega
        · rw [if_neg hTrue]
          exact hNot.2
      · have hSame :
            (s.party.setLoop m.loop info
              { s.party.stage m.loop with
                handleVal := stage }).ba.loops 0 =
              s.ba.loops 0 :=
          BA.setLoop_of_ne _ _ (Ne.symm hZero)
        rcases second_congr s.ba
          (s.party.setLoop m.loop info
            { s.party.stage m.loop with
              handleVal := stage }).ba
          (by rw [hSame]) rfl with ⟨hStarted, hGiven⟩
        exact hVal.keep hLaunched (fun h => hStarted ▸ h)
          (fun h => hGiven ▸ h) (by rw [hSame])
  | other ba hType hRun =>
      have hSources :
          (ba.loops 0).sources = (s.ba.loops 0).sources ∧
            ba.secondInput = s.ba.secondInput := by
        rcases receive_cases hRun with
          ⟨_, hLoop, rfl⟩ | ⟨_, _, rfl⟩
        · refine ⟨?_, rfl⟩
          by_cases hZero : 0 = m.loop
          · rw [← hZero, BA.setLoop_self]
            exact loopReceive_sources id _ hType
          · rw [BA.setLoop_of_ne _ _ hZero]
        · rw [handleFinish_loops]
          exact ⟨rfl, handleFinish_secondInput _ _ _⟩
      rcases second_congr _ _
        (congrArg Sources.secondVal hSources.1) hSources.2 with
        ⟨hStarted, hGiven⟩
      exact hVal.keep hLaunched (fun h => hStarted ▸ h)
        (fun h => hGiven ▸ h) (toldTrue_congr hSources.1)

/- An iteration as a whole, seen from the first loop. -/
theorem PartyStep.first_loop
    {ba ba' : BA} {event : Event} {ms : List (BAMsg n)}
    (hStep : PartyStep cfg id ba event ba' ms) :
    (ba'.loops 0).sources = (ba.loops 0).sources ∨
      LoopStep id 0 (ba.loops 0) event (ba'.loops 0) ms := by
  have hSet :
      ∀ loop info,
        info.sources = (ba.loops loop).sources →
          ((ba.setLoop loop info).loops 0).sources =
            (ba.loops 0).sources := by
    intro loop info hSources
    by_cases hEq : 0 = loop
    · subst hEq
      rw [BA.setLoop_self]
      exact hSources
    · rw [BA.setLoop_of_ne _ _ hEq]
  cases hStep with
  | loop loop event info ms second hLoop hLoopStep =>
      by_cases hZero : 0 = loop
      · subst hZero
        right
        change LoopStep id 0 (ba.loops 0) event
          ((ba.setLoop 0 info).loops 0) ms
        rw [BA.setLoop_self]
        exact hLoopStep
      · left
        change ((ba.setLoop loop info).loops 0).sources = _
        rw [BA.setLoop_of_ne _ _ hZero]
  | finish => exact .inl rfl
  | mainConf flags signal info hMain hTake
  | mainConfReady flags signal info hMain hTake =>
      have hSources := takeConf_sources hTake
      exact .inl (hSet ba.loop _ hSources)
  | mainCoin flags signal info hMain hTake
  | mainCoinReady flags signal info hMain hTake =>
      have hSources := takeCoin_sources hTake
      exact .inl (hSet ba.loop _ hSources)
  | elect hMain =>
      left
      rcases elect_cases cfg ba with
        ⟨value, hEq⟩ | ⟨input, hEq⟩
      · rw [hEq]
      · rw [hEq]
        simp [BA.startLoop]

/- An iteration keeps them apart. -/
theorem ValApart.whole
    (hVal : ValApart s) (hLaunched : s.ba.launched = true)
    {event : Event} {ba : BA} {ms : List (BAMsg n)}
    (hWhole : Interleaved.splits s.ba event = false)
    (hRun : s.ba.step cfg id event = some (ba, ms))
    (hOk : undisturbedStatement cfg s (.whole event) = true) :
    ba.secondStarted = true → ba.secondGiven = true →
      (ba.loops 0).toldTrue (faults n) = false := by
  have hUnsplit := unsplit_of_splits hWhole
  -- a step that leaves `sendsencondval` where it is
  have hSame :
      event ≠ .sendSencondVal →
        (ba.loops 0).secondVal = (s.ba.loops 0).secondVal →
          (ba.loops 0).toldTrue (faults n) =
              (s.ba.loops 0).toldTrue (faults n) →
            ba.secondStarted = true →
              ba.secondGiven = true →
                (ba.loops 0).toldTrue (faults n) = false := by
    intro hEvent hSecond hTold
    rcases second_congr _ _ hSecond
      (step_secondInput hRun hEvent) with ⟨hStarted, hGiven⟩
    exact hVal.keep hLaunched (fun h => hStarted ▸ h)
      (fun h => hGiven ▸ h) hTold
  -- its own step needs that it waits and has its input
  have hOwn :
      event = .sendSencondVal →
        (ba.loops 0).toldTrue (faults n) =
            (s.ba.loops 0).toldTrue (faults n) →
          ba.secondStarted = true → ba.secondGiven = true →
            (ba.loops 0).toldTrue (faults n) = false := by
    rintro rfl hTold
    rcases Option.ite_none_right_eq_some.mp hRun with
      ⟨⟨hWaits, hInput⟩, _⟩
    refine hVal.keep hLaunched (fun _ => ?_) (fun _ => ?_) hTold
    · simp [BA.secondStarted, hWaits]
    · simp [BA.secondGiven, hInput]
  rcases (partyStep_of_step hRun).first_loop with
    hSources | hStep
  · by_cases hEvent : event = .sendSencondVal
    · exact hOwn hEvent (toldTrue_congr hSources)
    · exact hSame hEvent
        (congrArg Sources.secondVal hSources)
        (toldTrue_congr hSources)
  · have hTold := hStep.toldTrue_eq (faults n)
    generalize hInfo : ba.loops 0 = info at hStep hTold hSame
    cases hStep with
    | valNew value rest second hSignal hNow hFresh =>
        have hSend :
            (if 0 ≤ s.ba.loop then s.ba.sendVal id 0
              else none) = some (ba, _) := hRun
        rw [if_pos (Nat.zero_le _)] at hSend
        have hSecond := sendVal_second hSend (by rw [hInfo])
        rw [hInfo] at hSecond
        dsimp only at hSecond
        cases value with
        | true => exact hSame (by simp) hSecond rfl
        | false =>
            intro _ hGiven
            have hWaits : second = .waiting := hSecond
            have hBefore : s.ba.secondGiven = true := by
              have hInput :=
                step_secondInput hRun (by simp)
              rw [BA.secondGiven, hInput, hInfo] at hGiven
              rw [BA.secondGiven]
              rw [hWaits] at hGiven
              simp only [SecondVal.spoken, Bool.or_false]
                at hGiven
              rw [hGiven, Bool.true_or]
            have hNot :
                (s.ba.loops 0).toldTrue (faults n) = false := by
              simpa [undisturbedStatement, hSignal, hFresh,
                hBefore] using hOk
            exact hNot
    | valDoneFirst hNow hLoop =>
        exact absurd hNow (hUnsplit.val rfl)
    | secondDone hLoop hSent =>
        exact absurd rfl hUnsplit.second
    | second hLoop hWaits =>
        rw [hInfo] at hOwn
        exact hOwn rfl rfl
    | valSkip | valDone | auxSkip | auxNew | conf =>
        exact hSame (by simp) rfl rfl

/- A statement keeps them apart. -/
theorem ValApart.part
    (hVal : ValApart s) (hLaunched : s.ba.launched = true)
    (hStaged : Staged (s.ba.loops 0) (s.party.stage 0))
    {loop : Nat} {info : LoopInfo} {stage : Stage}
    {statement : Statement}
    (hPart :
      LoopPart loop (s.ba.loops loop) (s.party.stage loop)
        statement info stage) :
    (s.ba.setLoop loop info).secondStarted = true →
      (s.ba.setLoop loop info).secondGiven = true →
        ((s.ba.setLoop loop info).loops 0).toldTrue
          (faults n) = false := by
  by_cases hZero : 0 = loop
  · subst hZero
    have hTold :
        ((s.ba.setLoop 0 info).loops 0).toldTrue (faults n) =
          (s.ba.loops 0).toldTrue (faults n) := by
      rw [BA.setLoop_self]
      exact hPart.toldTrue_eq
    have hSame :
        info.secondVal = (s.ba.loops 0).secondVal →
          (s.ba.setLoop 0 info).secondStarted = true →
            (s.ba.setLoop 0 info).secondGiven = true →
              ((s.ba.setLoop 0 info).loops 0).toldTrue
                (faults n) = false := by
      intro hSecond
      rw [← BA.setLoop_self s.ba 0 info] at hSecond
      rcases second_congr _ _ hSecond rfl with ⟨hStarted, hGiven⟩
      exact hVal.keep hLaunched (fun h => hStarted ▸ h)
        (fun h => hGiven ▸ h) hTold
    cases hPart with
    | secondFlag hLoop hStage =>
        have hSent := hStaged.second hStage
        refine hVal.keep hLaunched (fun _ => ?_) (fun _ => ?_)
          hTold
        · simp [BA.secondStarted, hSent]
        · simp [BA.secondGiven, hSent, SecondVal.spoken]
    | _ => exact hSame rfl
  · have hInfo :
        (s.ba.setLoop loop info).loops 0 = s.ba.loops 0 :=
      BA.setLoop_of_ne _ _ hZero
    rcases second_congr s.ba (s.ba.setLoop loop info)
      (by rw [hInfo]) rfl with ⟨hStarted, hGiven⟩
    exact hVal.keep hLaunched (fun h => hStarted ▸ h)
      (fun h => hGiven ▸ h) (by rw [hInfo])

/- Every undisturbed step keeps them apart. -/
theorem ValApart.move
    (hSaid : Said s) (hVal : ValApart s)
    (hMove : Move cfg id s a s')
    (hOk : undisturbed cfg s a = true) :
    ValApart s' := by
  constructor
  · intro hLaunched
    refine hMove.loops
      (P := fun l info => l = 0 → Told (faults n) info)
      ?_ ?_ ?_ ?_ ?_ ?_ hLaunched 0 (Nat.zero_le _) rfl
    · rintro hBefore _ _ rfl
      exact hVal.told hBefore
    · exact fun _ input _ => .new _ input
    · exact fun _ _ _ hSources h hZero =>
        (h hZero).congr hSources
    · exact fun _ _ _ _ hStep _ h hZero =>
        hStep.told (h hZero)
    · exact fun _ _ _ _ _ hStep h hZero =>
        hStep.told (h hZero)
    · intro statement l info stage _ hPart h hZero
      refine hPart.told (fun _ => ?_) (h hZero)
      rw [hZero]
      exact hSaid.staged
  · intro hLaunched
    cases hMove with
    | launch input hIdle =>
        intro hStarted
        simp [BA.secondStarted, BA.startLoop, LoopInfo.new]
          at hStarted
    | second =>
        intro hStarted _
        have hBefore : s.ba.launched = true := hLaunched
        have hWaits : s.ba.secondStarted = true := hStarted
        simpa [undisturbed, hBefore, hWaits] using hOk
    | foreign m party hBefore hReceived =>
        exact hVal.received hBefore hOk hReceived
    | own i m party hBefore hMsg hReceived =>
        exact hVal.received hBefore
          (undisturbed_takes (a := .own i) hMsg hOk) hReceived
    | go statement party ms hBefore hStep =>
        cases hStep with
        | whole event ba ms hWhole hRun =>
            exact hVal.whole hBefore hWhole hRun hOk
        | part statement loop info stage hLoop hPart =>
            exact hVal.part hBefore hSaid.staged hPart

end Apart

end BinaryAgreement

end Jumbo

------------------------------------------------------------
-- AUX in Each Loop
------------------------------------------------------------

namespace Jumbo

namespace BinaryAgreement

open Protocol

variable {n : Nat}

/-
  Only `handle_val` signals AUX for false, and in the loops
  after the first only `handle_val` signals AUX at all.
-/
structure AuxApart (loop : Nat) (info : LoopInfo) : Prop where
  first :
    info.signalled false = true → info.isAuxSent = true
  later :
    loop ≠ 0 → info.isAuxSent = false →
      ∀ b, info.signalled b = false
  apart :
    info.signalled false = true →
      info.signalled true = false

/- The invariant looks at the signals for AUX only. -/
theorem AuxApart.congr
    {loop : Nat} {info info' : LoopInfo}
    (hApart : AuxApart loop info)
    (hSignalled : info'.signalled = info.signalled)
    (hSent : info'.isAuxSent = info.isAuxSent) :
    AuxApart loop info' := by
  constructor
  · rw [hSignalled, hSent]
    exact hApart.first
  · rw [hSignalled, hSent]
    exact hApart.later
  · rw [hSignalled]
    exact hApart.apart

theorem AuxApart.of_sources
    {loop : Nat} {info info' : LoopInfo}
    (hSources : info'.sources = info.sources)
    (hApart : AuxApart loop info) :
    AuxApart loop info' := by
  injection hSources with _ _ _ _ hSignal hSent _ _ _ hAux
  apply hApart.congr _ hSent
  unfold LoopInfo.signalled
  rw [hSignal, hAux]

/- No AUX has been asked for in a new loop. -/
theorem AuxApart.new (loop : Nat) (input : Bool) :
    AuxApart loop (LoopInfo.new input) := by
  constructor <;> simp [LoopInfo.signalled, LoopInfo.new]

/- One more signal. -/
theorem signalled_append
    (info info' : LoopInfo) {value : Bool}
    (hSignal :
      info'.sendAuxSignal = info.sendAuxSignal ++ [value])
    (hAux : info'.auxSent = info.auxSent) (b : Bool) :
    info'.signalled b = (info.signalled b || b == value) := by
  rw [LoopInfo.signalled, LoopInfo.signalled, hSignal, hAux]
  cases hb : b == value <;>
    simp_all [Bool.or_comm]

/- A signal that is taken is marked as sent. -/
theorem signalled_take
    {info info' : LoopInfo} {value : Bool} {rest : List Bool}
    (hSignal : info.sendAuxSignal = value :: rest)
    (hRest : info'.sendAuxSignal = rest)
    (hAux :
      ∀ b, info'.auxSent b =
        (info.auxSent b || b == value)) :
    info'.signalled = info.signalled := by
  funext b
  rw [LoopInfo.signalled, LoopInfo.signalled, hSignal, hRest,
    hAux, List.contains_cons]
  cases b == value <;> simp

/- The bias of the first loop signals true. -/
theorem AuxApart.bias
    {info info' : LoopInfo}
    (hSignal :
      info'.sendAuxSignal = info.sendAuxSignal ++ [true])
    (hAux : info'.auxSent = info.auxSent)
    (hNone : info.signalled false = false) :
    AuxApart 0 info' := by
  have hFalse : info'.signalled false = false := by
    rw [signalled_append _ _ hSignal hAux, hNone]
    rfl
  constructor
  · intro h
    rw [hFalse] at h
    cases h
  · exact fun h => absurd rfl h
  · intro h
    rw [hFalse] at h
    cases h

/- A whole iteration may only take a signal. -/
theorem LoopStep.auxApart
    {id : Fin n} {loop : Nat} {info info' : LoopInfo}
    {event : Event} {ms : List (BAMsg n)}
    (hStep : LoopStep id loop info event info' ms)
    (hUnsplit : loop = 0 → Unsplit info event)
    (hApart : AuxApart loop info) :
    AuxApart loop info' := by
  cases hStep with
  | auxSkip value rest hSignal hSent =>
      refine hApart.congr (signalled_take hSignal rfl ?_) rfl
      intro b
      by_cases hb : b = value
      · simp [hb, hSent]
      · simp [hb]
  | auxNew value rest hSignal hFresh =>
      exact hApart.congr
        (signalled_take hSignal rfl fun b => mark_apply _ _ b)
        rfl
  | valDoneFirst hNow hLoop =>
      subst hLoop
      exact absurd hNow ((hUnsplit rfl).val rfl)
  | secondDone hLoop hSent =>
      exact absurd rfl (hUnsplit hLoop).second
  | _ => exact hApart.congr rfl rfl

/- The statements that signal AUX. -/
theorem LoopPart.auxApart
    {cfg : Config} {s : Solo n} {loop : Nat}
    {info : LoopInfo} {stage : Stage} {statement : Statement}
    (hPart :
      LoopPart loop (s.ba.loops loop) (s.party.stage loop)
        statement info stage)
    (hOk : undisturbedStatement cfg s statement = true)
    (hApart : AuxApart loop (s.ba.loops loop)) :
    AuxApart loop info := by
  cases hPart with
  | aux value hStage hFresh =>
      have hSignalled :=
        signalled_append (s.ba.loops loop)
          { s.ba.loops loop with
            sendAuxSignal :=
              (s.ba.loops loop).sendAuxSignal ++ [value]
            isAuxSent := true } rfl rfl
      have hFalse :
          (s.ba.loops loop).signalled false = false := by
        by_contra h
        rw [Bool.not_eq_false] at h
        rw [hApart.first h] at hFresh
        cases hFresh
      refine
        ⟨fun _ => rfl,
          fun _ h => absurd h.symm Bool.false_ne_true, ?_⟩
      intro h
      rw [hSignalled, hFalse, Bool.false_or, beq_iff_eq] at h
      subst h
      rw [hSignalled]
      -- true was signalled before only in the first loop
      by_cases hZero : loop = 0
      · subst hZero
        simpa [undisturbedStatement, hStage, hFresh] using hOk
      · rw [hApart.later hZero hFresh]
        rfl
  | valSignal hLoop hNow hStage =>
      subst hLoop
      exact AuxApart.bias rfl rfl
        (by simpa [undisturbedStatement] using hOk)
  | secondSignal hLoop hSecond hStage =>
      subst hLoop
      exact AuxApart.bias rfl rfl
        (by simpa [undisturbedStatement] using hOk)
  | _ => exact hApart.congr rfl rfl

section Apart

variable {cfg : Config} {id : Fin n} {s s' : Solo n}
variable {a : Solo.Action n}

/-
  Every undisturbed step keeps one value of AUX for each
  loop.
-/
theorem auxApart_move
    (hAll :
      s.ba.launched = true → ∀ l, l ≤ s.ba.loop →
        AuxApart l (s.ba.loops l))
    (hMove : Move cfg id s a s')
    (hOk : undisturbed cfg s a = true) :
    s'.ba.launched = true → ∀ l, l ≤ s'.ba.loop →
      AuxApart l (s'.ba.loops l) := by
  refine hMove.loops hAll AuxApart.new ?_ ?_ ?_ ?_
  · exact fun _ _ _ hSources h => h.of_sources hSources
  · exact fun _ _ _ _ hStep hUnsplit h =>
      hStep.auxApart hUnsplit h
  · intro m info stage _ _ hStep h
    refine h.congr ?_ ?_
    · cases hStep <;> rfl
    · cases hStep <;> rfl
  · rintro statement l info stage rfl hPart h
    exact hPart.auxApart hOk h

end Apart

end BinaryAgreement

end Jumbo

------------------------------------------------------------
-- FINISH of the Instance
------------------------------------------------------------

namespace Jumbo

namespace BinaryAgreement

open Protocol

variable {n : Nat}

/-
  Every cause of FINISH has put one signal, and there is one
  cause at most where more than one goroutine may take it.
-/
structure FinishApart (s : Solo n) : Prop where
  causes :
    s.sent.countP isFinishMix +
        s.ba.sendFinishSignal.length =
      s.ba.finishCauses (faults n)
  apart :
    s.ba.loop = 0 ∨ s.ba.finishCauses (faults n) ≤ 1

/- Steps that do not touch FINISH keep the invariant. -/
theorem FinishApart.keep
    {s s' : Solo n}
    (hFinish : FinishApart s)
    (hSent :
      s'.sent.countP isFinishMix = s.sent.countP isFinishMix)
    (hSignal :
      s'.ba.sendFinishSignal = s.ba.sendFinishSignal)
    (hCount : s'.ba.finishCount = s.ba.finishCount)
    (hMain :
      s'.ba.main.isDecided = s.ba.main.isDecided)
    (hLoop : s'.ba.loop = s.ba.loop ∨ s'.ba.loop = 0) :
    FinishApart s' := by
  have hCauses :
      s'.ba.finishCauses (faults n) =
        s.ba.finishCauses (faults n) := by
    rw [BA.finishCauses, hCount, hMain]
    rfl
  constructor
  · rw [hSent, hSignal, hCauses]
    exact hFinish.causes
  · rw [hCauses]
    rcases hLoop with hLoop | hLoop
    · rw [hLoop]
      exact hFinish.apart
    · exact .inl hLoop

/- `handle_finish` asks for FINISH at `f + 1`. -/
theorem finishCauses_handleFinish
    (faults : Nat) (ba : BA) (value : Bool) :
    (handleFinish faults ba value).finishCauses faults =
        ba.finishCauses faults +
          (decide (ba.finishCount value = faults)).toNat ∧
      (handleFinish faults ba value).sendFinishSignal.length =
        ba.sendFinishSignal.length +
          (decide (ba.finishCount value = faults)).toNat := by
  constructor
  · have hStep :
        ∀ b, (decide (faults + 1 ≤
            bump ba.finishCount value b)).toNat =
          (decide (faults + 1 ≤ ba.finishCount b)).toNat +
            (decide (ba.finishCount value = faults ∧
              b = value)).toNat := by
      intro b
      rw [bump_apply]
      by_cases hb : b = value
      · subst hb
        rw [if_pos rfl]
        by_cases hCount : ba.finishCount b = faults
        · simp [hCount]
        · have hIff :
              faults + 1 ≤ ba.finishCount b + 1 ↔
                faults + 1 ≤ ba.finishCount b := by
            omega
          simp [hCount, hIff]
      · simp [hb]
    rw [BA.finishCauses, handleFinish_finishCount,
      handleFinish_main, hStep, hStep, BA.finishCauses]
    cases value <;> simp <;> omega
  · unfold handleFinish
    simp only [bump_apply, if_true]
    by_cases hCount : ba.finishCount value = faults
    · simp [hCount]
    · have hNot : ¬ ba.finishCount value + 1 = faults + 1 := by
        omega
      rw [if_neg hNot]
      split <;> simp [hCount]

/- The end of a loop, by the outcome of the coin. -/
theorem elect_eq (cfg : Config) (ba : BA) :
    (ba.decides cfg = true ∧
      ∃ value, ba.elect cfg =
        { ba with
          sendFinishSignal := ba.sendFinishSignal ++ [value]
          main := .decided value }) ∨
      ba.decides cfg = false ∧
        ∃ input,
          ba.elect cfg = ba.startLoop (ba.loop + 1) input := by
  unfold BA.elect BA.decides
  dsimp only
  generalize handleCoin cfg ba.loop ba.loop = coin
  rcases ba.info.values with ⟨zero, one⟩
  cases zero <;> cases one <;> cases coin
  · exact .inr ⟨rfl, _, rfl⟩
  · exact .inr ⟨rfl, _, rfl⟩
  · exact .inr ⟨rfl, _, rfl⟩
  · exact .inl ⟨rfl, _, rfl⟩
  · exact .inl ⟨rfl, _, rfl⟩
  · exact .inr ⟨rfl, _, rfl⟩
  · exact .inr ⟨rfl, _, rfl⟩
  · exact .inr ⟨rfl, _, rfl⟩

/- Goroutines of one loop send no FINISH. -/
theorem LoopStep.not_finish
    {id : Fin n} {loop : Nat} {info info' : LoopInfo}
    {event : Event} {ms : List (BAMsg n)}
    (hStep : LoopStep id loop info event info' ms) :
    ms.countP isFinishMix = 0 := by
  cases hStep <;>
    simp [isFinishMix, BA.valMsg, BA.auxMsg, BA.confMsg]

section Apart

variable {cfg : Config} {id : Fin n} {s s' : Solo n}
variable {a : Solo.Action n}

/- A message that is read keeps FINISH to one value. -/
theorem FinishApart.received
    (hFinish : FinishApart s)
    {m : BAMsg n}
    (hOk : undisturbedBy s m = true)
    (hReceived : Received id s.party m s'.party)
    (hSent : s'.sent = s.sent) :
    FinishApart s' := by
  rcases s' with ⟨party, sent, waiting, counted⟩
  dsimp only at hReceived hSent
  subst hSent
  cases hReceived with
  | val => exact hFinish.keep rfl rfl rfl rfl (.inl rfl)
  | other ba hType hRun =>
      rcases receive_cases hRun with
        ⟨_, _, rfl⟩ | ⟨hKind, _, rfl⟩
      · exact hFinish.keep rfl rfl rfl rfl (.inl rfl)
      · rcases finishCauses_handleFinish (faults n) s.ba
          m.value with ⟨hCauses, hLength⟩
        constructor
        · change s.sent.countP isFinishMix + List.length _ =
            BA.finishCauses _ _
          rw [hCauses, hLength, ← hFinish.causes]
          omega
        · rw [hCauses, handleFinish_loop]
          by_cases hCount :
              s.ba.finishCount m.value = faults n
          · have hNone :
                s.ba.loop = 0 ∨
                  s.ba.finishCauses (faults n) = 0 := by
              simpa [undisturbedBy, hKind, hCount] using hOk
            rcases hNone with h | h
            · exact .inl h
            · right
              simp [h, hCount]
          · simpa [hCount] using hFinish.apart

/- A decision keeps FINISH to one value. -/
theorem FinishApart.elect
    (hFinish : FinishApart s)
    (hMain : s.ba.main = .elect)
    (hOk :
      undisturbedStatement cfg s (.whole .mainElect) = true)
    (hBa : s'.ba = s.ba.elect cfg)
    (hSent : s'.sent = s.sent) :
    FinishApart s' := by
  have hOpen : s.ba.main.isDecided = false := by
    rw [hMain]
    rfl
  unfold undisturbedStatement at hOk
  rcases elect_eq cfg s.ba with
    ⟨hDecides, value, hEq⟩ | ⟨hDecides, input, hEq⟩
  · rw [if_pos hDecides] at hOk
    have hCauses :
        s'.ba.finishCauses (faults n) =
          s.ba.finishCauses (faults n) + 1 := by
      rw [BA.finishCauses, BA.finishCauses, hBa, hEq, hOpen]
      rfl
    constructor
    · rw [hCauses, ← hFinish.causes, hSent, hBa, hEq]
      simp only [List.length_append, List.length_singleton]
      omega
    · rw [hCauses, hBa, hEq]
      rcases (Bool.or_eq_true _ _).mp hOk with h | h
      · exact .inl (of_decide_eq_true h)
      · right
        rw [of_decide_eq_true h]
  · rw [if_neg (by simp [hDecides])] at hOk
    have hCauses :
        s'.ba.finishCauses (faults n) =
          s.ba.finishCauses (faults n) := by
      rw [BA.finishCauses, BA.finishCauses, hBa, hEq, hOpen]
      rfl
    constructor
    · rw [hCauses, ← hFinish.causes, hSent, hBa, hEq]
      rfl
    · rw [hCauses]
      exact .inr (of_decide_eq_true hOk)

/- Every undisturbed step keeps FINISH to one value. -/
theorem FinishApart.move
    (hFinish : FinishApart s)
    (hMove : Move cfg id s a s')
    (hOk : undisturbed cfg s a = true) :
    FinishApart s' := by
  cases hMove with
  | launch input hIdle =>
      refine hFinish.keep rfl rfl rfl ?_ (.inr rfl)
      unfold BA.launched at hIdle
      cases hMain : s.ba.main with
      | idle => rfl
      | _ => simp [hMain] at hIdle
  | second => exact hFinish.keep rfl rfl rfl rfl (.inl rfl)
  | foreign m party hLaunched hReceived =>
      exact hFinish.received hOk hReceived rfl
  | own i m party hLaunched hMsg hReceived =>
      exact hFinish.received
        (undisturbed_takes (a := .own i) hMsg hOk) hReceived rfl
  | go statement party ms hLaunched hStep =>
      cases hStep with
      | part statement loop info stage hLoop hPart =>
          exact hFinish.keep (by simp) rfl rfl rfl (.inl rfl)
      | whole event ba ms hWhole hRun =>
          cases partyStep_of_step hRun with
          | loop loop event info ms second hLoop hLoopStep =>
              refine hFinish.keep ?_ rfl rfl rfl (.inl rfl)
              rw [List.countP_append, hLoopStep.not_finish]
              rfl
          | finish value rest hSignal =>
              have hCauses := hFinish.causes
              rw [hSignal] at hCauses
              constructor
              · change _ = s.ba.finishCauses (faults n)
                rw [← hCauses, List.countP_append,
                  countP_finishMsg, List.length_cons]
                dsimp only
                omega
              · exact hFinish.apart
          | mainConf flags signal info hMain hTake
          | mainConfReady flags signal info hMain hTake
          | mainCoin flags signal info hMain hTake
          | mainCoinReady flags signal info hMain hTake =>
              refine hFinish.keep (by simp) rfl rfl ?_ (.inl rfl)
              rw [hMain]
              rfl
          | elect hMain =>
              exact hFinish.elect hMain hOk rfl (by simp)

end Apart

end BinaryAgreement

end Jumbo

------------------------------------------------------------
-- The Own CONF
------------------------------------------------------------

namespace Jumbo

namespace BinaryAgreement

open Protocol

variable {n : Nat}

/-
  An own CONF that waits shows what was sent, and so did the
  ones that were counted.
-/
structure OwnApart (id : Fin n) (s : Solo n) : Prop where
  mine : ∀ m ∈ s.waiting, m.id = id
  sent : ∀ m ∈ s.waiting, m ∈ s.sent
  fresh :
    ∀ m ∈ s.waiting, m.type = .conf →
      (s.ba.loops m.loop).values = m.confValue
  counted : ∀ pair ∈ s.counted, pair.1 = pair.2

/- A flag that is set already is not changed. -/
theorem Values.set_of_get
    {values : Values} {b : Bool}
    (hSet : values.get b = true) :
    values.set b = values := by
  apply Values.ext_get
  intro c
  rw [Values.get_set]
  by_cases hc : b = c
  · subst hc
    rw [hSet]
    rfl
  · rw [beq_eq_false_iff_ne.mpr hc, Bool.or_false]

/- Handlers write no flag when they take a message. -/
theorem Received.values_eq
    {id : Fin n} {party party' : Interleaved} {m : BAMsg n}
    (hReceived : Received id party m party') (l : Nat) :
    (party'.ba.loops l).values =
      (party.ba.loops l).values := by
  cases hReceived with
  | val info stage hType hLoop hIdle hStep =>
      change ((party.ba.setLoop m.loop info).loops l).values = _
      by_cases hl : l = m.loop
      · subst hl
        rw [BA.setLoop_self]
        cases hStep <;> rfl
      · rw [BA.setLoop_of_ne _ _ hl]
  | other ba hType hRun =>
      rcases receive_cases hRun with
        ⟨_, _, rfl⟩ | ⟨_, _, rfl⟩
      · by_cases hl : l = m.loop
        · subst hl
          rw [BA.setLoop_self]
          exact congrArg Sources.values
            (loopReceive_sources id _ hType)
        · rw [BA.setLoop_of_ne _ _ hl]
      · rw [handleFinish_loops]

/- Iterations as a whole write none either. -/
theorem LoopStep.values_eq
    {id : Fin n} {loop : Nat} {info info' : LoopInfo}
    {event : Event} {ms : List (BAMsg n)}
    (hStep : LoopStep id loop info event info' ms)
    (hUnsplit : loop = 0 → Unsplit info event) :
    info'.values = info.values := by
  cases hStep with
  | valDoneFirst hNow hLoop =>
      subst hLoop
      exact absurd hNow ((hUnsplit rfl).val rfl)
  | secondDone hLoop hSent =>
      exact absurd rfl (hUnsplit hLoop).second
  | _ => rfl

/- Only the statements told apart write `values`. -/
theorem PartyStep.values_eq
    {cfg : Config} {id : Fin n} {ba ba' : BA}
    {event : Event} {ms : List (BAMsg n)}
    (hStep : PartyStep cfg id ba event ba' ms)
    (hWhole : Interleaved.splits ba event = false)
    {l : Nat} (hl : l ≤ ba.loop) :
    (ba'.loops l).values = (ba.loops l).values := by
  have hSet :
      ∀ loop info,
        info.values = (ba.loops loop).values →
          ((ba.setLoop loop info).loops l).values =
            (ba.loops l).values := by
    intro loop info hValues
    by_cases hEq : l = loop
    · subst hEq
      rw [BA.setLoop_self]
      exact hValues
    · rw [BA.setLoop_of_ne _ _ hEq]
  cases hStep with
  | loop loop event info ms second hLoop hLoopStep =>
      apply hSet
      apply hLoopStep.values_eq
      rintro rfl
      exact unsplit_of_splits hWhole
  | finish => rfl
  | mainConf flags signal info hMain hTake
  | mainConfReady flags signal info hMain hTake =>
      exact hSet _ _ (takeConf_same hTake).1
  | mainCoin flags signal info hMain hTake
  | mainCoinReady flags signal info hMain hTake =>
      exact hSet _ _ (takeCoin_same hTake).1
  | elect hMain =>
      rcases elect_cases cfg ba with
        ⟨value, hEq⟩ | ⟨input, hEq⟩
      · rw [hEq]
      · have hNe : l ≠ ba.loop + 1 := by omega
        rw [hEq]
        simp [BA.startLoop, Function.update_of_ne hNe]

/- A CONF is broadcast with the flags of its loop. -/
theorem PartyStep.conf_values
    {cfg : Config} {id : Fin n} {ba ba' : BA}
    {event : Event} {ms : List (BAMsg n)}
    (hStep : PartyStep cfg id ba event ba' ms)
    {m : BAMsg n} (hMem : m ∈ ms) (hType : m.type = .conf) :
    (ba.loops m.loop).values = m.confValue ∧
      m.loop ≤ ba.loop := by
  cases hStep with
  | loop loop event info ms second hLoop hLoopStep =>
      cases hLoopStep with
      | conf hPending =>
          rw [List.mem_singleton] at hMem
          subst hMem
          exact ⟨rfl, hLoop⟩
      | valNew | second | auxNew =>
          rw [List.mem_singleton] at hMem
          subst hMem
          cases hType
      | _ => cases hMem
  | finish value =>
      rw [List.mem_singleton] at hMem
      subst hMem
      cases hType
  | _ => cases hMem

/- A statement that writes a flag finds no own CONF waiting. -/
theorem LoopPart.values_eq
    {cfg : Config} {s : Solo n} {loop : Nat}
    {info : LoopInfo} {stage : Stage} {statement : Statement}
    (hPart :
      LoopPart loop (s.ba.loops loop) (s.party.stage loop)
        statement info stage)
    (hOk : undisturbedStatement cfg s statement = true)
    (hWaits : s.confWaits loop = true) :
    info.values = (s.ba.loops loop).values := by
  cases hPart with
  | flag value hStage =>
      apply Values.set_of_get
      simpa [undisturbedStatement, hStage, hWaits] using hOk
  | valFlag hLoop hStage =>
      subst hLoop
      have hSet : (s.ba.loops 0).values.get true = true := by
        simpa [undisturbedStatement, hWaits, Values.get]
          using hOk
      exact Values.set_of_get hSet
  | secondFlag hLoop hStage =>
      subst hLoop
      have hSet : (s.ba.loops 0).values.get true = true := by
        simpa [undisturbedStatement, hWaits, Values.get]
          using hOk
      exact Values.set_of_get hSet
  | _ => rfl

section Apart

variable {cfg : Config} {id : Fin n} {s s' : Solo n}
variable {a : Solo.Action n}

/- Nothing new waits, and what waits shows the same. -/
theorem OwnApart.keep
    (hOwn : OwnApart id s)
    (hWaiting : ∀ m ∈ s'.waiting, m ∈ s.waiting)
    (hSent : ∀ m ∈ s.sent, m ∈ s'.sent)
    (hValues :
      ∀ m ∈ s'.waiting, m.type = .conf →
        (s'.ba.loops m.loop).values =
          (s.ba.loops m.loop).values)
    (hCounted : ∀ pair ∈ s'.counted, pair.1 = pair.2) :
    OwnApart id s' where
  mine := fun m hm => hOwn.mine m (hWaiting m hm)
  sent := fun m hm => hSent m (hOwn.sent m (hWaiting m hm))
  fresh := fun m hm hType =>
    (hValues m hm hType).trans
      (hOwn.fresh m (hWaiting m hm) hType)
  counted := hCounted

/- A party's own message is read as it was sent. -/
theorem OwnApart.own
    (hOwn : OwnApart id s) {i : Nat} {m : BAMsg n}
    {party : Interleaved}
    (hMsg : s.waiting[i]? = some m)
    (hReceived : Received id s.party m party) :
    OwnApart id
      { s with
        party := party
        waiting := s.waiting.eraseIdx i
        counted := s.counted ++
          if m.type = .conf then
            [(m.confValue,
              confValueAt id (s.ba.loops m.loop) m)]
          else [] } := by
  refine hOwn.keep (fun m hm => List.mem_of_mem_eraseIdx hm)
    (fun m hm => hm)
    (fun m _ _ => hReceived.values_eq m.loop) ?_
  intro pair hPair
  rcases List.mem_append.mp hPair with hPair | hPair
  · exact hOwn.counted pair hPair
  · split at hPair
    · rename_i hType
      have hMem := List.mem_of_getElem? hMsg
      rw [List.mem_singleton.mp hPair]
      dsimp only
      rw [confValueAt, if_pos (hOwn.mine m hMem)]
      exact (hOwn.fresh m hMem hType).symm
    · cases hPair

/- An iteration keeps the flags of the own CONF. -/
theorem OwnApart.whole
    (hOwn : OwnApart id s) (hSaid : Said s)
    {event : Event} {ba : BA} {ms : List (BAMsg n)}
    (hWhole : Interleaved.splits s.ba event = false)
    (hRun : s.ba.step cfg id event = some (ba, ms)) :
    OwnApart id
      { s with
        party := { s.party with ba := ba }
        sent := s.sent ++ ms
        waiting := s.waiting ++ ms } := by
  have hStep := partyStep_of_step hRun
  constructor
  · intro m hm
    rcases List.mem_append.mp hm with hm | hm
    · exact hOwn.mine m hm
    · exact hStep.id_eq m hm
  · intro m hm
    rcases List.mem_append.mp hm with hm | hm
    · exact List.mem_append_left _ (hOwn.sent m hm)
    · exact List.mem_append_right _ hm
  · intro m hm hType
    dsimp only
    rcases List.mem_append.mp hm with hm | hm
    · rw [hStep.values_eq hWhole
        (hSaid.ahead m (hOwn.sent m hm))]
      exact hOwn.fresh m hm hType
    · rcases hStep.conf_values hm hType with ⟨hValues, hLoop⟩
      rw [hStep.values_eq hWhole hLoop]
      exact hValues
  · exact hOwn.counted

/- A statement writes no flag after the own CONF is sent. -/
theorem OwnApart.part
    (hOwn : OwnApart id s)
    {loop : Nat} {info : LoopInfo} {stage : Stage}
    {statement : Statement}
    (hPart :
      LoopPart loop (s.ba.loops loop) (s.party.stage loop)
        statement info stage)
    (hOk : undisturbedStatement cfg s statement = true) :
    OwnApart id
      { s with
        party := s.party.setLoop loop info stage
        sent := s.sent ++ []
        waiting := s.waiting ++ [] } := by
  rw [List.append_nil, List.append_nil]
  refine hOwn.keep (fun m hm => hm) (fun m hm => hm) ?_
    hOwn.counted
  intro m hm hType
  change ((s.ba.setLoop loop info).loops m.loop).values = _
  by_cases hLoop : m.loop = loop
  · have hWaits : s.confWaits loop = true := by
      apply List.any_eq_true.mpr
      exact ⟨m, hm, by simp [isConfMix, hType, hLoop]⟩
    rw [hLoop, BA.setLoop_self]
    exact hPart.values_eq hOk hWaits
  · rw [BA.setLoop_of_ne _ _ hLoop]

/- Every undisturbed step keeps the flags of the own CONF. -/
theorem OwnApart.move
    (hOwn : OwnApart id s) (hSaid : Said s)
    (hMove : Move cfg id s a s')
    (hOk : undisturbed cfg s a = true) :
    OwnApart id s' := by
  cases hMove with
  | launch input hIdle =>
      refine hOwn.keep (fun m hm => hm) (fun m hm => hm) ?_
        hOwn.counted
      intro m hm
      have hMem := hOwn.sent m hm
      rw [(hSaid.silent hIdle).1] at hMem
      cases hMem
  | second =>
      exact hOwn.keep (fun m hm => hm) (fun m hm => hm)
        (fun _ _ _ => rfl) hOwn.counted
  | foreign m party hLaunched hReceived =>
      exact hOwn.keep (fun m hm => hm) (fun m hm => hm)
        (fun m _ _ => hReceived.values_eq m.loop)
        hOwn.counted
  | own i m party hLaunched hMsg hReceived =>
      exact hOwn.own hMsg hReceived
  | go statement party ms hLaunched hStep =>
      cases hStep with
      | whole event ba ms hWhole hRun =>
          exact hOwn.whole hSaid hWhole hRun
      | part statement loop info stage hLoop hPart =>
          exact hOwn.part hPart hOk

end Apart

end BinaryAgreement

end Jumbo

------------------------------------------------------------
-- Speaking Once
------------------------------------------------------------

namespace Jumbo

namespace BinaryAgreement

open Protocol

variable {n : Nat}

/-
  One VAL for each loop and value, one AUX and one CONF for
  each loop, one FINISH, and an own CONF counted as sent.
-/
structure SpeaksOnce (s : Solo n) : Prop where
  val : ∀ l b, s.sent.countP (isVal l b) ≤ 1
  aux : ∀ l, s.sent.countP (isAuxMix l) ≤ 1
  conf : ∀ l, s.sent.countP (isConfMix l) ≤ 1
  finish : s.sent.countP isFinishMix ≤ 1
  own : ∀ pair ∈ s.counted, pair.1 = pair.2

/- The sources of the broadcasts stay apart. -/
structure Undisturbed (id : Fin n) (s : Solo n) : Prop where
  said : Said s
  val : ValApart s
  aux :
    s.ba.launched = true → ∀ l, l ≤ s.ba.loop →
      AuxApart l (s.ba.loops l)
  finish : FinishApart s
  own : OwnApart id s

/- Every step under the condition keeps them apart. -/
theorem undisturbed_run
    {cfg : Config} {id : Fin n} {s : Solo n}
    (hReach :
      (solo cfg id).ReachableBy
        (fun s a => undisturbed cfg s a = true) s) :
    Undisturbed id s := by
  refine Machine.ReachableBy.invariant (Undisturbed id)
    ?_ ?_ hReach
  · have hSaid : Said (solo cfg id).init :=
      said (.init : (solo cfg id).Reachable _)
    refine ⟨hSaid, ⟨?_, ?_⟩, ?_, ⟨?_, .inl rfl⟩, ?_⟩
    · intro hLaunched
      cases hLaunched
    · intro hLaunched
      cases hLaunched
    · intro hLaunched
      cases hLaunched
    · simp [solo, Solo.init, Interleaved.new, BA.new,
        BA.finishCauses, Main.isDecided]
    · constructor <;> simp [solo, Solo.init]
  · intro s a s' _ hApart hOk hExec
    have hMove := move_of_exec hExec
    exact
      { said := hApart.said.move hMove
        val := hApart.val.move hApart.said hMove hOk
        aux := auxApart_move hApart.aux hMove hOk
        finish := hApart.finish.move hMove hOk
        own := hApart.own.move hApart.said hMove hOk }

/- AUX messages are for one value or the other. -/
theorem countP_isAuxMix
    (ms : List (BAMsg n)) (loop : Nat) (b : Bool) :
    ms.countP (isAuxMix loop) =
      ms.countP (isAux loop b) +
        ms.countP (isAux loop (!b)) := by
  induction ms with
  | nil => rfl
  | cons m ms ih =>
      rw [List.countP_cons, List.countP_cons,
        List.countP_cons, ih]
      have hOne :
          (if isAuxMix loop m = true then 1 else 0) =
            (if isAux loop b m = true then 1 else 0) +
              if isAux loop (!b) m = true then 1 else 0 := by
        unfold isAuxMix isAux
        by_cases hAux :
            (m.type = .aux && m.loop = loop) = true
        · rw [hAux]
          cases b <;> cases m.value <;> rfl
        · rw [Bool.not_eq_true] at hAux
          rw [hAux]
          rfl
      omega

/- What was said of a loop, for loops that were started. -/
theorem Said.countP_le
    {s : Solo n} (hSaid : Said s) {l k : Nat}
    {P : BAMsg n → Bool}
    (hPlace : ∀ m, P m = true → m.loop = l)
    (hCount :
      s.ba.launched = true → l ≤ s.ba.loop →
        s.sent.countP P ≤ k) :
    s.sent.countP P ≤ k := by
  by_cases hStarted :
      s.ba.launched = true ∧ l ≤ s.ba.loop
  · exact hCount hStarted.1 hStarted.2
  · have hNone : s.sent.countP P = 0 := by
      rw [List.countP_eq_zero]
      intro m hm hP
      apply hStarted
      rw [← hPlace m hP]
      refine ⟨?_, hSaid.ahead m hm⟩
      by_contra hIdle
      rw [Bool.not_eq_true] at hIdle
      rw [(hSaid.silent hIdle).1] at hm
      cases hm
    omega

/- Both senders of VAL for true have not spoken. -/
theorem Undisturbed.val_le
    {id : Fin n} {s : Solo n} (hApart : Undisturbed id s)
    (l : Nat) (b : Bool) :
    s.sent.countP (isVal l b) ≤ 1 := by
  refine hApart.said.countP_le (fun _ => isVal_loop) ?_
  intro hLaunched hl
  rw [hApart.said.val hLaunched l hl b]
  have hOk := hApart.said.ok hLaunched l hl
  have hNow :
      ((s.ba.loops l).valSent b).toNat +
          (decide ((s.ba.loops l).sendValNow = some b)).toNat ≤
        1 := by
    by_cases h : (s.ba.loops l).sendValNow = some b
    · simp [h, hOk.now b h]
    · simp [h, Bool.toNat_le]
  by_cases hSecond :
      l = 0 ∧ b = true ∧
        (s.ba.loops 0).secondVal.spoken = true
  · rcases hSecond with ⟨rfl, rfl, hSpoken⟩
    have hStarted : s.ba.secondStarted = true := by
      simp only [BA.secondStarted, decide_eq_true_eq]
      intro hNone
      rw [hNone] at hSpoken
      cases hSpoken
    have hTold :=
      hApart.val.apart hLaunched hStarted
        (by simp [BA.secondGiven, hSpoken])
    have hNot := mt (hApart.val.told hLaunched)
      (by simp [hTold])
    simp only [not_or, Bool.not_eq_true] at hNot
    simp [LoopInfo.speech, hNot.2.1, hNot.2.2, hSpoken]
  · have hNone :
        (decide (l = 0) && b &&
          (s.ba.loops l).secondVal.spoken) = false := by
      by_contra h
      rw [Bool.not_eq_false] at h
      simp only [Bool.and_eq_true, decide_eq_true_eq] at h
      rcases h with ⟨⟨rfl, hb⟩, hSpoken⟩
      exact hSecond ⟨rfl, hb, hSpoken⟩
    rw [LoopInfo.speech]
    dsimp only
    rw [hNone]
    simpa using hNow

/- At most one AUX for each loop. -/
theorem Undisturbed.aux_le
    {id : Fin n} {s : Solo n} (hApart : Undisturbed id s)
    (l : Nat) :
    s.sent.countP (isAuxMix l) ≤ 1 := by
  refine hApart.said.countP_le (fun _ => isAuxMix_loop) ?_
  intro hLaunched hl
  have hSignalled :
      ∀ b, (s.ba.loops l).signalled b = false →
        (s.ba.loops l).auxSent b = false := by
    intro b h
    rw [LoopInfo.signalled, Bool.or_eq_false_iff] at h
    exact h.2
  rw [countP_isAuxMix _ _ false,
    hApart.said.aux hLaunched l hl,
    hApart.said.aux hLaunched l hl]
  change ((s.ba.loops l).auxSent false).toNat +
    ((s.ba.loops l).auxSent true).toNat ≤ 1
  cases h : (s.ba.loops l).signalled false with
  | false =>
      rw [hSignalled false h]
      simp [Bool.toNat_le]
  | true =>
      have hTrue :=
        (hApart.aux hLaunched l hl).apart h
      rw [hSignalled true hTrue]
      simp [Bool.toNat_le]

/- At most one FINISH. -/
theorem Undisturbed.finish_le
    {id : Fin n} {s : Solo n} (hApart : Undisturbed id s) :
    s.sent.countP isFinishMix ≤ 1 := by
  have hCauses := hApart.finish.causes
  rcases hApart.finish.apart with hFirst | hFew
  · -- one loop has brought one goroutine
    cases hLaunched : s.ba.launched with
    | false =>
        rw [(hApart.said.silent hLaunched).1]
        exact Nat.zero_le 1
    | true =>
        have hAll := hApart.said.finish hLaunched
        omega
  · omega

/- Where nothing disturbs, a party says everything once. -/
theorem Undisturbed.once
    {id : Fin n} {s : Solo n} (hApart : Undisturbed id s) :
    SpeaksOnce s where
  val := hApart.val_le
  aux := hApart.aux_le
  conf := by
    intro l
    refine hApart.said.countP_le (fun _ => isConfMix_loop) ?_
    intro hLaunched hl
    rw [hApart.said.conf hLaunched l hl]
    exact Bool.toNat_le _
  finish := hApart.finish_le
  own := hApart.own.counted

/-
  In every run in which the sources of a second broadcast do
  not come together a party speaks once for each phase and
  counts the CONF that it sent.
-/
theorem speaksOnce
    {cfg : Config} {id : Fin n} {s : Solo n}
    (hReach :
      (solo cfg id).ReachableBy
        (fun s a => undisturbed cfg s a = true) s) :
    SpeaksOnce s :=
  (undisturbed_run hReach).once

------------------------------------------------------------
-- A Steady Run and a Second VAL
------------------------------------------------------------

/- One instance, with every coin the same. -/
def soloConfig : Config := ⟨fun _ => [], 0, 1⟩

/- A message of every type for true from one party. -/
def ofVal (p : Fin 4) : Solo.Action 4 :=
  .foreign (BA.valMsg p 0 true)

/- An AUX of another party. -/
def ofAux (p : Fin 4) : Solo.Action 4 :=
  .foreign (BA.auxMsg p 0 true)

/- A CONF of another party. -/
def ofConf (p : Fin 4) : Solo.Action 4 :=
  .foreign (BA.confMsg p 0 (Values.only true))

/- An iteration of a goroutine that is not told apart. -/
def runs (event : Event) : Solo.Action 4 :=
  .go (.whole event)

/- Everybody has input true, and party 0 decides it. -/
def steadyRun : List (Solo.Action 4) :=
  [.launch true, runs (.sendVal 0), .go .sendValSignal,
    .go .sendValFlag, .own 0, ofVal 1, ofVal 2,
    .go (.handleVal 0), .go (.handleVal 0),
    .go (.handleVal 0), runs (.sendVal 0),
    runs (.sendAux 0), .own 0, ofAux 1, ofAux 2,
    runs (.mainConf (.value true)),
    runs (.mainConf (.quorum true)), runs (.sendConf 0),
    .own 0, ofConf 1, ofConf 2,
    runs (.mainCoin (.value true)),
    runs (.mainCoin (.quorum true)), runs .mainElect,
    runs .sendFinish]

/- Where the steady run ends. -/
def steadySolo : Solo 4 :=
  (solo soloConfig 0).drive (undisturbed soloConfig)
    Solo.init steadyRun

/- The party has said each thing once there. -/
theorem speaksOnce_steady :
    SpeaksOnce steadySolo ∧
      steadySolo.sent.map BAMsg.type =
        [.val, .aux, .conf, .finish] ∧
      steadySolo.counted.length = 1 := by
  have hReach :
      (solo soloConfig 0).ReachableBy
        (fun s a => undisturbed soloConfig s a = true)
        steadySolo :=
    Machine.ReachableBy.drive .init steadyRun
  exact
    ⟨speaksOnce hReach, by decide +kernel,
      by decide +kernel⟩

/-
  `sendsencondval` has sent VAL for true, and with its own
  and another one the party amplifies true once more.
-/
def twiceRun : List (Solo.Action 4) :=
  [.launch false, runs (.sendVal 0), runs (.sendValDone 0),
    .second, runs .sendSencondVal, .go .sencondValSignal,
    .go .sencondValFlag, .own 1, ofVal 1, runs (.sendVal 0)]

/- Without the guard a party says two things. -/
theorem speaks_twice :
    ∃ s, (solo (n := 4) soloConfig 0).Reachable s ∧
      ¬ SpeaksOnce s := by
  refine ⟨_, Machine.reachable_drive _ twiceRun, ?_⟩
  intro hOnce
  exact absurd (hOnce.val 0 true) (by decide +kernel)

end BinaryAgreement

end Jumbo
