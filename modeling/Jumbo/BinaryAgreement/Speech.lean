import Jumbo.BinaryAgreement.Interleaving
import Jumbo.BinaryAgreement.Signals

/-
  How often one party has spoken in a binary agreement, told
  by the flags of its goroutines.

  The party runs statement by statement among any others:
  whatever message may reach its handlers, and its own ones
  wait in their channels. Its flags count what it has sent in
  each loop, and the loops the goroutines `sendfinish`.

  Main declarations:
    * `Solo` and `solo`
    * `LoopInfo.speech`
    * `Said`
    * `Move` and `move_of_exec`
    * `said`
-/

------------------------------------------------------------
-- One Party among Any Others
------------------------------------------------------------

namespace Jumbo

namespace BinaryAgreement

open Protocol

/-
  A party with what it has broadcast, its own messages that
  wait in the channels of its handlers, and for every own
  CONF that it has counted the values sent and counted.
-/
structure Solo (n : Nat) where
  party : Interleaved
  sent : List (BAMsg n)
  waiting : List (BAMsg n)
  counted : List (Values × Values)

/- Any message of another party may come to its handler. -/
inductive Solo.Action (n : Nat) where
| launch (input : Bool)
| second
| foreign (m : BAMsg n)
| own (i : Nat)
| go (statement : Statement)

variable {n : Nat}

namespace Solo

/- The party has not started. -/
def init : Solo n :=
  ⟨Interleaved.new, [], [], []⟩

/- What the party keeps, without where its goroutines stand. -/
abbrev ba (s : Solo n) : BA :=
  s.party.ba

/- A step of the party; what others send may be anything. -/
def exec
    (cfg : Config) (id : Fin n) (s : Solo n) :
    Solo.Action n → Option (Solo n)
| .launch input =>
    if !s.ba.launched then
      some { s with
        party :=
          { s.party with ba := s.ba.startLoop 0 input } }
    else none
| .second =>
    some { s with
      party :=
        { s.party with
          ba := { s.ba with
            secondInput := s.ba.secondInput + 1 } } }
| .foreign m =>
    if s.ba.launched ∧ m.id ≠ id then
      (s.party.receive id m).map fun party =>
        { s with party := party }
    else none
| .own i =>
    (s.waiting[i]?).bind fun m =>
      if s.ba.launched then
        (s.party.receive id m).map fun party =>
          { s with
            party := party
            waiting := s.waiting.eraseIdx i
            counted := s.counted ++
              if m.type = .conf then
                [(m.confValue,
                  confValueAt id (s.ba.loops m.loop) m)]
              else [] }
      else none
| .go statement =>
    if s.ba.launched then
      (s.party.step cfg id statement).map
        fun (party, ms) =>
          { s with
            party := party
            sent := s.sent ++ ms
            waiting := s.waiting ++ ms }
    else none

end Solo

/- One party among others as a machine. -/
def solo (cfg : Config) (id : Fin n) :
    Machine (Solo n) (Solo.Action n) where
  init := Solo.init
  exec := Solo.exec cfg id

end BinaryAgreement

end Jumbo

------------------------------------------------------------
-- What a Loop Has Said
------------------------------------------------------------

namespace Jumbo

namespace BinaryAgreement

variable {n : Nat}

/- `sendsencondval` has broadcast. -/
def SecondVal.spoken : SecondVal → Bool
| .none | .waiting => false
| .sent | .done => true

/- How often a loop has sent VAL, AUX and CONF. -/
structure Speech where
  val : Bool → Nat
  aux : Bool → Nat
  conf : Nat

/- The same as the flags of its goroutines tell it. -/
def LoopInfo.speech (loop : Nat) (info : LoopInfo) :
    Speech where
  val b :=
    (info.valSent b).toNat +
      (decide (info.sendValNow = some b)).toNat +
      (decide (loop = 0) && b &&
        info.secondVal.spoken).toNat
  aux b := (info.auxSent b).toNat
  conf := (decide (info.sendConf = .done)).toNat

/- A value under way is not yet marked as sent. -/
structure LoopOk (info : LoopInfo) : Prop where
  now :
    ∀ b, info.sendValNow = some b → info.valSent b = false
  second :
    info.secondVal ≠ .none →
      info.valSent false = true ∨
        info.sendValNow = some false

/- The part of a loop that its senders look at. -/
structure Senders where
  valSent : Bool → Bool
  sendValNow : Option Bool
  secondVal : SecondVal
  auxSent : Bool → Bool
  sendConf : SendConf

/- What the sending goroutines of a loop keep. -/
def LoopInfo.senders (info : LoopInfo) : Senders where
  valSent := info.valSent
  sendValNow := info.sendValNow
  secondVal := info.secondVal
  auxSent := info.auxSent
  sendConf := info.sendConf

theorem speech_congr
    {info info' : LoopInfo}
    (hSenders : info'.senders = info.senders) (loop : Nat) :
    info'.speech loop = info.speech loop := by
  injection hSenders with hVal hNow hSecond hAux hConf
  unfold LoopInfo.speech
  rw [hVal, hNow, hSecond, hAux, hConf]

/- The invariant looks at the senders only. -/
theorem LoopOk.congr
    {info info' : LoopInfo} (hOk : LoopOk info)
    (hSenders : info'.senders = info.senders) :
    LoopOk info' := by
  injection hSenders with hVal hNow hSecond hAux hConf
  constructor
  · rw [hNow, hVal]
    exact hOk.now
  · rw [hSecond, hVal, hNow]
    exact hOk.second

/- Counting a VAL changes no sender. -/
theorem handleVal_senders
    (faults : Nat) (info : LoopInfo) (value : Bool) :
    (handleVal faults info value).senders =
      info.senders := by
  unfold handleVal
  dsimp only
  split
  · rfl
  · split
    · split <;> rfl
    · rfl

/- Handlers leave the senders alone. -/
theorem loopReceive_senders
    (id : Fin n) (info : LoopInfo) (m : BAMsg n) :
    (loopReceive id info m).senders = info.senders := by
  unfold loopReceive
  split
  · exact handleVal_senders _ _ _
  · rw [handleAux_eq]
    rfl
  · rcases handleConf_frame (faults n) info
      (confValueAt id info m) with ⟨_, _, _, _, hEq⟩
    rw [hEq]
    rfl
  · rfl

/- The main goroutine changes no sender. -/
theorem takeConf_senders
    {info info' : LoopInfo} {signal : Signal}
    (hTake : info.takeConf signal = some info') :
    info'.senders = info.senders := by
  cases signal <;>
    rcases Option.ite_none_right_eq_some.mp hTake with
      ⟨_, hEq⟩ <;>
    cases hEq <;>
    rfl

/- It changes no sender before the coin either. -/
theorem takeCoin_senders
    {info info' : LoopInfo} {signal : Signal}
    (hTake : info.takeCoin signal = some info') :
    info'.senders = info.senders := by
  cases signal <;>
    rcases Option.ite_none_right_eq_some.mp hTake with
      ⟨_, hEq⟩ <;>
    cases hEq <;>
    rfl

/- The senders of a new loop have sent nothing. -/
theorem LoopOk.new (input : Bool) :
    LoopOk (LoopInfo.new input) :=
  ⟨by simp [LoopInfo.new], by simp [LoopInfo.new]⟩

/- How a step of a loop adds to what the loop has said. -/
structure Says
    (loop : Nat) (info info' : LoopInfo)
    (ms : List (BAMsg n)) : Prop where
  ok : LoopOk info'
  val :
    ∀ b, (info'.speech loop).val b =
      (info.speech loop).val b + ms.countP (isVal loop b)
  aux :
    ∀ b, (info'.speech loop).aux b =
      (info.speech loop).aux b + ms.countP (isAux loop b)
  conf :
    (info'.speech loop).conf =
      (info.speech loop).conf + ms.countP (isConfMix loop)
  place : ∀ m ∈ ms, m.loop = loop ∧ m.type ≠ .finish

/- A step that leaves the senders alone says nothing. -/
theorem Says.silent
    {loop : Nat} {info info' : LoopInfo}
    (hOk : LoopOk info)
    (hSenders : info'.senders = info.senders) :
    Says (n := n) loop info info' [] := by
  have hSpeech := speech_congr hSenders loop
  exact
    { ok := hOk.congr hSenders
      val := fun b => by rw [hSpeech]; rfl
      aux := fun b => by rw [hSpeech]; rfl
      conf := by rw [hSpeech]; rfl
      place := by simp }

/- `sendval` with what becomes of `sendsencondval`. -/
theorem says_valNew
    {id : Fin n} {loop : Nat} {info : LoopInfo}
    {value : Bool} {rest : List Bool}
    (hOk : LoopOk info)
    (hNow : info.sendValNow = none)
    (hFresh : info.valSent value = false) :
    Says loop info
      { info with
        sendValSignal := rest
        sendValNow := some value
        secondVal :=
          if loop = 0 && !value then .waiting
          else info.secondVal }
      [BA.valMsg id loop value] where
  ok := by
    constructor
    · intro b hb
      cases hb
      exact hFresh
    · intro hSecond
      cases value with
      | false => exact .inr rfl
      | true =>
          left
          have hOld : info.secondVal ≠ .none := by
            simpa using hSecond
          rcases hOk.second hOld with h | h
          · exact h
          · rw [hNow] at h
            cases h
  val := by
    intro b
    -- it only starts to wait when it has not been started
    have hIdle :
        value = false → info.secondVal = .none := by
      rintro rfl
      by_contra hNot
      rcases hOk.second hNot with h | h
      · rw [hFresh] at h
        cases h
      · rw [hNow] at h
        cases h
    cases value with
    | false =>
        rw [LoopInfo.speech, LoopInfo.speech]
        simp only [hNow, hIdle rfl]
        by_cases hZero : loop = 0
        · cases b <;>
            simp [hZero, SecondVal.spoken, isVal, BA.valMsg]
        · cases b <;> simp [hZero, isVal, BA.valMsg]
    | true =>
        rw [LoopInfo.speech, LoopInfo.speech]
        simp only [hNow]
        cases b
        · simp [isVal, BA.valMsg]
        · simp [isVal, BA.valMsg]
          omega
  aux := fun b => by
    simp [LoopInfo.speech, isAux, BA.valMsg]
  conf := by simp [LoopInfo.speech, isConfMix, BA.valMsg]
  place := by simp [BA.valMsg]

/- The end of `sendval` says nothing more. -/
theorem says_valDone
    {loop : Nat} {info info' : LoopInfo} {value : Bool}
    (hOk : LoopOk info)
    (hNow : info.sendValNow = some value)
    (hSenders :
      info'.senders =
        { info.senders with
          valSent := mark info.valSent value
          sendValNow := none }) :
    Says (n := n) loop info info' [] := by
  injection hSenders with hVal hNone hSecond hAux hConf
  have hFresh := hOk.now value hNow
  exact
    { ok := by
        constructor
        · intro b hb
          rw [hNone] at hb
          cases hb
        · intro h
          rw [hSecond] at h
          left
          rw [hVal, mark_apply]
          rcases hOk.second h with h | h
          · rw [h]
            rfl
          · rw [hNow] at h
            cases h
            rw [beq_self_eq_true, Bool.or_true]
      val := by
        intro b
        rw [LoopInfo.speech, LoopInfo.speech]
        simp only [hVal, hNone, hSecond, hNow, mark_apply]
        by_cases hEq : b = value
        · subst hEq
          simp [hFresh, LoopInfo.senders]
        · have hNe : value ≠ b := fun h => hEq h.symm
          have hBeq : (b == value) = false :=
            beq_eq_false_iff_ne.mpr hEq
          simp [hBeq, hNe, LoopInfo.senders]
      aux := fun b => by
        simp [LoopInfo.speech, hAux, LoopInfo.senders]
      conf := by
        simp [LoopInfo.speech, hConf, LoopInfo.senders]
      place := by simp }

/- A step of a loop says what its senders note. -/
theorem LoopStep.speech
    {id : Fin n} {loop : Nat} {info info' : LoopInfo}
    {event : Event} {ms : List (BAMsg n)}
    (hStep : LoopStep id loop info event info' ms)
    (hOk : LoopOk info)
    (hSecond :
      ∀ value, event = .sendVal loop →
        info'.sendValNow = some value →
          info'.secondVal =
            if loop = 0 && !value then .waiting
            else info.secondVal) :
    Says loop info info' ms := by
  cases hStep with
  | valSkip | auxSkip => exact .silent hOk rfl
  | valNew value rest second _ hNow hFresh =>
      have hEq : second = _ := hSecond value rfl rfl
      subst hEq
      exact says_valNew hOk hNow hFresh
  | valDone value hNow => exact says_valDone hOk hNow rfl
  | valDoneFirst hNow => exact says_valDone hOk hNow rfl
  | second hLoop hWaits =>
      refine
        { ok := ⟨hOk.now, fun _ => hOk.second (by simp [hWaits])⟩
          val := ?_
          aux := ?_
          conf := ?_
          place := by simp [BA.valMsg] }
      · intro b
        subst hLoop
        simp only [LoopInfo.speech, hWaits, SecondVal.spoken]
        cases b <;> simp [isVal, BA.valMsg]
      · intro b
        simp [LoopInfo.speech, isAux, BA.valMsg]
      · simp [LoopInfo.speech, isConfMix, BA.valMsg]
  | secondDone hLoop hSent =>
      refine
        { ok := ⟨hOk.now, fun _ => hOk.second (by simp [hSent])⟩
          val := ?_
          aux := fun b => rfl
          conf := rfl
          place := by simp }
      intro b
      simp [LoopInfo.speech, hSent, SecondVal.spoken]
  | auxNew value rest _ hFresh =>
      refine
        { ok := ⟨hOk.now, hOk.second⟩
          val := ?_
          aux := ?_
          conf := ?_
          place := by simp [BA.auxMsg] }
      · intro b
        simp [LoopInfo.speech, isVal, BA.auxMsg]
      · intro b
        simp only [LoopInfo.speech, mark_apply]
        by_cases hEq : b = value
        · subst hEq
          simp [hFresh, isAux, BA.auxMsg]
        · have hBeq : (b == value) = false :=
            beq_eq_false_iff_ne.mpr hEq
          simp [hBeq, isAux, BA.auxMsg]
      · simp [LoopInfo.speech, isConfMix, BA.auxMsg]
  | conf hPending =>
      refine
        { ok := ⟨hOk.now, hOk.second⟩
          val := ?_
          aux := ?_
          conf := ?_
          place := by simp [BA.confMsg] }
      · intro b
        simp [LoopInfo.speech, isVal, BA.confMsg]
      · intro b
        simp [LoopInfo.speech, isAux, BA.confMsg]
      · simp [LoopInfo.speech, hPending, isConfMix,
          BA.confMsg]

/- When `sendval` starts `sendsencondval`. -/
theorem sendVal_second
    {id : Fin n} {ba ba' : BA} {loop : Nat}
    {ms : List (BAMsg n)}
    (hStep : ba.sendVal id loop = some (ba', ms))
    {value : Bool}
    (hNow : (ba'.loops loop).sendValNow = some value) :
    (ba'.loops loop).secondVal =
      if loop = 0 && !value then .waiting
      else (ba.loops loop).secondVal := by
  unfold BA.sendVal at hStep
  dsimp only at hStep
  split at hStep
  · cases hStep
  · split at hStep
    · rename_i first rest hNone hSignal
      split at hStep
      · cases hStep
        rw [BA.setLoop_self] at hNow
        dsimp only at hNow
        rw [hNone] at hNow
        cases hNow
      · cases hStep
        rw [BA.setLoop_self] at hNow ⊢
        cases hNow
        rfl
    · cases hStep

/- Counting a VAL says nothing. -/
theorem ValStep.senders
    {faults : Nat} {info info' : LoopInfo} {value : Bool}
    {stage : HandleVal}
    (hStep : ValStep faults info value info' stage) :
    info'.senders = info.senders := by
  cases hStep <;> rfl

/-
  What the flags of a loop say about the two senders whose
  iteration is told apart.
-/
structure Staged (info : LoopInfo) (stage : Stage) : Prop where
  val :
    stage.sendVal = true → info.sendValNow = some true
  second :
    stage.sendSencondVal = true → info.secondVal = .sent

/- The statements told apart say nothing. -/
theorem LoopPart.speech
    {loop : Nat} {info info' : LoopInfo}
    {stage stage' : Stage} {statement : Statement}
    (hPart : LoopPart loop info stage statement info' stage')
    (hOk : LoopOk info) (hStaged : Staged info stage) :
    Says (n := n) loop info info' [] := by
  cases hPart with
  | valFlag hLoop hStage =>
      exact says_valDone hOk (hStaged.val hStage) rfl
  | secondFlag hLoop hStage =>
      have hSent := hStaged.second hStage
      refine
        { ok := ⟨hOk.now, fun _ => hOk.second (by simp [hSent])⟩
          val := ?_
          aux := fun b => rfl
          conf := rfl
          place := by simp }
      intro b
      simp [LoopInfo.speech, hSent, SecondVal.spoken]
  | _ => exact .silent hOk rfl

theorem LoopPart.sendConf_eq
    {loop : Nat} {info info' : LoopInfo}
    {stage stage' : Stage} {statement : Statement}
    (hPart :
      LoopPart loop info stage statement info' stage') :
    info'.sendConf = info.sendConf := by
  cases hPart <;> rfl

/- In later loops they change no sender. -/
theorem LoopPart.later_senders
    {loop : Nat} {info info' : LoopInfo}
    {stage stage' : Stage} {statement : Statement}
    (hPart : LoopPart loop info stage statement info' stage')
    (hLater : loop ≠ 0) :
    info'.senders = info.senders := by
  cases hPart with
  | valFlag hLoop | secondFlag hLoop =>
      exact absurd hLoop hLater
  | _ => rfl

/- The parts keep it, and so does all else in the loop. -/
theorem LoopPart.staged
    {loop : Nat} {info info' : LoopInfo}
    {stage stage' : Stage} {statement : Statement}
    (hPart : LoopPart loop info stage statement info' stage')
    (hStaged : Staged info stage) :
    Staged info' stage' := by
  cases hPart with
  | valSignal hLoop hNow hStage =>
      exact ⟨fun _ => hNow, hStaged.second⟩
  | valFlag hLoop hStage =>
      exact
        ⟨fun h => absurd h Bool.false_ne_true, hStaged.second⟩
  | secondSignal hLoop hSecond hStage =>
      exact ⟨hStaged.val, fun _ => hSecond⟩
  | secondFlag hLoop hStage =>
      exact
        ⟨hStaged.val, fun h => absurd h Bool.false_ne_true⟩
  | _ => exact ⟨hStaged.val, hStaged.second⟩

/- The stage of a goroutine depends on the senders only. -/
theorem Staged.congr
    {info info' : LoopInfo} {stage : Stage}
    (hStaged : Staged info stage)
    (hSenders : info'.senders = info.senders) :
    Staged info' stage := by
  injection hSenders with hVal hNow hSecond hAux hConf
  constructor
  · rw [hNow]
    exact hStaged.val
  · rw [hSecond]
    exact hStaged.second

/- Whole iterations leave the stages as they are. -/
theorem LoopStep.staged
    {id : Fin n} {info info' : LoopInfo} {stage : Stage}
    {event : Event} {ms : List (BAMsg n)}
    (hStep : LoopStep id 0 info event info' ms)
    (hOk : LoopOk info) (hStaged : Staged info stage)
    (hDone :
      event = .sendValDone 0 → info.sendValNow ≠ some true)
    (hSecond : event ≠ .sendSencondValDone)
    (hNew :
      ∀ value, event = .sendVal 0 →
        info'.sendValNow = some value →
          info'.secondVal =
            if value = false then .waiting
            else info.secondVal) :
    Staged info' stage := by
  cases hStep with
  | valNew value rest second hSignal hNow hFresh =>
      constructor
      · intro h
        have hOld := hStaged.val h
        rw [hNow] at hOld
        cases hOld
      · intro h
        have hOld := hStaged.second h
        have hAfter := hNew value rfl rfl
        cases value with
        | true => exact hAfter.trans hOld
        | false =>
            -- it is started only once
            rcases hOk.second (by simp [hOld]) with hSent | hSent
            · rw [hFresh] at hSent
              cases hSent
            · rw [hNow] at hSent
              cases hSent
  | valDone value hNow hLater =>
      constructor
      · intro h
        exact absurd (hStaged.val h) (hDone rfl)
      · exact hStaged.second
  | valDoneFirst hNow hLoop => exact absurd hNow (hDone rfl)
  | second hLoop hWaits => exact ⟨hStaged.val, fun _ => rfl⟩
  | secondDone hLoop hSent => exact absurd rfl hSecond
  | valSkip | auxSkip | auxNew | conf =>
      exact ⟨hStaged.val, hStaged.second⟩

end BinaryAgreement

end Jumbo

------------------------------------------------------------
-- What a Party Has Said
------------------------------------------------------------

namespace Jumbo

namespace BinaryAgreement

open Protocol

variable {n : Nat}

/- A FINISH for any value. -/
def isFinishMix (m : BAMsg n) : Bool :=
  m.type = .finish

/-
  The flags of every loop count its messages, and every loop
  has brought one goroutine `sendfinish`.
-/
structure Said (s : Solo n) : Prop where
  silent :
    s.ba.launched = false →
      s.sent = [] ∧ s.ba.sendFinish = 0 ∧
        s.party.stage 0 = Stage.idle
  staged : Staged (s.ba.loops 0) (s.party.stage 0)
  ahead : ∀ m ∈ s.sent, m.loop ≤ s.ba.loop
  ok :
    s.ba.launched = true → ∀ l, l ≤ s.ba.loop →
      LoopOk (s.ba.loops l)
  val :
    s.ba.launched = true → ∀ l, l ≤ s.ba.loop → ∀ b,
      s.sent.countP (isVal l b) =
        ((s.ba.loops l).speech l).val b
  aux :
    s.ba.launched = true → ∀ l, l ≤ s.ba.loop → ∀ b,
      s.sent.countP (isAux l b) =
        ((s.ba.loops l).speech l).aux b
  conf :
    s.ba.launched = true → ∀ l, l ≤ s.ba.loop →
      s.sent.countP (isConfMix l) =
        ((s.ba.loops l).speech l).conf
  finish :
    s.ba.launched = true →
      s.sent.countP isFinishMix + s.ba.sendFinish =
        s.ba.loop + 1
  main :
    ∀ flags, s.ba.main = .conf flags →
      s.ba.info.sendConf = .none

/- Messages of one loop are none of another. -/
theorem countP_other_loop
    {loop l : Nat} {ms : List (BAMsg n)} (hNe : l ≠ loop)
    (hPlace : ∀ m ∈ ms, m.loop = loop)
    (P : BAMsg n → Bool)
    (hLoop : ∀ m, P m = true → m.loop = l) :
    ms.countP P = 0 := by
  rw [List.countP_eq_zero]
  intro m hm hP
  apply hNe
  rw [← hLoop m hP, hPlace m hm]

theorem isVal_loop
    {l : Nat} {b : Bool} {m : BAMsg n}
    (hVal : isVal l b m = true) : m.loop = l := by
  simp only [isVal, Bool.and_eq_true, decide_eq_true_eq]
    at hVal
  exact hVal.1.2

theorem isAux_loop
    {l : Nat} {b : Bool} {m : BAMsg n}
    (hAux : isAux l b m = true) : m.loop = l := by
  simp only [isAux, Bool.and_eq_true, decide_eq_true_eq]
    at hAux
  exact hAux.1.2

theorem isAuxMix_loop
    {l : Nat} {m : BAMsg n}
    (hAux : isAuxMix l m = true) : m.loop = l := by
  simp only [isAuxMix, Bool.and_eq_true,
    decide_eq_true_eq] at hAux
  exact hAux.2

theorem isConfMix_loop
    {l : Nat} {m : BAMsg n}
    (hConf : isConfMix l m = true) : m.loop = l := by
  simp only [isConfMix, Bool.and_eq_true,
    decide_eq_true_eq] at hConf
  exact hConf.2

section Step

variable {s s' : Solo n}

/- A step of one loop. -/
theorem Said.setLoop
    (hSaid : Said s)
    (hLaunched : s.ba.launched = true)
    {loop : Nat} (hLoop : loop ≤ s.ba.loop)
    {info : LoopInfo} {ms : List (BAMsg n)}
    (hSays : Says loop (s.ba.loops loop) info ms)
    (hLoops :
      s'.ba.loops = Function.update s.ba.loops loop info)
    (hSame : s'.ba.loop = s.ba.loop)
    (hFinish : s'.ba.sendFinish = s.ba.sendFinish)
    (hRuns : s'.ba.launched = true)
    (hSent : s'.sent = s.sent ++ ms)
    (hMain :
      ∀ flags, s'.ba.main = .conf flags →
        s'.ba.info.sendConf = .none)
    (hStaged : Staged (s'.ba.loops 0) (s'.party.stage 0)) :
    Said s' := by
  have hPlace : ∀ m ∈ ms, m.loop = loop :=
    fun m hm => (hSays.place m hm).1
  refine
    { silent := fun h => ?_
      staged := ?_
      ahead := ?_
      ok := fun _ l hl => ?_
      val := fun _ l hl b => ?_
      aux := fun _ l hl b => ?_
      conf := fun _ l hl => ?_
      finish := fun _ => ?_
      main := hMain }
  · rw [hRuns] at h
    cases h
  · exact hStaged
  · intro m hm
    rw [hSame]
    rw [hSent] at hm
    rcases List.mem_append.mp hm with h | h
    · exact hSaid.ahead m h
    · rw [hPlace m h]
      exact hLoop
  · rw [hSame] at hl
    rw [hLoops]
    by_cases hEq : l = loop
    · subst hEq
      rw [Function.update_self]
      exact hSays.ok
    · rw [Function.update_of_ne hEq]
      exact hSaid.ok hLaunched l hl
  · rw [hSame] at hl
    rw [hLoops, hSent, List.countP_append,
      hSaid.val hLaunched l hl b]
    by_cases hEq : l = loop
    · subst hEq
      rw [Function.update_self, hSays.val b]
    · rw [Function.update_of_ne hEq,
        countP_other_loop hEq hPlace _ fun m => isVal_loop]
      rfl
  · rw [hSame] at hl
    rw [hLoops, hSent, List.countP_append,
      hSaid.aux hLaunched l hl b]
    by_cases hEq : l = loop
    · subst hEq
      rw [Function.update_self, hSays.aux b]
    · rw [Function.update_of_ne hEq,
        countP_other_loop hEq hPlace _ fun m => isAux_loop]
      rfl
  · rw [hSame] at hl
    rw [hLoops, hSent, List.countP_append,
      hSaid.conf hLaunched l hl]
    by_cases hEq : l = loop
    · subst hEq
      rw [Function.update_self, hSays.conf]
    · rw [Function.update_of_ne hEq,
        countP_other_loop hEq hPlace _
          fun m => isConfMix_loop]
      rfl
  · have hNone : ms.countP isFinishMix = 0 := by
      rw [List.countP_eq_zero]
      intro m hm
      simpa [isFinishMix] using (hSays.place m hm).2
    rw [hSame, hFinish, hSent, List.countP_append, hNone]
    exact hSaid.finish hLaunched

/- The next loop starts, or the first one. -/
theorem Said.startLoop
    (hSaid : Said s) {loop : Nat} {input : Bool}
    (hBa : s'.ba = s.ba.startLoop loop input)
    (hStage : s'.party.stage = s.party.stage)
    (hSent : s'.sent = s.sent)
    (hNew :
      (s.ba.launched = true ∧ loop = s.ba.loop + 1) ∨
        s.ba.launched = false ∧ loop = 0) :
    Said s' := by
  have hAbove : ∀ m ∈ s.sent, m.loop < loop := by
    intro m hm
    rcases hNew with ⟨_, rfl⟩ | ⟨hIdle, _⟩
    · exact Nat.lt_succ_of_le (hSaid.ahead m hm)
    · rw [(hSaid.silent hIdle).1] at hm
      cases hm
  have hNone :
      ∀ P : BAMsg n → Bool,
        (∀ m, P m = true → m.loop = loop) →
          s.sent.countP P = 0 := by
    intro P hP
    rw [List.countP_eq_zero]
    intro m hm hTrue
    exact Nat.ne_of_lt (hAbove m hm) (hP m hTrue)
  have hLoops :
      s'.ba.loops =
        Function.update s.ba.loops loop
          (LoopInfo.new input) := by
    rw [hBa]
    rfl
  have hAt : s'.ba.loop = loop := by
    rw [hBa]
    rfl
  -- an earlier loop was there before
  have hOld :
      ∀ l, l ≤ loop → l ≠ loop →
        s.ba.launched = true ∧ l ≤ s.ba.loop := by
    intro l hl hNe
    rcases hNew with ⟨hRuns, rfl⟩ | ⟨_, rfl⟩
    · exact ⟨hRuns, by omega⟩
    · exact absurd (Nat.le_zero.mp hl) hNe
  refine
    { silent := fun h => ?_
      staged := ?_
      ahead := ?_
      ok := fun _ l hl => ?_
      val := fun _ l hl b => ?_
      aux := fun _ l hl b => ?_
      conf := fun _ l hl => ?_
      finish := fun _ => ?_
      main := fun flags _ => ?_ }
  · rw [hBa] at h
    cases h
  · rw [hLoops, hStage]
    rcases hNew with ⟨_, rfl⟩ | ⟨hIdle, rfl⟩
    · rw [Function.update_of_ne (Nat.succ_ne_zero _).symm]
      exact hSaid.staged
    · rw [(hSaid.silent hIdle).2.2]
      exact
        ⟨fun h => absurd h Bool.false_ne_true,
          fun h => absurd h Bool.false_ne_true⟩
  · intro m hm
    rw [hSent] at hm
    rw [hAt]
    exact Nat.le_of_lt (hAbove m hm)
  · rw [hAt] at hl
    rw [hLoops]
    by_cases hEq : l = loop
    · subst hEq
      rw [Function.update_self]
      exact LoopOk.new input
    · rcases hOld l hl hEq with ⟨hRuns, hLe⟩
      rw [Function.update_of_ne hEq]
      exact hSaid.ok hRuns l hLe
  · rw [hAt] at hl
    rw [hLoops, hSent]
    by_cases hEq : l = loop
    · subst hEq
      rw [Function.update_self, hNone _ fun m => isVal_loop]
      simp [LoopInfo.speech, LoopInfo.new, SecondVal.spoken]
    · rcases hOld l hl hEq with ⟨hRuns, hLe⟩
      rw [Function.update_of_ne hEq]
      exact hSaid.val hRuns l hLe b
  · rw [hAt] at hl
    rw [hLoops, hSent]
    by_cases hEq : l = loop
    · subst hEq
      rw [Function.update_self, hNone _ fun m => isAux_loop]
      simp [LoopInfo.speech, LoopInfo.new]
    · rcases hOld l hl hEq with ⟨hRuns, hLe⟩
      rw [Function.update_of_ne hEq]
      exact hSaid.aux hRuns l hLe b
  · rw [hAt] at hl
    rw [hLoops, hSent]
    by_cases hEq : l = loop
    · subst hEq
      rw [Function.update_self,
        hNone _ fun m => isConfMix_loop]
      simp [LoopInfo.speech, LoopInfo.new]
    · rcases hOld l hl hEq with ⟨hRuns, hLe⟩
      rw [Function.update_of_ne hEq]
      exact hSaid.conf hRuns l hLe
  · have hMore :
        s'.ba.sendFinish = s.ba.sendFinish + 1 := by
      rw [hBa]
      rfl
    rw [hAt, hSent, hMore]
    rcases hNew with ⟨hRuns, rfl⟩ | ⟨hIdle, rfl⟩
    · have hBefore := hSaid.finish hRuns
      omega
    · rw [(hSaid.silent hIdle).1, (hSaid.silent hIdle).2.1]
      rfl
  · rw [BA.info, hAt, hLoops, Function.update_self]
    rfl

/- A step that says nothing and starts no loop. -/
theorem Said.keep
    (hSaid : Said s)
    (hLoops : s'.ba.loops = s.ba.loops)
    (hLoop : s'.ba.loop = s.ba.loop)
    (hFinish : s'.ba.sendFinish = s.ba.sendFinish)
    (hRuns : s'.ba.launched = s.ba.launched)
    (hMain :
      ∀ flags, s'.ba.main = .conf flags →
        s.ba.main = .conf flags)
    (hStage : s'.party.stage = s.party.stage)
    (hSent : s'.sent = s.sent) :
    Said s' := by
  constructor
  · rw [hRuns, hSent, hFinish, hStage]
    exact hSaid.silent
  · rw [hLoops, hStage]
    exact hSaid.staged
  · rw [hSent, hLoop]
    exact hSaid.ahead
  · rw [hRuns, hLoop, hLoops]
    exact hSaid.ok
  · rw [hRuns, hLoop, hLoops, hSent]
    exact hSaid.val
  · rw [hRuns, hLoop, hLoops, hSent]
    exact hSaid.aux
  · rw [hRuns, hLoop, hLoops, hSent]
    exact hSaid.conf
  · rw [hRuns, hLoop, hSent, hFinish]
    exact hSaid.finish
  · intro flags h
    rw [BA.info, hLoops, hLoop]
    exact hSaid.main flags (hMain flags h)

/- The flags of a loop that its senders do not look at. -/
theorem Said.quiet
    (hSaid : Said s)
    (hLaunched : s.ba.launched = true)
    {loop : Nat} (hLoop : loop ≤ s.ba.loop)
    {info : LoopInfo}
    (hSenders : info.senders = (s.ba.loops loop).senders)
    (hLoops :
      s'.ba.loops = Function.update s.ba.loops loop info)
    (hSame : s'.ba.loop = s.ba.loop)
    (hFinish : s'.ba.sendFinish = s.ba.sendFinish)
    (hRuns : s'.ba.launched = true)
    (hMain :
      ∀ flags, s'.ba.main = .conf flags →
        ∃ flags', s.ba.main = .conf flags')
    (hStaged : Staged (s'.ba.loops 0) (s'.party.stage 0))
    (hSent : s'.sent = s.sent) :
    Said s' := by
  have hSays : Says (n := n) loop (s.ba.loops loop) info [] :=
    .silent (hSaid.ok hLaunched loop hLoop) hSenders
  refine hSaid.setLoop hLaunched hLoop hSays hLoops hSame
    hFinish hRuns (by rw [hSent, List.append_nil]) ?_ hStaged
  intro flags h
  rcases hMain flags h with ⟨flags', h'⟩
  have hBefore := hSaid.main flags' h'
  rw [BA.info, hSame, hLoops]
  by_cases hEq : s.ba.loop = loop
  · rw [hEq, Function.update_self]
    have hConf := congrArg Senders.sendConf hSenders
    rw [← hEq] at hConf
    exact hConf.trans hBefore
  · rw [Function.update_of_ne hEq]
    exact hBefore

theorem handleFinish_sendFinish
    (faults : Nat) (ba : BA) (value : Bool) :
    (handleFinish faults ba value).sendFinish =
      ba.sendFinish := by
  unfold handleFinish
  dsimp only
  split
  · rfl
  · split <;> rfl

/- Reading a message says nothing. -/
theorem Said.receive
    (hSaid : Said s)
    (hLaunched : s.ba.launched = true)
    {id : Fin n} {m : BAMsg n}
    (hReceive : Received id s.party m s'.party)
    (hSent : s'.sent = s.sent) :
    Said s' := by
  rcases s' with ⟨party, sent, waiting, counted⟩
  dsimp only at hReceive hSent
  cases hReceive with
  | val info stage hType hLoop hIdle hVal =>
      refine hSaid.quiet hLaunched hLoop hVal.senders rfl rfl
        rfl hLaunched (fun flags h => ⟨flags, h⟩) ?_ hSent
      by_cases hZero : m.loop = 0
      · rw [hZero] at hVal
        have hStaged := hSaid.staged.congr hVal.senders
        simpa [Interleaved.setLoop, BA.setLoop, hZero]
          using (⟨hStaged.val, hStaged.second⟩ :
            Staged info
              { s.party.stage 0 with handleVal := stage })
      · simpa [Interleaved.setLoop, BA.setLoop,
          Function.update_of_ne (Ne.symm hZero)]
          using hSaid.staged
  | other ba hType hRun =>
      have hRuns := receive_launched hRun
      rcases receive_cases hRun with
        ⟨_, hLoop, rfl⟩ | ⟨_, _, rfl⟩
      · have hSenders :=
          loopReceive_senders id (s.ba.loops m.loop) m
        refine hSaid.quiet hLaunched hLoop hSenders rfl rfl
          rfl (hRuns.trans hLaunched)
          (fun flags h => ⟨flags, h⟩) ?_ hSent
        by_cases hZero : m.loop = 0
        · rw [hZero] at hSenders
          simpa [BA.setLoop, hZero]
            using hSaid.staged.congr hSenders
        · simpa [BA.setLoop,
            Function.update_of_ne (Ne.symm hZero)]
            using hSaid.staged
      · refine hSaid.keep (handleFinish_loops _ _ _)
          (handleFinish_loop _ _ _)
          (handleFinish_sendFinish _ _ _) hRuns ?_ rfl hSent
        intro flags h
        dsimp only [Solo.ba] at h
        rw [handleFinish_main] at h
        exact h

/- A goroutine `sendfinish` that sends was waiting. -/
theorem sendFinish_pos
    {id : Fin n} {ba ba' : BA} {ms : List (BAMsg n)}
    (hStep : ba.sendFinishStep id = some (ba', ms)) :
    0 < ba.sendFinish := by
  unfold BA.sendFinishStep at hStep
  split at hStep
  · split at hStep
    · assumption
    · cases hStep
  · cases hStep

/- The broadcast of `sendfinish` is one FINISH. -/
theorem countP_finishMsg
    (id : Fin n) (value : Bool) :
    [BA.finishMsg id value].countP isFinishMix = 1 := by
  simp [isFinishMix, BA.finishMsg]

/- A waiting `sendfinish` says what it is asked to. -/
theorem Said.sendFinish
    (hSaid : Said s)
    (hLaunched : s.ba.launched = true)
    {id : Fin n} {value : Bool}
    (hPos : 0 < s.ba.sendFinish)
    (hLoops : s'.ba.loops = s.ba.loops)
    (hLoop : s'.ba.loop = s.ba.loop)
    (hMain : s'.ba.main = s.ba.main)
    (hFinish : s'.ba.sendFinish = s.ba.sendFinish - 1)
    (hStage : s'.party.stage = s.party.stage)
    (hSent : s'.sent = s.sent ++ [BA.finishMsg id value]) :
    Said s' := by
  have hRuns : s'.ba.launched = s.ba.launched := by
    rw [BA.launched, hMain]
    rfl
  have hVal :
      ∀ l b, [BA.finishMsg id value].countP (isVal l b) =
        0 := by
    simp [isVal, BA.finishMsg]
  have hAux :
      ∀ l b, [BA.finishMsg id value].countP (isAux l b) =
        0 := by
    simp [isAux, BA.finishMsg]
  have hConf :
      ∀ l, [BA.finishMsg id value].countP (isConfMix l) =
        0 := by
    simp [isConfMix, BA.finishMsg]
  constructor
  · intro h
    rw [hRuns, hLaunched] at h
    cases h
  · rw [hLoops, hStage]
    exact hSaid.staged
  · intro m hm
    rw [hLoop]
    rw [hSent] at hm
    rcases List.mem_append.mp hm with h | h
    · exact hSaid.ahead m h
    · rw [List.mem_singleton.mp h]
      exact Nat.zero_le _
  · rw [hRuns, hLoop, hLoops]
    exact hSaid.ok
  · intro _ l hl b
    rw [hLoop] at hl
    rw [hSent, List.countP_append, hVal, hLoops]
    exact hSaid.val hLaunched l hl b
  · intro _ l hl b
    rw [hLoop] at hl
    rw [hSent, List.countP_append, hAux, hLoops]
    exact hSaid.aux hLaunched l hl b
  · intro _ l hl
    rw [hLoop] at hl
    rw [hSent, List.countP_append, hConf, hLoops]
    exact hSaid.conf hLaunched l hl
  · intro _
    have hBefore := hSaid.finish hLaunched
    rw [hSent, List.countP_append, countP_finishMsg,
      hFinish, hLoop]
    omega
  · intro flags h
    rw [hMain] at h
    rw [BA.info, hLoops, hLoop]
    exact hSaid.main flags h

/- What is known of a loop that a step has not touched. -/
theorem Said.staged_setLoop
    (hSaid : Said s) {loop : Nat} {info : LoopInfo}
    (hZero :
      loop = 0 → Staged info (s.party.stage 0)) :
    Staged ((s.ba.setLoop loop info).loops 0)
      (s.party.stage 0) := by
  by_cases hEq : 0 = loop
  · subst hEq
    rw [BA.setLoop_self]
    exact hZero rfl
  · rw [BA.setLoop_of_ne _ _ hEq]
    exact hSaid.staged

/- The end of a loop. -/
theorem Said.elect
    (hSaid : Said s)
    (hLaunched : s.ba.launched = true) {cfg : Config}
    (hBa : s'.ba = s.ba.elect cfg)
    (hStage : s'.party.stage = s.party.stage)
    (hSent : s'.sent = s.sent) :
    Said s' := by
  rcases elect_cases cfg s.ba with
    ⟨value, hEq⟩ | ⟨input, hEq⟩
  · rw [hEq] at hBa
    apply hSaid.keep _ _ _ _ _ hStage hSent
    · rw [hBa]
    · rw [hBa]
    · rw [hBa]
    · rw [hBa, hLaunched]
      rfl
    · intro flags h
      rw [hBa] at h
      cases h
  · exact hSaid.startLoop (hBa.trans hEq) hStage hSent
      (.inl ⟨hLaunched, rfl⟩)

/- The main goroutine takes a signal of the loop it is in. -/
theorem Said.staged_of_take
    (hSaid : Said s) {info : LoopInfo}
    (hSenders : info.senders = s.ba.info.senders) :
    s.ba.loop = 0 → Staged info (s.party.stage 0) := by
  intro hZero
  rw [BA.info, hZero] at hSenders
  exact hSaid.staged.congr hSenders

/- Every iteration notes what it says. -/
theorem Said.whole
    (hSaid : Said s)
    (hLaunched : s.ba.launched = true)
    {cfg : Config} {id : Fin n} {event : Event}
    {ms : List (BAMsg n)}
    (hWhole : Interleaved.splits s.ba event = false)
    (hStep : s.ba.step cfg id event = some (s'.ba, ms))
    (hStage : s'.party.stage = s.party.stage)
    (hSent : s'.sent = s.sent ++ ms) :
    Said s' := by
  have hParty := partyStep_of_step hStep
  have hRuns := hParty.launched hLaunched
  rcases s' with ⟨⟨ba', stage'⟩, sent', waiting', counted'⟩
  dsimp only at hStep hStage hSent hParty hRuns
  subst hStage
  cases hParty with
  | loop loop event info ms second hLoop hLoopStep =>
      have hOk := hSaid.ok hLaunched loop hLoop
      have hSecond :
          ∀ value, event = .sendVal loop →
            info.sendValNow = some value →
              info.secondVal =
                if loop = 0 && !value then .waiting
                else (s.ba.loops loop).secondVal := by
        rintro value rfl hNow
        rcases Option.ite_none_right_eq_some.mp hStep with
          ⟨_, hRun⟩
        have hNow' :
            ((s.ba.setLoop loop info).loops
              loop).sendValNow = some value := by
          rw [BA.setLoop_self]
          exact hNow
        have hInfo :=
          sendVal_second hRun hNow'
        change ((s.ba.setLoop loop info).loops
          loop).secondVal = _ at hInfo
        rw [BA.setLoop_self] at hInfo
        exact hInfo
      refine hSaid.setLoop hLaunched hLoop
        (hLoopStep.speech hOk hSecond) rfl rfl rfl hRuns hSent
        ?_ (hSaid.staged_setLoop ?_)
      · intro flags h
        have hBefore := hSaid.main flags h
        unfold BA.info at hBefore ⊢
        change ((s.ba.setLoop loop info).loops
          s.ba.loop).sendConf = _
        by_cases hEq : s.ba.loop = loop
        · rw [hEq] at hBefore ⊢
          rw [BA.setLoop_self]
          exact hLoopStep.sendConf_none hBefore
        · rw [BA.setLoop_of_ne _ _ hEq]
          exact hBefore
      · rintro rfl
        refine hLoopStep.staged hOk hSaid.staged ?_ ?_ ?_
        · rintro rfl hNow
          simp [Interleaved.splits, hNow] at hWhole
        · rintro rfl
          cases hWhole
        · intro value hEvent hNow
          have hInfo := hSecond value hEvent hNow
          cases value <;> exact hInfo
  | finish value rest hSignal =>
      exact hSaid.sendFinish hLaunched
        (sendFinish_pos hStep) rfl rfl rfl rfl rfl hSent
  | elect hMain =>
      exact hSaid.elect hLaunched rfl rfl
        (by rw [hSent, List.append_nil])
  | mainConf flags signal info hMain hTake =>
      exact hSaid.quiet hLaunched (Nat.le_refl _)
        (takeConf_senders hTake) rfl rfl rfl hRuns
        (fun _ _ => ⟨flags, hMain⟩)
        (hSaid.staged_setLoop
          (hSaid.staged_of_take (takeConf_senders hTake)))
        (by rw [hSent, List.append_nil])
  | mainConfReady flags signal info hMain hTake =>
      have hOk := hSaid.ok hLaunched _ (Nat.le_refl _)
      have hNone := hSaid.main flags hMain
      have hSenders := takeConf_senders hTake
      have hSays :
          Says (n := n) s.ba.loop (s.ba.loops s.ba.loop)
            { info with sendConf := .pending } [] := by
        have hSpeech := speech_congr hSenders s.ba.loop
        have hOk' := hOk.congr hSenders
        have hConf := congrArg Senders.sendConf hSenders
        exact
          { ok := ⟨hOk'.now, hOk'.second⟩
            val := fun b =>
              congrFun (congrArg Speech.val hSpeech) b
            aux := fun b =>
              congrFun (congrArg Speech.aux hSpeech) b
            conf := by
              unfold BA.info at hNone
              simp [LoopInfo.speech, hNone]
            place := by simp }
      exact hSaid.setLoop hLaunched (Nat.le_refl _) hSays
        rfl rfl rfl hRuns hSent (by intro _ h; cases h)
        (hSaid.staged_setLoop fun hZero =>
          have hStaged := hSaid.staged_of_take hSenders hZero
          ⟨hStaged.val, hStaged.second⟩)
  | mainCoin flags signal info hMain hTake =>
      exact hSaid.quiet hLaunched (Nat.le_refl _)
        (takeCoin_senders hTake) rfl rfl rfl hRuns
        (by intro _ h; cases h)
        (hSaid.staged_setLoop
          (hSaid.staged_of_take (takeCoin_senders hTake)))
        (by rw [hSent, List.append_nil])
  | mainCoinReady flags signal info hMain hTake =>
      exact hSaid.quiet hLaunched (Nat.le_refl _)
        (takeCoin_senders hTake) rfl rfl rfl hRuns
        (by intro _ h; cases h)
        (hSaid.staged_setLoop
          (hSaid.staged_of_take (takeCoin_senders hTake)))
        (by rw [hSent, List.append_nil])

/- Every statement notes what it says. -/
theorem Said.part
    (hSaid : Said s)
    (hLaunched : s.ba.launched = true)
    {loop : Nat} {info : LoopInfo} {stage : Stage}
    {statement : Statement}
    (hLoop : loop ≤ s.ba.loop)
    (hPart :
      LoopPart loop (s.ba.loops loop) (s.party.stage loop)
        statement info stage)
    (hParty : s'.party = s.party.setLoop loop info stage)
    (hSent : s'.sent = s.sent) :
    Said s' := by
  rcases s' with ⟨party', sent', waiting', counted'⟩
  dsimp only at hParty hSent
  subst hParty
  have hOk := hSaid.ok hLaunched loop hLoop
  by_cases hZero : loop = 0
  · subst hZero
    refine hSaid.setLoop hLaunched hLoop
      (hPart.speech hOk hSaid.staged) rfl rfl rfl hLaunched
      (by rw [hSent, List.append_nil]) ?_ ?_
    · intro flags h
      have hBefore := hSaid.main flags h
      unfold BA.info at hBefore ⊢
      change ((s.ba.setLoop 0 info).loops
        s.ba.loop).sendConf = _
      by_cases hEq : s.ba.loop = 0
      · rw [hEq] at hBefore ⊢
        rw [BA.setLoop_self, hPart.sendConf_eq]
        exact hBefore
      · rw [BA.setLoop_of_ne _ _ hEq]
        exact hBefore
    · simpa [Interleaved.setLoop, BA.setLoop]
        using hPart.staged hSaid.staged
  · -- only `handle_val` is told apart in later loops
    refine hSaid.quiet hLaunched hLoop
      (hPart.later_senders hZero) rfl rfl rfl hLaunched
      (fun flags h => ⟨flags, h⟩) ?_ hSent
    simpa [Interleaved.setLoop, BA.setLoop,
      Function.update_of_ne (Ne.symm hZero)]
      using hSaid.staged

/- A statement of a goroutine. -/
theorem Said.statement
    (hSaid : Said s)
    (hLaunched : s.ba.launched = true)
    {cfg : Config} {id : Fin n} {statement : Statement}
    {ms : List (BAMsg n)}
    (hStep :
      StatementStep cfg id s.party statement s'.party ms)
    (hSent : s'.sent = s.sent ++ ms) :
    Said s' := by
  rcases s' with ⟨party', sent', waiting', counted'⟩
  dsimp only at hStep hSent
  cases hStep with
  | whole event ba ms hWhole hRun =>
      exact hSaid.whole hLaunched hWhole hRun rfl hSent
  | part statement loop info stage hLoop hPart =>
      rw [List.append_nil] at hSent
      exact hSaid.part hLaunched hLoop hPart rfl hSent

end Step

/- What an action of the party does, case by case. -/
inductive Move
    (cfg : Config) (id : Fin n) (s : Solo n) :
    Solo.Action n → Solo n → Prop
| launch
    (input : Bool) (hIdle : s.ba.launched = false) :
    Move cfg id s (.launch input)
      { s with
        party :=
          { s.party with ba := s.ba.startLoop 0 input } }
| second :
    Move cfg id s .second
      { s with
        party :=
          { s.party with
            ba := { s.ba with
              secondInput := s.ba.secondInput + 1 } } }
| foreign
    (m : BAMsg n) (party : Interleaved)
    (hLaunched : s.ba.launched = true)
    (hReceived : Received id s.party m party) :
    Move cfg id s (.foreign m) { s with party := party }
| own
    (i : Nat) (m : BAMsg n) (party : Interleaved)
    (hLaunched : s.ba.launched = true)
    (hMsg : s.waiting[i]? = some m)
    (hReceived : Received id s.party m party) :
    Move cfg id s (.own i)
      { s with
        party := party
        waiting := s.waiting.eraseIdx i
        counted := s.counted ++
          if m.type = .conf then
            [(m.confValue,
              confValueAt id (s.ba.loops m.loop) m)]
          else [] }
| go
    (statement : Statement) (party : Interleaved)
    (ms : List (BAMsg n))
    (hLaunched : s.ba.launched = true)
    (hStep : StatementStep cfg id s.party statement party ms) :
    Move cfg id s (.go statement)
      { s with
        party := party
        sent := s.sent ++ ms
        waiting := s.waiting ++ ms }

/- Every action makes one of the moves. -/
theorem move_of_exec
    {cfg : Config} {id : Fin n} {s s' : Solo n}
    {a : Solo.Action n}
    (hExec : Solo.exec cfg id s a = some s') :
    Move cfg id s a s' := by
  cases a with
  | launch input =>
      rcases Option.ite_none_right_eq_some.mp hExec with
        ⟨hIdle, hEq⟩
      cases hEq
      exact .launch input (by simpa using hIdle)
  | second =>
      cases hExec
      exact .second
  | foreign m =>
      rcases Option.ite_none_right_eq_some.mp hExec with
        ⟨hGuard, hRun⟩
      rcases Option.map_eq_some_iff.mp hRun with
        ⟨party, hReceive, rfl⟩
      exact .foreign m party hGuard.1
        (received_of_receive hReceive)
  | own i =>
      rcases Option.bind_eq_some_iff.mp hExec with
        ⟨m, hMsg, hRun⟩
      rcases Option.ite_none_right_eq_some.mp hRun with
        ⟨hLaunched, hRest⟩
      rcases Option.map_eq_some_iff.mp hRest with
        ⟨party, hReceive, rfl⟩
      exact .own i m party hLaunched hMsg
        (received_of_receive hReceive)
  | go statement =>
      rcases Option.ite_none_right_eq_some.mp hExec with
        ⟨hLaunched, hRun⟩
      rcases Option.map_eq_some_iff.mp hRun with
        ⟨⟨party, ms⟩, hStep, rfl⟩
      exact .go statement party ms hLaunched
        (statementStep_of_step hStep)

/- Every move notes what it says. -/
theorem Said.move
    {cfg : Config} {id : Fin n} {s s' : Solo n}
    {a : Solo.Action n}
    (hSaid : Said s) (hMove : Move cfg id s a s') :
    Said s' := by
  cases hMove with
  | launch input hIdle =>
      exact hSaid.startLoop rfl rfl rfl (.inr ⟨hIdle, rfl⟩)
  | second =>
      exact hSaid.keep rfl rfl rfl rfl (fun _ h => h) rfl rfl
  | foreign m party hLaunched hReceived =>
      exact hSaid.receive hLaunched hReceived rfl
  | own i m party hLaunched hMsg hReceived =>
      exact hSaid.receive hLaunched hReceived rfl
  | go statement party ms hLaunched hStep =>
      exact hSaid.statement hLaunched hStep rfl

/- In every run the party has said what it notes. -/
theorem said
    {cfg : Config} {id : Fin n} {s : Solo n}
    {ok : Solo n → Solo.Action n → Prop}
    (hReach : (solo cfg id).ReachableBy ok s) :
    Said s := by
  refine Machine.ReachableBy.invariant Said ?_ ?_ hReach
  · constructor <;>
      simp [solo, Solo.init, Interleaved.new, BA.new,
        BA.launched, LoopInfo.new]
    exact
      ⟨fun h => absurd h Bool.false_ne_true,
        fun h => absurd h Bool.false_ne_true⟩
  · intro s a s' _ hSaid _ hExec
    exact hSaid.move (move_of_exec hExec)

end BinaryAgreement

end Jumbo
