import Jumbo.BinaryAgreement.FirstConf

/-
  The bias of the first loop towards true.

  With `f + 1` inputs true no party counts a quorum of CONF
  messages for false alone in the first loop. The main
  goroutine then leaves that loop on a signal for true; where
  the flag of true is written by then, it decides true or
  goes on with true, and false is not heard of again.

  Main declarations:
    * `PartyBiased`
    * `Biased`
    * `biasedValidity`
    * `biasedValidity_unflagged`
    * `biasedValidity_unwritten`
-/

------------------------------------------------------------
-- The Flag of True
------------------------------------------------------------

namespace Jumbo

namespace BinaryAgreement

open Protocol

variable {n : Nat}

/- `handle_val` is at work on a quorum for `b`. -/
def HandleVal.isFor (b : Bool) : HandleVal → Bool
| .idle => false
| .ready value => value == b
| .readyConf value => value == b
| .flagged value => value == b

/- The flag of true is written, or `handle_val` is about to. -/
def TrueFlagged (info : LoopInfo) (stage : Stage) : Prop :=
  info.values.one = true ∨ stage.handleVal = .readyConf true

/- A loop after the first knows nothing of false. -/
structure OnlyTrue (info : LoopInfo) (stage : Stage) :
    Prop where
  signal : false ∉ info.sendValSignal
  count : info.vCount false = 0
  ready : info.valueReadyConf false = 0
  stage : stage.handleVal.isFor false = false
  zero : info.values.zero = false

/- What every loop of a party keeps to under the condition. -/
structure LoopBiased
    (loop : Nat) (info : LoopInfo) (stage : Stage) : Prop where
  ready :
    0 < info.valueReadyConf true → TrueFlagged info stage
  first : loop = 0 → info.confReady false = 0
  later : loop ≠ 0 → OnlyTrue info stage

/- What the main goroutine has seen of its loop. -/
def MainBiased
    (loop : Nat) (info : LoopInfo) (stage : Stage) :
    Main → Prop
| .coin flags =>
    (flags.value true = true → TrueFlagged info stage) ∧
      (loop = 0 → flags.quorum false = false) ∧
        (loop ≠ 0 → flags.value false = false)
| .elect => TrueFlagged info stage
| .decided value => value = true
| _ => True

/-
  The loops of a party lean to true, and no goroutine of a
  later loop is inside a statement.
-/
structure PartyBiased (party : Interleaved) : Prop where
  fresh :
    ∀ l, (party.ba.launched = true → party.ba.loop < l) →
      party.stage l = Stage.idle
  loops :
    party.ba.launched = true → ∀ l, l ≤ party.ba.loop →
      LoopBiased l (party.ba.loops l) (party.stage l)
  main :
    MainBiased party.ba.loop party.ba.info
      (party.stage party.ba.loop) party.ba.main
  finishCount : party.ba.finishCount false = 0
  signal : false ∉ party.ba.sendFinishSignal
  output : party.ba.output ≠ some false

/- Nobody speaks for false after the first loop. -/
structure MsgBiased (m : BAMsg n) : Prop where
  val : m.type = .val → m.loop ≠ 0 → m.value = true
  finish : m.type = .finish → m.value = true

end BinaryAgreement

end Jumbo

------------------------------------------------------------
-- One Loop
------------------------------------------------------------

namespace Jumbo

namespace BinaryAgreement

variable {n : Nat}

/-
  A new loop leans to true if it is the first or is entered
  with true.
-/
theorem LoopBiased.new (loop : Nat) {input : Bool}
    (hInput : loop ≠ 0 → input = true) :
    LoopBiased loop (LoopInfo.new input) Stage.idle where
  ready := fun hPos => absurd hPos (Nat.lt_irrefl 0)
  first := fun _ => rfl
  later := fun hLater =>
    { signal := by simp [LoopInfo.new, hInput hLater]
      count := rfl
      ready := rfl
      stage := rfl
      zero := rfl }

/- A loop that keeps the flags and what they are set from. -/
theorem LoopBiased.keep
    {loop : Nat} {info info' : LoopInfo} {stage : Stage}
    (hBiased : LoopBiased loop info stage)
    (hOne :
      info.values.one = true → info'.values.one = true)
    (hZero : info'.values.zero = info.values.zero)
    (hReady :
      ∀ b, info'.valueReadyConf b ≤ info.valueReadyConf b)
    (hConf :
      loop = 0 → info'.confReady false ≤ info.confReady false)
    (hCount : info'.vCount = info.vCount)
    (hSignal :
      false ∈ info'.sendValSignal →
        false ∈ info.sendValSignal) :
    LoopBiased loop info' stage where
  ready := fun hPos =>
    have hBefore := Nat.lt_of_lt_of_le hPos (hReady true)
    (hBiased.ready hBefore).imp_left hOne
  first := fun hFirst =>
    Nat.le_zero.mp
      ((hConf hFirst).trans_eq (hBiased.first hFirst))
  later := fun hLater =>
    have hOnly := hBiased.later hLater
    { signal := fun h => hOnly.signal (hSignal h)
      count := by rw [hCount]; exact hOnly.count
      ready :=
        Nat.le_zero.mp ((hReady false).trans_eq hOnly.ready)
      stage := hOnly.stage
      zero := hZero.trans hOnly.zero }

/- While `handle_val` has nothing to write the flag is there. -/
theorem TrueFlagged.of_other
    {info info' : LoopInfo} {stage stage' : Stage}
    (hFlag : TrueFlagged info stage)
    (hStage : stage.handleVal ≠ .readyConf true)
    (hOne :
      info.values.one = true → info'.values.one = true) :
    TrueFlagged info' stage' :=
  .inl (hOne (hFlag.resolve_right hStage))

/- `handle_val` counts a message. -/
theorem LoopBiased.val
    {loop : Nat} {info info' : LoopInfo} {stage : Stage}
    {next : HandleVal} {faults : Nat} {value : Bool}
    (hBiased : LoopBiased loop info stage)
    (hIdle : stage.handleVal = .idle)
    (hVal : ValStep faults info value info' next)
    (hTrue : loop ≠ 0 → value = true) :
    LoopBiased loop info' { stage with handleVal := next } := by
  have hOther : stage.handleVal ≠ .readyConf true := by
    rw [hIdle]
    exact (nomatch ·)
  have hCount :
      loop ≠ 0 → bump info.vCount value false = 0 := by
    intro hLater
    rw [hTrue hLater, bump_apply]
    exact (hBiased.later hLater).count
  cases hVal with
  | amplify hFew =>
      exact
        { ready := fun hPos =>
            (hBiased.ready hPos).of_other hOther fun h => h
          first := hBiased.first
          later := fun hLater =>
            { hBiased.later hLater with
              signal := by
                have hOld := (hBiased.later hLater).signal
                simp [hTrue hLater, hOld]
              count := hCount hLater
              stage := rfl } }
  | quorum hMany hNot =>
      exact
        { ready := fun hPos =>
            (hBiased.ready hPos).of_other hOther fun h => h
          first := hBiased.first
          later := fun hLater =>
            { hBiased.later hLater with
              count := hCount hLater
              stage := by
                rw [hTrue hLater]
                rfl } }
  | other hNot =>
      exact
        { ready := fun hPos =>
            (hBiased.ready hPos).of_other hOther fun h => h
          first := hBiased.first
          later := fun hLater =>
            { hBiased.later hLater with
              count := hCount hLater
              stage := rfl } }

/- The next statement of `handle_val` in a later loop. -/
theorem OnlyTrue.value
    {info : LoopInfo} {stage : Stage} {value : Bool}
    (hOnly : OnlyTrue info stage)
    (hStage : stage.handleVal.isFor value = true) :
    value = true := by
  cases value with
  | true => rfl
  | false =>
      rw [hOnly.stage] at hStage
      cases hStage

/- Flags of true that are written stay written. -/
theorem LoopPart.trueFlagged
    {loop : Nat} {info info' : LoopInfo}
    {stage stage' : Stage} {statement : Statement}
    (hPart :
      LoopPart loop info stage statement info' stage')
    (hFlag : TrueFlagged info stage) :
    TrueFlagged info' stage' := by
  cases hPart with
  | readyConf value hStage =>
      exact hFlag.of_other (by rw [hStage]; exact (nomatch ·))
        fun h => h
  | flag value hStage =>
      left
      rcases hFlag with hOne | hReady
      · cases value
        · exact hOne
        · rfl
      · rw [hStage] at hReady
        cases hReady
        rfl
  | aux value hStage hFresh =>
      exact hFlag.of_other (by rw [hStage]; exact (nomatch ·))
        fun h => h
  | auxOld value hStage hSent =>
      exact hFlag.of_other (by rw [hStage]; exact (nomatch ·))
        fun h => h
  | valSignal | secondSignal => exact hFlag
  | valFlag | secondFlag => exact .inl rfl

/-
  The statements of `handle_val` and `sendval` keep the loop
  leaning to true.
-/
theorem LoopBiased.part
    {loop : Nat} {info info' : LoopInfo}
    {stage stage' : Stage} {statement : Statement}
    (hBiased : LoopBiased loop info stage)
    (hPart :
      LoopPart loop info stage statement info' stage') :
    LoopBiased loop info' stage' where
  ready := by
    intro hPos
    by_cases hBefore : 0 < info.valueReadyConf true
    · exact hPart.trueFlagged (hBiased.ready hBefore)
    · cases hPart with
      | readyConf value hStage =>
          right
          cases value with
          | true => rfl
          | false => exact absurd hPos hBefore
      | _ => exact absurd hPos hBefore
  first := by
    cases hPart <;> exact hBiased.first
  later := by
    intro hLater
    have hOnly := hBiased.later hLater
    cases hPart with
    | readyConf value hStage =>
        have hTrue : value = true :=
          hOnly.value (by rw [hStage]; exact beq_self_eq_true _)
        subst hTrue
        exact { hOnly with stage := rfl }
    | flag value hStage =>
        have hTrue : value = true :=
          hOnly.value (by rw [hStage]; exact beq_self_eq_true _)
        subst hTrue
        exact { hOnly with stage := rfl }
    | aux | auxOld => exact { hOnly with stage := rfl }
    | valSignal hZero | valFlag hZero
    | secondSignal hZero | secondFlag hZero =>
        exact absurd hZero hLater

/- A goroutine that runs an iteration as a whole. -/
theorem LoopBiased.loopStep
    {id : Fin n} {loop : Nat} {info info' : LoopInfo}
    {stage : Stage} {event : Event} {ms : List (BAMsg n)}
    (hBiased : LoopBiased loop info stage)
    (hStep : LoopStep id loop info event info' ms) :
    LoopBiased loop info' stage := by
  have hOne := hStep.values_le true
  cases hStep with
  | valSkip value rest hSignal | valNew value rest _ hSignal =>
      refine hBiased.keep hOne rfl (fun _ => Nat.le_refl _)
        (fun _ => Nat.le_refl _) rfl fun hMem => ?_
      rw [hSignal]
      exact List.mem_cons_of_mem _ hMem
  | _ =>
      exact hBiased.keep hOne rfl (fun _ => Nat.le_refl _)
        (fun _ => Nat.le_refl _) rfl fun h => h

/- So does a signal taken before CONF. -/
theorem LoopBiased.takeConf
    {loop : Nat} {info info' : LoopInfo} {stage : Stage}
    {signal : Signal} (hBiased : LoopBiased loop info stage)
    (hTake : info.takeConf signal = some info') :
    LoopBiased loop info' stage := by
  cases signal <;>
    rcases Option.ite_none_right_eq_some.mp hTake with
      ⟨_, hEq⟩ <;>
    cases hEq <;>
    exact hBiased.keep (fun h => h) rfl
      (fun _ => Nat.le_refl _) (fun _ => Nat.le_refl _) rfl
      fun h => h

/- So does a signal taken before the coin. -/
theorem LoopBiased.takeCoin
    {loop : Nat} {info info' : LoopInfo} {stage : Stage}
    {signal : Signal} (hBiased : LoopBiased loop info stage)
    (hTake : info.takeCoin signal = some info') :
    LoopBiased loop info' stage := by
  cases signal <;>
    rcases Option.ite_none_right_eq_some.mp hTake with
      ⟨_, hEq⟩ <;>
    cases hEq <;>
    exact hBiased.keep (fun h => h) rfl
      (fun _ => by simp) (fun _ => by simp) rfl
      fun h => h

/-
  AUX and CONF messages: in the first loop no quorum of CONF
  messages for false alone may come up.
-/
theorem LoopBiased.receive
    {id : Fin n} {loop : Nat} {info : LoopInfo}
    {stage : Stage} {m : BAMsg n}
    (hBiased : LoopBiased loop info stage)
    (hType : m.type ≠ .val)
    (hFew :
      loop = 0 →
        (loopReceive id info m).confCount false ≤
          faults n * 2) :
    LoopBiased loop (loopReceive id info m) stage := by
  unfold loopReceive at hFew ⊢
  split at hFew
  · rename_i hVal
    exact absurd hVal hType
  · rw [handleAux_eq]
    exact hBiased.keep (fun h => h) rfl
      (fun _ => Nat.le_refl _) (fun _ => Nat.le_refl _) rfl
      fun h => h
  · rcases handleConf_cases (faults n) info
      (confValueAt id info m) with
      ⟨_, hEq⟩ | ⟨_, hEq⟩ | ⟨b, _, hEq⟩
    · rw [hEq]
      exact hBiased
    · rw [hEq, countConfMix_eq]
      exact hBiased.keep (fun h => h) rfl
        (fun _ => Nat.le_refl _) (fun _ => Nat.le_refl _) rfl
        fun h => h
    · rw [hEq, countConf_eq] at hFew ⊢
      refine hBiased.keep (fun h => h) rfl
        (fun _ => Nat.le_refl _) (fun hFirst => ?_) rfl
        fun h => h
      have hCount := hFew hFirst
      cases b with
      | false =>
          simp only [bump_apply, if_true] at hCount
          rw [if_neg (by omega)]
      | true => split <;> simp
  · exact hBiased

/- Flags of true are not taken back. -/
theorem MainBiased.mono
    {loop : Nat} {info info' : LoopInfo}
    {stage stage' : Stage} {main : Main}
    (hMain : MainBiased loop info stage main)
    (hFlag :
      TrueFlagged info stage → TrueFlagged info' stage') :
    MainBiased loop info' stage' main := by
  cases main with
  | coin flags => exact ⟨fun h => hFlag (hMain.1 h), hMain.2⟩
  | elect => exact hFlag hMain
  | decided value => exact hMain
  | idle | conf => trivial

/- The main goroutine takes a signal before the coin. -/
theorem MainBiased.select
    {loop : Nat} {info info' : LoopInfo} {stage : Stage}
    {flags : Flags} {signal : Signal}
    (hMain : MainBiased loop info stage (.coin flags))
    (hBiased : LoopBiased loop info stage)
    (hTake : info.takeCoin signal = some info') :
    MainBiased loop info' stage
      (.coin (flags.select signal).1) := by
  have hSame := (takeCoin_same hTake).1
  have hKeep :
      TrueFlagged info stage → TrueFlagged info' stage :=
    fun h => h.imp_left fun hOne =>
      (congrArg Values.one hSame).trans hOne
  rcases hMain with ⟨hTrue, hQuorum, hFalse⟩
  refine ⟨fun hFlag => ?_, fun hFirst => ?_, fun hLater => ?_⟩
  · rcases select_value hFlag with hOld | rfl
    · exact hKeep (hTrue hOld)
    · exact hKeep (hBiased.ready (takeCoin_value hTake))
  · by_contra hFlag
    rw [Bool.not_eq_false] at hFlag
    rcases select_quorum hFlag with hOld | rfl
    · rw [hQuorum hFirst] at hOld
      cases hOld
    · have hPos := takeCoin_quorum hTake
      rw [hBiased.first hFirst] at hPos
      exact absurd hPos (Nat.lt_irrefl 0)
  · by_contra hFlag
    rw [Bool.not_eq_false] at hFlag
    rcases select_value hFlag with hOld | rfl
    · rw [hFalse hLater] at hOld
      cases hOld
    · have hPos := takeCoin_value hTake
      rw [(hBiased.later hLater).ready] at hPos
      exact absurd hPos (Nat.lt_irrefl 0)

/- A phase before the coin ends with the value true. -/
theorem MainBiased.elect
    {loop : Nat} {info : LoopInfo} {stage : Stage}
    {flags : Flags} {signal : Signal}
    (hMain :
      MainBiased loop info stage
        (.coin (flags.select signal).1))
    (hReady : (flags.select signal).2 = true) :
    MainBiased loop info stage .elect := by
  rcases hMain with ⟨hTrue, hQuorum, hFalse⟩
  apply hTrue
  rcases select_ready hReady with ⟨b, hValue, hConf⟩ | hBoth
  · cases b with
    | true => exact hValue
    | false =>
        -- false alone needs a quorum in the first loop and a
        -- value in the others
        by_cases hFirst : loop = 0
        · rw [hQuorum hFirst] at hConf
          cases hConf
        · rw [hFalse hFirst] at hValue
          cases hValue
  · exact hBoth true

end BinaryAgreement

end Jumbo

------------------------------------------------------------
-- One Party
------------------------------------------------------------

namespace Jumbo

namespace BinaryAgreement

variable {n : Nat}

/- A party that has not started leans to true. -/
theorem PartyBiased.new :
    PartyBiased Interleaved.new where
  fresh := fun _ _ => rfl
  loops := fun hLaunched => by cases hLaunched
  main := trivial
  finishCount := rfl
  signal := List.not_mem_nil
  output := (nomatch ·)

/- One loop changes, and the party with it. -/
theorem PartyBiased.setLoop
    {party : Interleaved} (hParty : PartyBiased party)
    (hLaunched : party.ba.launched = true)
    {loop : Nat} {info : LoopInfo} {stage : Stage}
    (hLoop : loop ≤ party.ba.loop)
    (hBiased : LoopBiased loop info stage)
    (hFlag :
      TrueFlagged (party.ba.loops loop) (party.stage loop) →
        TrueFlagged info stage) :
    PartyBiased (party.setLoop loop info stage) where
  fresh := by
    intro l hl
    have hLt : party.ba.loop < l := hl hLaunched
    change Function.update party.stage loop stage l = _
    rw [Function.update_of_ne (by omega)]
    exact hParty.fresh l fun _ => hLt
  loops := by
    intro _ l hl
    change LoopBiased l ((party.ba.setLoop loop info).loops l)
      (Function.update party.stage loop stage l)
    by_cases hEq : l = loop
    · subst hEq
      rw [BA.setLoop_self, Function.update_self]
      exact hBiased
    · rw [BA.setLoop_of_ne _ _ hEq, Function.update_of_ne hEq]
      exact hParty.loops hLaunched l hl
  main := by
    change MainBiased party.ba.loop
      ((party.ba.setLoop loop info).loops party.ba.loop)
      (Function.update party.stage loop stage party.ba.loop)
      party.ba.main
    by_cases hEq : party.ba.loop = loop
    · subst hEq
      rw [BA.setLoop_self, Function.update_self]
      exact hParty.main.mono hFlag
    · rw [BA.setLoop_of_ne _ _ hEq, Function.update_of_ne hEq]
      exact hParty.main
  finishCount := hParty.finishCount
  signal := hParty.signal
  output := hParty.output

/- The same where no goroutine has moved on. -/
theorem PartyBiased.setInfo
    {party : Interleaved} (hParty : PartyBiased party)
    (hLaunched : party.ba.launched = true)
    {loop : Nat} {info : LoopInfo}
    (hLoop : loop ≤ party.ba.loop)
    (hBiased : LoopBiased loop info (party.stage loop))
    (hOne :
      (party.ba.loops loop).values.one = true →
        info.values.one = true) :
    PartyBiased
      { party with ba := party.ba.setLoop loop info } := by
  have hSet :=
    hParty.setLoop hLaunched hLoop hBiased
      (fun h => h.imp_left hOne)
  have hSame :
      party.setLoop loop info (party.stage loop) =
        { party with ba := party.ba.setLoop loop info } := by
    rw [Interleaved.setLoop, Function.update_eq_self]
  rw [hSame] at hSet
  exact hSet

/- The main goroutine moves within its loop. -/
theorem PartyBiased.setMain
    {party : Interleaved} (hParty : PartyBiased party)
    {main : Main}
    (hBefore : party.ba.launched = true)
    (hAfter :
      ({ party.ba with main := main } : BA).launched = true)
    (hMain :
      MainBiased party.ba.loop party.ba.info
        (party.stage party.ba.loop) main) :
    PartyBiased
      { party with ba := { party.ba with main := main } } where
  fresh := fun l hl => hParty.fresh l fun _ => hl hAfter
  loops := fun _ => hParty.loops hBefore
  main := hMain
  finishCount := hParty.finishCount
  signal := hParty.signal
  output := hParty.output

/- A loop is entered, the first one at launch. -/
theorem PartyBiased.startLoop
    {party : Interleaved} (hParty : PartyBiased party)
    {loop : Nat} {input : Bool}
    (hFresh : party.ba.launched = true → party.ba.loop < loop)
    (hNext :
      ∀ l, l < loop →
        party.ba.launched = true ∧ l ≤ party.ba.loop)
    (hInput : loop ≠ 0 → input = true) :
    PartyBiased
      { party with ba := party.ba.startLoop loop input } where
  fresh := fun l hl =>
    hParty.fresh l fun hLaunched =>
      (hFresh hLaunched).trans (hl rfl)
  loops := by
    intro _ l hl
    change LoopBiased l
      (Function.update party.ba.loops loop
        (LoopInfo.new input) l) (party.stage l)
    by_cases hEq : l = loop
    · subst hEq
      rw [Function.update_self, hParty.fresh l hFresh]
      exact LoopBiased.new l hInput
    · have hl : l ≤ loop := hl
      rw [Function.update_of_ne hEq]
      have hOld := hNext l (by omega)
      exact hParty.loops hOld.1 l hOld.2
  main := trivial
  finishCount := hParty.finishCount
  signal := hParty.signal
  output := hParty.output

/- With the flag of true in place false is not chosen. -/
theorem PartyBiased.elect
    {cfg : Config} {party : Interleaved}
    (hParty : PartyBiased party)
    (hElect : party.ba.main = .elect)
    (hOk :
      (party.stage party.ba.loop).handleVal ≠
        .readyConf true) :
    PartyBiased { party with ba := party.ba.elect cfg } := by
  have hLaunched : party.ba.launched = true := by
    rw [BA.launched, hElect]
  have hMain := hParty.main
  rw [hElect] at hMain
  have hOne : party.ba.info.values.one = true :=
    hMain.resolve_right hOk
  have hNext :
      ∀ input, input = true →
        PartyBiased
          { party with
            ba :=
              party.ba.startLoop (party.ba.loop + 1) input } :=
    fun input hInput =>
      hParty.startLoop (fun _ => Nat.lt_succ_self _)
        (fun l hl => ⟨hLaunched, Nat.le_of_lt_succ hl⟩)
        (fun _ => hInput)
  have hSet :
      PartyBiased
        { party with
          ba := { party.ba with main := .decided true } } :=
    hParty.setMain hLaunched rfl rfl
  have hDecided :
      PartyBiased
        { party with
          ba :=
            { party.ba with
              sendFinishSignal :=
                party.ba.sendFinishSignal ++ [true]
              main := .decided true } } :=
    { hSet with
      signal := by simp [hParty.signal] }
  have hZero :
      handleCoin cfg party.ba.loop party.ba.loop = false →
        party.ba.info.values.zero = false := by
    intro hCoin
    have hLater : party.ba.loop ≠ 0 := by
      intro hFirst
      rw [handleCoin, if_pos hFirst] at hCoin
      cases hCoin
    exact
      ((hParty.loops hLaunched _ (Nat.le_refl _)).later
        hLater).zero
  unfold BA.elect
  dsimp only
  cases hCoin : handleCoin cfg party.ba.loop party.ba.loop with
  | false =>
      rw [hZero hCoin]
      simpa using hNext true rfl
  | true =>
      cases hBoth : party.ba.info.values.zero with
      | false => simpa [hOne] using hDecided
      | true => simpa [hOne] using hNext true rfl

/- A FINISH message for true. -/
theorem PartyBiased.finish
    {party : Interleaved} (hParty : PartyBiased party)
    (faults : Nat) :
    PartyBiased
      { party with
        ba := handleFinish faults party.ba true } := by
  have hCount : bump party.ba.finishCount true false = 0 := by
    rw [bump_apply]
    exact hParty.finishCount
  unfold handleFinish
  dsimp only
  split
  · exact
      { hParty with
        finishCount := hCount
        signal := by simp [hParty.signal] }
  · split
    · exact
        { hParty with
          finishCount := hCount
          output := by simp }
    · exact { hParty with finishCount := hCount }

end BinaryAgreement

end Jumbo

------------------------------------------------------------
-- Statements and Messages
------------------------------------------------------------

namespace Jumbo

namespace BinaryAgreement

open Protocol

variable {n : Nat}

/- A message that no party takes for false. -/
theorem PartyBiased.receive
    {id : Fin n} {party party' : Interleaved} {m : BAMsg n}
    (hParty : PartyBiased party)
    (hLaunched : party.ba.launched = true)
    (hMsg : MsgBiased m)
    (hReceived : Received id party m party')
    (hFew :
      (party'.ba.loops 0).confCount false ≤ faults n * 2) :
    PartyBiased party' := by
  cases hReceived with
  | val info stage hType hLoop hIdle hVal =>
      refine hParty.setLoop hLaunched hLoop ?_ ?_
      · exact
          (hParty.loops hLaunched _ hLoop).val hIdle hVal
            (hMsg.val hType)
      · intro hFlag
        refine hFlag.of_other ?_ ?_
        · rw [hIdle]
          exact (nomatch ·)
        · cases hVal <;> exact fun h => h
  | other ba hType hRun =>
      rcases receive_cases hRun with
        ⟨_, hLoop, rfl⟩ | ⟨hFinish, _, rfl⟩
      · refine hParty.setInfo hLaunched hLoop ?_ ?_
        · refine
            (hParty.loops hLaunched _ hLoop).receive hType ?_
          intro hFirst
          dsimp only at hFew
          rw [hFirst, BA.setLoop_self] at hFew
          rw [hFirst]
          exact hFew
        · exact loopReceive_values_le _ _ _ true
      · rw [hMsg.finish hFinish]
        exact hParty.finish (faults n)

/- The main goroutine takes a signal. -/
theorem PartyBiased.takeMain
    {party : Interleaved} (hParty : PartyBiased party)
    (hLaunched : party.ba.launched = true)
    {info : LoopInfo} {main : Main}
    (hBiased :
      LoopBiased party.ba.loop info
        (party.stage party.ba.loop))
    (hValues : info.values = party.ba.info.values)
    (hAfter :
      ({ party.ba with main := main } : BA).launched = true)
    (hMain :
      MainBiased party.ba.loop info
        (party.stage party.ba.loop) main) :
    PartyBiased
      { party with
        ba :=
          { party.ba.setLoop party.ba.loop info with
            main := main } } := by
  have hSet :=
    hParty.setInfo hLaunched (Nat.le_refl _) hBiased
      (fun h => (congrArg Values.one hValues).trans h)
  refine hSet.setMain hLaunched hAfter ?_
  change MainBiased party.ba.loop
    ((party.ba.setLoop party.ba.loop info).loops
      party.ba.loop) (party.stage party.ba.loop) main
  rw [BA.setLoop_self]
  exact hMain

/- Where `values` is read late enough no step brings false. -/
theorem PartyBiased.partyStep
    {cfg : Config} {id : Fin n} {party : Interleaved}
    {ba : BA} {event : Event} {ms : List (BAMsg n)}
    (hParty : PartyBiased party)
    (hLaunched : party.ba.launched = true)
    (hStep : PartyStep cfg id party.ba event ba ms)
    (hOk :
      event = .mainElect →
        (party.stage party.ba.loop).handleVal ≠
          .readyConf true) :
    PartyBiased { party with ba := ba } := by
  have hHere := hParty.loops hLaunched _ (Nat.le_refl _)
  have hMain := hParty.main
  cases hStep with
  | loop loop event info ms second hLoop hLoopStep =>
      have hSet :=
        hParty.setInfo hLaunched hLoop
          ((hParty.loops hLaunched _ hLoop).loopStep hLoopStep)
          (hLoopStep.values_le true)
      exact { hSet with }
  | finish value rest hSignal =>
      refine { hParty with signal := fun hMem => ?_ }
      apply hParty.signal
      rw [hSignal]
      exact List.mem_cons_of_mem _ hMem
  | mainConf flags signal info hConf hTake =>
      exact hParty.takeMain hLaunched (hHere.takeConf hTake)
        (takeConf_same hTake).1 rfl trivial
  | mainConfReady flags signal info hConf hTake =>
      have hPending :
          LoopBiased party.ba.loop
            { info with sendConf := .pending }
            (party.stage party.ba.loop) :=
        (hHere.takeConf hTake).keep (fun h => h) rfl
          (fun _ => Nat.le_refl _) (fun _ => Nat.le_refl _)
          rfl fun h => h
      exact hParty.takeMain hLaunched hPending
        (takeConf_same hTake).1 rfl
        ⟨(nomatch ·), fun _ => rfl, fun _ => rfl⟩
  | mainCoin flags signal info hCoin hTake =>
      rw [hCoin] at hMain
      exact hParty.takeMain hLaunched (hHere.takeCoin hTake)
        (takeCoin_same hTake).1 rfl (hMain.select hHere hTake)
  | mainCoinReady flags signal info hCoin hTake hReady =>
      rw [hCoin] at hMain
      exact hParty.takeMain hLaunched (hHere.takeCoin hTake)
        (takeCoin_same hTake).1 rfl
        ((hMain.select hHere hTake).elect hReady)
  | elect hElect => exact hParty.elect hElect (hOk rfl)

/-
  Every statement keeps a party leaning to true, if the main
  goroutine reads the flag after it was written.
-/
theorem PartyBiased.statement
    {cfg : Config} {id : Fin n} {party party' : Interleaved}
    {statement : Statement} {ms : List (BAMsg n)}
    (hParty : PartyBiased party)
    (hLaunched : party.ba.launched = true)
    (hStep : StatementStep cfg id party statement party' ms)
    (hOk :
      statement = .whole .mainElect →
        (party.stage party.ba.loop).handleVal ≠
          .readyConf true) :
    PartyBiased party' := by
  cases hStep with
  | whole event ba ms hWhole hRun =>
      exact hParty.partyStep hLaunched (partyStep_of_step hRun)
        fun hElect => hOk (by rw [hElect])
  | part statement loop info stage hLoop hPart =>
      exact hParty.setLoop hLaunched hLoop
        ((hParty.loops hLaunched loop hLoop).part hPart)
        hPart.trueFlagged

/- Nor does what such a party broadcasts. -/
theorem PartyBiased.broadcast
    {cfg : Config} {id : Fin n} {party party' : Interleaved}
    {statement : Statement} {ms : List (BAMsg n)}
    (hParty : PartyBiased party)
    (hLaunched : party.ba.launched = true)
    (hStep :
      StatementStep cfg id party statement party' ms) :
    ∀ m ∈ ms, MsgBiased m := by
  intro m hMem
  cases hStep with
  | part => cases hMem
  | whole event ba ms hWhole hRun =>
      cases partyStep_of_step hRun with
      | loop loop event info ms second hLoop hLoopStep =>
          have hBiased := hParty.loops hLaunched loop hLoop
          cases hLoopStep with
          | valNew value rest _ hSignal =>
              rw [List.mem_singleton.mp hMem]
              refine ⟨fun _ hLater => ?_, (nomatch ·)⟩
              have hOnly := (hBiased.later hLater).signal
              rw [hSignal] at hOnly
              change value = true
              by_contra hFalse
              rw [Bool.not_eq_true] at hFalse
              rw [hFalse] at hOnly
              exact hOnly List.mem_cons_self
          | second hFirst =>
              rw [List.mem_singleton.mp hMem]
              exact ⟨fun _ _ => rfl, (nomatch ·)⟩
          | auxNew | conf =>
              rw [List.mem_singleton.mp hMem]
              exact ⟨(nomatch ·), (nomatch ·)⟩
          | _ => cases hMem
      | finish value rest hSignal =>
          rw [List.mem_singleton.mp hMem]
          refine ⟨(nomatch ·), fun _ => ?_⟩
          have hOnly := hParty.signal
          rw [hSignal] at hOnly
          change value = true
          by_contra hFalse
          rw [Bool.not_eq_true] at hFalse
          rw [hFalse] at hOnly
          exact hOnly List.mem_cons_self
      | _ => cases hMem

end BinaryAgreement

end Jumbo

------------------------------------------------------------
-- Runs
------------------------------------------------------------

namespace Jumbo

namespace BinaryAgreement

open Protocol

variable {n : Nat}

/- The parties and the messages of a run keep away from false. -/
structure Biased (s : Net n) : Prop where
  parties : ∀ p, PartyBiased (s.party p)
  sent : ∀ m ∈ s.sent, MsgBiased m

/- Nobody has started at the beginning. -/
theorem Biased.init : Biased (Net.init : Net n) where
  parties := fun _ => PartyBiased.new
  sent := fun _ hMem => by cases hMem

/- A step changes one party. -/
theorem Biased.setParty
    {s : Net n} (hBiased : Biased s) (p : Fin n)
    {party : Interleaved} (hParty : PartyBiased party)
    (q : Fin n) :
    PartyBiased ((s.setParty p party).party q) := by
  by_cases hq : q = p
  · subst hq
    rw [Net.setParty_self]
    exact hParty
  · rw [Net.setParty_of_ne s party hq]
    exact hBiased.parties q

/-
  Every step keeps all parties leaning to true, as long as
  CONF messages for false alone stay short of a quorum.
-/
theorem Biased.move
    {cfg : Config} {s s' : Net n} {a : Net.Action n}
    (hBiased : Biased s) (hMove : NetMove cfg s a s')
    (hOk : flaggedFirst s a = true)
    (hFew :
      ∀ p, ((s'.ba p).loops 0).confCount false ≤
        faults n * 2) :
    Biased s' := by
  cases hMove with
  | launch p input hIdle =>
      refine ⟨hBiased.setParty p ?_, hBiased.sent⟩
      refine (hBiased.parties p).startLoop ?_ ?_ ?_
      · intro hLaunched
        rw [hIdle] at hLaunched
        cases hLaunched
      · exact fun l hl => absurd hl (Nat.not_lt_zero l)
      · exact fun hZero => absurd rfl hZero
  | second p =>
      exact
        ⟨hBiased.setParty p { hBiased.parties p with },
          hBiased.sent⟩
  | take p i m party hMsg hLaunched hNew hReceived =>
      refine ⟨hBiased.setParty p ?_, hBiased.sent⟩
      refine (hBiased.parties p).receive hLaunched
        (hBiased.sent m (List.mem_of_getElem? hMsg))
        hReceived ?_
      simpa [Net.ba, Net.setParty] using hFew p
  | go p statement party ms hLaunched hStep =>
      have hParty := hBiased.parties p
      constructor
      · refine hBiased.setParty p
          (hParty.statement hLaunched hStep ?_)
        rintro rfl
        have hElect := (Bool.and_eq_true_iff.mp hOk).2
        simpa [electFlagged] using hElect
      · intro m hMem
        rcases List.mem_append.mp hMem with hOld | hNew
        · exact hBiased.sent m hOld
        · exact hParty.broadcast hLaunched hStep m hNew

/- As long as no quorum of parties has started with false. -/
theorem biased
    {cfg : Config} {s : Net n}
    (hReach :
      (net n cfg).ReachableBy
        (fun s a => flaggedFirst s a = true) s)
    (hFew : (startedFalse s).card ≤ faults n * 2) :
    Biased s := by
  induction hReach with
  | init => exact Biased.init
  | step hBefore hOk hExec ih =>
      have hMove := netMove_of_exec hExec
      have hConf := confOk hBefore
      have hAfter := hConf.move hMove hOk
      have hMono := startedFalse_mono hMove hConf.ahead
      refine (ih ?_).move hMove hOk fun p => ?_
      · exact (Finset.card_le_card hMono).trans hFew
      · rcases hAfter.counted p with ⟨qs, hCard, hAll⟩
        rw [hCard]
        have hSub : qs ⊆ startedFalse _ :=
          fun q hq => (hAll q hq).1
        exact (Finset.card_le_card hSub).trans hFew

/- With `f + 1` inputs true the others are no quorum. -/
theorem startedFalse_card
    {f : Nat} {s : Net n} (hN : n = 3 * f + 1)
    (hTrue : f + 1 ≤ (startedTrue s).card) :
    (startedFalse s).card ≤ faults n * 2 := by
  have hDisjoint :
      Disjoint (startedTrue s) (startedFalse s) := by
    rw [Finset.disjoint_left]
    intro p hTrue hFalse
    have hInput := (Finset.mem_filter.mp hTrue).2.2
    rw [(Finset.mem_filter.mp hFalse).2.2] at hInput
    cases hInput
  have hUnion :=
    Finset.card_le_univ (startedTrue s ∪ startedFalse s)
  rw [Finset.card_union_of_disjoint hDisjoint,
    Fintype.card_fin] at hUnion
  unfold faults
  omega

/-
  The bias holds in every run in which the flag of true is
  written before it is read.
-/
theorem biasedValidity
    {f : Nat} {cfg : Config} {s : Net n}
    (hN : n = 3 * f + 1)
    (hReach :
      (net n cfg).ReachableBy
        (fun s a => flaggedFirst s a = true) s) :
    BiasedValid f s := by
  intro hTrue p
  have hBiased := biased hReach (startedFalse_card hN hTrue)
  exact (hBiased.parties p).output

end BinaryAgreement

end Jumbo

------------------------------------------------------------
-- Runs of Four Parties
------------------------------------------------------------

namespace Jumbo

namespace BinaryAgreement

open Protocol

/- Party `p` takes the messages at the positions `is`. -/
def takeAll
    {n : Nat} (p : Fin n) (is : List Nat) :
    List (Net.Action n) :=
  is.map fun i => .take p i

/- A goroutine of `p` runs an iteration. -/
def iterate
    {n : Nat} (p : Fin n) (event : Event) : Net.Action n :=
  .go p (.whole event)

/- `handle_val` of `p` ends the iteration of a quorum. -/
def endVal
    {n : Nat} (p : Fin n) (loop : Nat) :
    List (Net.Action n) :=
  List.replicate 3 (.go p (.handleVal loop))

/- The two statements of `sendval` after VAL for true. -/
def endSendVal
    {n : Nat} (p : Fin n) : List (Net.Action n) :=
  [.go p .sendValSignal, .go p .sendValFlag]

/- From the AUX signal on, `ps` settle on `b`. -/
def settle
    {n : Nat} (ps : List (Fin n)) (loop : Nat) (b : Bool)
    (auxs confs : List Nat) : List (Net.Action n) :=
  (ps.map (fun p => iterate p (.sendAux loop))
      : List (Net.Action n)) ++
    (ps.flatMap (fun p => takeAll p auxs)
      : List (Net.Action n)) ++
    (ps.flatMap (fun p =>
      [iterate p (.mainConf (.value b)),
        iterate p (.mainConf (.quorum b)),
        iterate p (.sendConf loop)]) : List (Net.Action n)) ++
    (ps.flatMap (fun p => takeAll p confs)
      : List (Net.Action n)) ++
    (ps.flatMap (fun p =>
      [iterate p (.mainCoin (.value b)),
        iterate p (.mainCoin (.quorum b)),
        iterate p .mainElect]) : List (Net.Action n))

/- All parties start with true and write the flag in time. -/
def flaggedRun : List (Net.Action 4) :=
  let ps : List (Fin 4) := [0, 1, 2, 3]
  (ps.map (fun p => .launch p true) : List (Net.Action 4)) ++
    (ps.flatMap (fun p =>
      iterate p (.sendVal 0) :: endSendVal p)
        : List (Net.Action 4)) ++
    (ps.flatMap (fun p =>
      takeAll p [0, 1, 2, 3] ++ endVal p 0)
        : List (Net.Action 4)) ++
    settle ps 0 true [4, 5, 6, 7] [8, 9, 10, 11] ++
    (ps.map (fun p => iterate p .sendFinish)
      : List (Net.Action 4)) ++
    (ps.flatMap (fun p => takeAll p [12, 13, 14])
      : List (Net.Action 4))

/- Where that run ends. -/
def flaggedState : Net 4 :=
  (net 4 unanimousConfig).drive flaggedFirst
    (net 4 unanimousConfig).init flaggedRun

/- Nobody puts out false there. -/
theorem biasedValidity_unanimous :
    2 ≤ (startedTrue flaggedState).card ∧
      ∀ p, (flaggedState.ba p).output ≠ some false := by
  have hTrue : 2 ≤ (startedTrue flaggedState).card := by
    decide +kernel
  have hReach :
      (net 4 unanimousConfig).ReachableBy
        (fun s a => flaggedFirst s a = true)
        flaggedState :=
    Machine.ReachableBy.drive .init flaggedRun
  exact ⟨hTrue, biasedValidity (f := 1) rfl hReach hTrue⟩

/- 67 is the first byte of SHA-256 of the number two. -/
def unflaggedConfig : Config := ⟨fun _ => [67], 0, 0⟩

/-
  Parties 0 and 1 start with true, 2 and 3 with false. The
  goroutine `sendval` of party 1 does not run, party 0 sends
  VAL for false after two others did, and parties 1, 2 and 3
  confirm false alone; the coin of the next loop is false.
-/
def unflaggedRun : List (Net.Action 4) :=
  ([.launch 0 true, .launch 1 true,
    .launch 2 false, .launch 3 false] : List (Net.Action 4)) ++
    (([2, 3] : List (Fin 4)).flatMap (fun p =>
      [iterate p (.sendVal 0), iterate p (.sendValDone 0)])
        : List (Net.Action 4)) ++
    iterate 0 (.sendVal 0) :: endSendVal 0 ++
    takeAll 0 [0, 1] ++
    [iterate 0 (.sendVal 0), iterate 0 (.sendValDone 0)] ++
    (([1, 2, 3] : List (Fin 4)).flatMap (fun p =>
      takeAll p [0, 1, 3] ++ endVal p 0)
        : List (Net.Action 4)) ++
    settle [1, 2, 3] 0 false [4, 5, 6] [7, 8, 9] ++
    (([1, 2, 3] : List (Fin 4)).flatMap (fun p =>
      [iterate p (.sendVal 1), iterate p (.sendValDone 1)])
        : List (Net.Action 4)) ++
    (([1, 2, 3] : List (Fin 4)).flatMap (fun p =>
      takeAll p [10, 11, 12] ++ endVal p 1)
        : List (Net.Action 4)) ++
    settle [1, 2, 3] 1 false [13, 14, 15] [16, 17, 18] ++
    (([1, 2, 3] : List (Fin 4)).map
      (fun p => iterate p .sendFinish)
        : List (Net.Action 4)) ++
    takeAll 1 [19, 20, 21]

/- `sendconf` reads `values` before `sendval` writes it. -/
theorem biasedValidity_unflagged :
    ∃ s, (net 4 unflaggedConfig).ReachableBy
        (fun s a => electFlagged s a = true) s ∧
      ¬ BiasedValid 1 s := by
  refine ⟨_, Machine.ReachableBy.drive .init unflaggedRun, ?_⟩
  intro hValid
  exact hValid (by decide +kernel) 1 (by decide +kernel)

/-
  In a run of the other kind both values are about in the
  first loop. At parties 2 and 3 `handle_val` has told the
  main goroutine of true and does not go on; both read false
  alone and go on with false, and all settle on it.
-/
def unwrittenRun : List (Net.Action 4) :=
  let ps : List (Fin 4) := [0, 1, 2, 3]
  let both : List Event :=
    [.mainConf (.value false), .mainConf (.value true),
      .mainConf .mix, .sendConf 0]
  let coin : List Event :=
    [.mainCoin (.value false), .mainCoin (.value true),
      .mainCoin .mix, .mainElect]
  ([.launch 0 true, .launch 1 true,
    .launch 2 false, .launch 3 false] : List (Net.Action 4)) ++
    (([2, 3] : List (Fin 4)).flatMap (fun p =>
      [iterate p (.sendVal 0), iterate p (.sendValDone 0)])
        : List (Net.Action 4)) ++
    (([0, 1] : List (Fin 4)).flatMap (fun p =>
      iterate p (.sendVal 0) :: endSendVal p ++
        takeAll p [0, 1] ++
        [iterate p (.sendVal 0), iterate p (.sendValDone 0)])
        : List (Net.Action 4)) ++
    (([2, 3] : List (Fin 4)).flatMap (fun p =>
      takeAll p [0, 1, 2, 4] ++
        [iterate p (.sendVal 0), iterate p (.sendVal 0)])
        : List (Net.Action 4)) ++
    (([0, 1] : List (Fin 4)).flatMap (fun p =>
      takeAll p [3] ++ endVal p 0 ++
        takeAll p [2, 4, 6] ++ endVal p 0)
        : List (Net.Action 4)) ++
    (([2, 3] : List (Fin 4)).flatMap (fun p =>
      takeAll p [3] ++ endVal p 0 ++
        takeAll p [6] ++ [.go p (.handleVal 0)])
        : List (Net.Action 4)) ++
    (ps.map (fun p => iterate p (.sendAux 0))
      : List (Net.Action 4)) ++
    (ps.flatMap (fun p =>
      takeAll p [8, 9, 10] ++ both.map (iterate p))
        : List (Net.Action 4)) ++
    (ps.flatMap (fun p =>
      takeAll p [12, 13, 14] ++ coin.map (iterate p))
        : List (Net.Action 4)) ++
    (ps.flatMap (fun p =>
      [iterate p (.sendVal 1), iterate p (.sendValDone 1)])
        : List (Net.Action 4)) ++
    (([0, 1] : List (Fin 4)).flatMap (fun p =>
      takeAll p [18, 19] ++
        [iterate p (.sendVal 1), iterate p (.sendValDone 1)])
        : List (Net.Action 4)) ++
    (([2, 3] : List (Fin 4)).flatMap (fun p =>
      takeAll p [18, 19]) : List (Net.Action 4)) ++
    (ps.flatMap (fun p => takeAll p [20] ++ endVal p 1)
      : List (Net.Action 4)) ++
    settle ps 1 false [22, 23, 24] [26, 27, 28] ++
    (ps.map (fun p => iterate p .sendFinish)
      : List (Net.Action 4)) ++
    takeAll 1 [30, 31, 32]

/- The main goroutine reads it before `handle_val` does. -/
theorem biasedValidity_unwritten :
    ∃ s, (net 4 unflaggedConfig).ReachableBy
        (fun s a => confFlagged s a = true) s ∧
      ¬ BiasedValid 1 s := by
  refine ⟨_, Machine.ReachableBy.drive .init unwrittenRun, ?_⟩
  intro hValid
  exact hValid (by decide +kernel) 1 (by decide +kernel)

end BinaryAgreement

end Jumbo
