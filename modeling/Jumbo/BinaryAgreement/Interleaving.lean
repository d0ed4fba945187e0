import Jumbo.BinaryAgreement.Counting

/-
  The goroutines of one party, statement by statement.

  `BA.receive` and `BA.step` run an iteration of a goroutine
  at once. At a quorum `handle_val` first puts its signals
  for the main goroutine, then writes `values` and then puts
  the signal for AUX; in the first loop `sendval` and
  `sendsencondval` put a signal for AUX and then write
  `values`. Here the other goroutines run in between, so that
  they may find a signal whose flag is not written yet.

  Main declarations:
    * `Stage`
    * `Interleaved`
    * `countVal`, `nextVal` and `countVal_rest`
    * `Interleaved.receive`
    * `Interleaved.step`
    * `StatementStep` and `statementStep_of_step`
-/

------------------------------------------------------------
-- Statements of handle_val
------------------------------------------------------------

namespace Jumbo

namespace BinaryAgreement

/-
  Where `handle_val` stands after a quorum: it has put the
  signal `value*ready`, it has also put `value*ready_conf`,
  or it has also written the flag of the value.
-/
inductive HandleVal where
| idle
| ready (value : Bool)
| readyConf (value : Bool)
| flagged (value : Bool)
deriving DecidableEq, Repr

/- `handle_val` takes a message of this loop and counts it. -/
def countVal
    (faults : Nat) (info : LoopInfo) (value : Bool) :
    LoopInfo × HandleVal :=
  let info :=
    { info with vCount := bump info.vCount value }
  if info.vCount value = faults + 1 then
    ({ info with
        sendValSignal := info.sendValSignal ++ [value] },
      .idle)
  else if info.vCount value = faults * 2 + 1 then
    ({ info with
        valueReady := bump info.valueReady value },
      .ready value)
  else (info, .idle)

/- The next statement of `handle_val` after a quorum. -/
def nextVal
    (info : LoopInfo) :
    HandleVal → Option (LoopInfo × HandleVal)
| .idle => none
| .ready value =>
    some
      ({ info with
          valueReadyConf := bump info.valueReadyConf value },
        .readyConf value)
| .readyConf value =>
    some
      ({ info with values := info.values.set value },
        .flagged value)
| .flagged value =>
    some
      (if info.isAuxSent then info
        else
          { info with
            sendAuxSignal := info.sendAuxSignal ++ [value]
            isAuxSent := true },
        .idle)

/- All statements that `handle_val` still has to run. -/
def restVal (info : LoopInfo) (stage : HandleVal) : LoopInfo :=
  let next (now : LoopInfo × HandleVal) :=
    (nextVal now.1 now.2).getD now
  (next (next (next (info, stage)))).1

/- Without a break between them they are `handle_val`. -/
theorem countVal_rest
    (faults : Nat) (info : LoopInfo) (value : Bool) :
    restVal (countVal faults info value).1
        (countVal faults info value).2 =
      handleVal faults info value := by
  unfold countVal handleVal restVal
  dsimp only
  split
  · rfl
  · split
    · rfl
    · rfl

end BinaryAgreement

end Jumbo

------------------------------------------------------------
-- A Party between Its Statements
------------------------------------------------------------

namespace Jumbo

namespace BinaryAgreement

/-
  Where the goroutines of a loop stand that write `values`.
  The two booleans say that `sendval` and `sendsencondval`
  have put their signal for AUX and still have to set the
  flag of true.
-/
structure Stage where
  handleVal : HandleVal
  sendVal : Bool
  sendSencondVal : Bool
deriving DecidableEq, Repr

/- No goroutine is inside an iteration. -/
def Stage.idle : Stage where
  handleVal := .idle
  sendVal := false
  sendSencondVal := false

/- A party with where its goroutines stand in each loop. -/
structure Interleaved where
  ba : BA
  stage : Nat → Stage

/- Statements of the goroutines of one party. -/
inductive Statement where
-- an iteration that no other goroutine can look into
| whole (event : Event)
| handleVal (loop : Nat)
| sendValSignal
| sendValFlag
| sencondValSignal
| sencondValFlag
deriving DecidableEq, Repr

namespace Interleaved

variable {n : Nat}

/- A party that has not started. -/
def new : Interleaved where
  ba := BA.new
  stage := fun _ => Stage.idle

/- What a statement changes in a loop. -/
def setLoop
    (party : Interleaved) (loop : Nat)
    (info : LoopInfo) (stage : Stage) : Interleaved where
  ba := party.ba.setLoop loop info
  stage := Function.update party.stage loop stage

/-
  A message reaches its handler; `handle_val` takes one when
  it has ended its last iteration.
-/
def receive
    (id : Fin n) (party : Interleaved) (m : BAMsg n) :
    Option Interleaved :=
  match m.type with
  | .val =>
      let stage := party.stage m.loop
      if m.loop ≤ party.ba.loop ∧ stage.handleVal = .idle then
        let counted :=
          countVal (faults n) (party.ba.loops m.loop) m.value
        some (party.setLoop m.loop counted.1
          { stage with handleVal := counted.2 })
      else none
  | _ =>
      (party.ba.receive id m).map fun ba =>
        { party with ba := ba }

/- Iterations that are told apart into statements. -/
def splits (ba : BA) : Event → Bool
| .sendValDone loop =>
    decide (loop = 0 ∧ (ba.loops 0).sendValNow = some true)
| .sendSencondValDone => true
| _ => false

/- `handle_val` of a loop goes on. -/
def handleValStep
    (party : Interleaved) (loop : Nat) :
    Option Interleaved :=
  let stage := party.stage loop
  if loop ≤ party.ba.loop then
    (nextVal (party.ba.loops loop) stage.handleVal).map
      fun next =>
        party.setLoop loop next.1
          { stage with handleVal := next.2 }
  else none

/- `loopinfo.sendauxsignal <- true` in `sendval`. -/
def sendValSignal
    (party : Interleaved) : Option Interleaved :=
  let info := party.ba.loops 0
  let stage := party.stage 0
  if info.sendValNow = some true ∧ stage.sendVal = false then
    some (party.setLoop 0
      { info with
        sendAuxSignal := info.sendAuxSignal ++ [true] }
      { stage with sendVal := true })
  else none

/- `loopinfo.values[1] = true` and the end of `sendval`. -/
def sendValFlag
    (party : Interleaved) : Option Interleaved :=
  let info := party.ba.loops 0
  let stage := party.stage 0
  if stage.sendVal then
    some (party.setLoop 0
      { info with
        values := info.values.set true
        valSent := mark info.valSent true
        sendValNow := none }
      { stage with sendVal := false })
  else none

/- The same two statements of `sendsencondval`. -/
def sencondValSignal
    (party : Interleaved) : Option Interleaved :=
  let info := party.ba.loops 0
  let stage := party.stage 0
  if info.secondVal = .sent ∧
      stage.sendSencondVal = false then
    some (party.setLoop 0
      { info with
        sendAuxSignal := info.sendAuxSignal ++ [true] }
      { stage with sendSencondVal := true })
  else none

/- `loopinfo.values[1] = true` in `sendsencondval`. -/
def sencondValFlag
    (party : Interleaved) : Option Interleaved :=
  let info := party.ba.loops 0
  let stage := party.stage 0
  if stage.sendSencondVal then
    some (party.setLoop 0
      { info with
        values := info.values.set true
        secondVal := .done }
      { stage with sendSencondVal := false })
  else none

/- One statement, with the messages it broadcasts. -/
def step
    (cfg : Config) (id : Fin n) (party : Interleaved) :
    Statement → Option (Interleaved × List (BAMsg n))
| .whole event =>
    if splits party.ba event then none
    else
      (party.ba.step cfg id event).map fun (ba, ms) =>
        ({ party with ba := ba }, ms)
| .handleVal loop => (party.handleValStep loop).map (·, [])
| .sendValSignal => party.sendValSignal.map (·, [])
| .sendValFlag => party.sendValFlag.map (·, [])
| .sencondValSignal => party.sencondValSignal.map (·, [])
| .sencondValFlag => party.sencondValFlag.map (·, [])

/- The two statements of `sendval` are the end of it. -/
theorem sendValSignal_flag
    {party : Interleaved}
    (hNow : (party.ba.loops 0).sendValNow = some true)
    (hFirst : (party.stage 0).sendVal = false) :
    (party.sendValSignal.bind sendValFlag).map
        (fun party => (party.ba, ([] : List (BAMsg n)))) =
      party.ba.sendValDone 0 := by
  rw [sendValSignal, if_pos ⟨hNow, hFirst⟩, Option.bind_some,
    sendValFlag, BA.sendValDone, hNow]
  simp [setLoop, BA.setLoop]

/- So are those of `sendsencondval`. -/
theorem sencondValSignal_flag
    {party : Interleaved}
    (hSent : (party.ba.loops 0).secondVal = .sent)
    (hFirst : (party.stage 0).sendSencondVal = false) :
    (party.sencondValSignal.bind sencondValFlag).map
        (fun party => (party.ba, ([] : List (BAMsg n)))) =
      party.ba.sendSencondValDone := by
  rw [sencondValSignal, if_pos ⟨hSent, hFirst⟩,
    Option.bind_some, sencondValFlag, BA.sendSencondValDone,
    if_pos hSent]
  simp [setLoop, BA.setLoop]

end Interleaved

end BinaryAgreement

end Jumbo

------------------------------------------------------------
-- What a Statement Can Do
------------------------------------------------------------

namespace Jumbo

namespace BinaryAgreement

variable {n : Nat}

/-
  A message counted by `handle_val`, with the stage of its
  goroutine afterwards.
-/
inductive ValStep
    (faults : Nat) (info : LoopInfo) (value : Bool) :
    LoopInfo → HandleVal → Prop
| amplify
    (hFew : (bump info.vCount value) value = faults + 1) :
    ValStep faults info value
      { info with
        vCount := bump info.vCount value
        sendValSignal := info.sendValSignal ++ [value] }
      .idle
| quorum
    (hMany : (bump info.vCount value) value = faults * 2 + 1)
    (hNot : (bump info.vCount value) value ≠ faults + 1) :
    ValStep faults info value
      { info with
        vCount := bump info.vCount value
        valueReady := bump info.valueReady value }
      (.ready value)
| other
    (hNot : (bump info.vCount value) value ≠ faults + 1) :
    ValStep faults info value
      { info with vCount := bump info.vCount value }
      .idle

/- Counting a VAL is one of these. -/
theorem valStep_countVal
    (faults : Nat) (info : LoopInfo) (value : Bool) :
    ValStep faults info value
      (countVal faults info value).1
      (countVal faults info value).2 := by
  unfold countVal
  dsimp only
  split
  · rename_i hFew
    exact .amplify hFew
  · rename_i hNot
    split
    · rename_i hMany
      exact .quorum hMany hNot
    · exact .other hNot

/-
  One of the statements of `handle_val`, `sendval` and
  `sendsencondval` that are told apart.
-/
inductive LoopPart
    (loop : Nat) (info : LoopInfo) (stage : Stage) :
    Statement → LoopInfo → Stage → Prop
| readyConf
    (value : Bool)
    (hStage : stage.handleVal = .ready value) :
    LoopPart loop info stage (.handleVal loop)
      { info with
        valueReadyConf := bump info.valueReadyConf value }
      { stage with handleVal := .readyConf value }
| flag
    (value : Bool)
    (hStage : stage.handleVal = .readyConf value) :
    LoopPart loop info stage (.handleVal loop)
      { info with values := info.values.set value }
      { stage with handleVal := .flagged value }
| aux
    (value : Bool)
    (hStage : stage.handleVal = .flagged value)
    (hFresh : info.isAuxSent = false) :
    LoopPart loop info stage (.handleVal loop)
      { info with
        sendAuxSignal := info.sendAuxSignal ++ [value]
        isAuxSent := true }
      { stage with handleVal := .idle }
| auxOld
    (value : Bool)
    (hStage : stage.handleVal = .flagged value)
    (hSent : info.isAuxSent = true) :
    LoopPart loop info stage (.handleVal loop) info
      { stage with handleVal := .idle }
| valSignal
    (hLoop : loop = 0)
    (hNow : info.sendValNow = some true)
    (hStage : stage.sendVal = false) :
    LoopPart loop info stage .sendValSignal
      { info with
        sendAuxSignal := info.sendAuxSignal ++ [true] }
      { stage with sendVal := true }
| valFlag
    (hLoop : loop = 0)
    (hStage : stage.sendVal = true) :
    LoopPart loop info stage .sendValFlag
      { info with
        values := info.values.set true
        valSent := mark info.valSent true
        sendValNow := none }
      { stage with sendVal := false }
| secondSignal
    (hLoop : loop = 0)
    (hSecond : info.secondVal = .sent)
    (hStage : stage.sendSencondVal = false) :
    LoopPart loop info stage .sencondValSignal
      { info with
        sendAuxSignal := info.sendAuxSignal ++ [true] }
      { stage with sendSencondVal := true }
| secondFlag
    (hLoop : loop = 0)
    (hStage : stage.sendSencondVal = true) :
    LoopPart loop info stage .sencondValFlag
      { info with
        values := info.values.set true
        secondVal := .done }
      { stage with sendSencondVal := false }

/- The next statement of `handle_val` is one of these. -/
theorem loopPart_of_nextVal
    {loop : Nat} {info : LoopInfo} {stage : Stage}
    {next : LoopInfo × HandleVal}
    (hNext : nextVal info stage.handleVal = some next) :
    LoopPart loop info stage (.handleVal loop) next.1
      { stage with handleVal := next.2 } := by
  cases hStage : stage.handleVal with
  | idle =>
      rw [hStage] at hNext
      cases hNext
  | ready value =>
      rw [hStage] at hNext
      cases hNext
      exact .readyConf value hStage
  | readyConf value =>
      rw [hStage] at hNext
      cases hNext
      exact .flag value hStage
  | flagged value =>
      rw [hStage] at hNext
      cases hNext
      cases hSent : info.isAuxSent with
      | false => exact .aux value hStage hSent
      | true => exact .auxOld value hStage hSent

/- A statement of party `id`, with what it broadcasts. -/
inductive StatementStep
    (cfg : Config) (id : Fin n) (party : Interleaved) :
    Statement → Interleaved → List (BAMsg n) → Prop
| whole
    (event : Event) (ba : BA) (ms : List (BAMsg n))
    (hWhole : Interleaved.splits party.ba event = false)
    (hRun : party.ba.step cfg id event = some (ba, ms)) :
    StatementStep cfg id party (.whole event)
      { party with ba := ba } ms
| part
    (statement : Statement) (loop : Nat)
    (info : LoopInfo) (stage : Stage)
    (hLoop : loop ≤ party.ba.loop)
    (hPart :
      LoopPart loop (party.ba.loops loop)
        (party.stage loop) statement info stage) :
    StatementStep cfg id party statement
      (party.setLoop loop info stage) []

/- Every statement does one of these. -/
theorem statementStep_of_step
    {cfg : Config} {id : Fin n}
    {party party' : Interleaved} {statement : Statement}
    {ms : List (BAMsg n)}
    (hStep :
      party.step cfg id statement = some (party', ms)) :
    StatementStep cfg id party statement party' ms := by
  cases statement with
  | whole event =>
      rcases Option.ite_none_left_eq_some.mp hStep with
        ⟨hWhole, hRun⟩
      rcases Option.map_eq_some_iff.mp hRun with
        ⟨⟨ba, ms'⟩, hRun, hEq⟩
      cases hEq
      exact .whole event ba ms (Bool.eq_false_iff.mpr hWhole)
        hRun
  | handleVal loop =>
      rcases Option.map_eq_some_iff.mp hStep with
        ⟨next, hRun, hEq⟩
      cases hEq
      rcases Option.ite_none_right_eq_some.mp hRun with
        ⟨hLoop, hNext⟩
      rcases Option.map_eq_some_iff.mp hNext with
        ⟨next, hRest, rfl⟩
      exact .part _ loop _ _ hLoop (loopPart_of_nextVal hRest)
  | sendValSignal =>
      rcases Option.map_eq_some_iff.mp hStep with
        ⟨next, hRun, hEq⟩
      cases hEq
      rcases Option.ite_none_right_eq_some.mp hRun with
        ⟨⟨hNow, hStage⟩, hEq⟩
      cases hEq
      exact .part _ 0 _ _ (Nat.zero_le _)
        (.valSignal rfl hNow hStage)
  | sendValFlag =>
      rcases Option.map_eq_some_iff.mp hStep with
        ⟨next, hRun, hEq⟩
      cases hEq
      rcases Option.ite_none_right_eq_some.mp hRun with
        ⟨hStage, hEq⟩
      cases hEq
      exact .part _ 0 _ _ (Nat.zero_le _)
        (.valFlag rfl hStage)
  | sencondValSignal =>
      rcases Option.map_eq_some_iff.mp hStep with
        ⟨next, hRun, hEq⟩
      cases hEq
      rcases Option.ite_none_right_eq_some.mp hRun with
        ⟨⟨hSecond, hStage⟩, hEq⟩
      cases hEq
      exact .part _ 0 _ _ (Nat.zero_le _)
        (.secondSignal rfl hSecond hStage)
  | sencondValFlag =>
      rcases Option.map_eq_some_iff.mp hStep with
        ⟨next, hRun, hEq⟩
      cases hEq
      rcases Option.ite_none_right_eq_some.mp hRun with
        ⟨hStage, hEq⟩
      cases hEq
      exact .part _ 0 _ _ (Nat.zero_le _)
        (.secondFlag rfl hStage)

/- A message reaches its handler. -/
inductive Received
    (id : Fin n) (party : Interleaved) (m : BAMsg n) :
    Interleaved → Prop
| val
    (info : LoopInfo) (stage : HandleVal)
    (hType : m.type = .val)
    (hLoop : m.loop ≤ party.ba.loop)
    (hIdle : (party.stage m.loop).handleVal = .idle)
    (hVal :
      ValStep (faults n) (party.ba.loops m.loop) m.value
        info stage) :
    Received id party m
      (party.setLoop m.loop info
        { party.stage m.loop with handleVal := stage })
| other
    (ba : BA)
    (hType : m.type ≠ .val)
    (hReceive : party.ba.receive id m = some ba) :
    Received id party m { party with ba := ba }

/- Every message that is read is counted so. -/
theorem received_of_receive
    {id : Fin n} {party party' : Interleaved} {m : BAMsg n}
    (hReceive : party.receive id m = some party') :
    Received id party m party' := by
  unfold Interleaved.receive at hReceive
  split at hReceive
  · rename_i hType
    rcases Option.ite_none_right_eq_some.mp hReceive with
      ⟨⟨hLoop, hIdle⟩, hEq⟩
    cases hEq
    exact .val _ _ hType hLoop hIdle (valStep_countVal _ _ _)
  · rename_i hType
    rcases Option.map_eq_some_iff.mp hReceive with
      ⟨ba, hRun, hEq⟩
    cases hEq
    exact .other ba hType hRun

end BinaryAgreement

end Jumbo
