import Mathlib.Algebra.GroupWithZero.Nat
import Mathlib.Data.Fintype.Card
import Mathlib.Logic.Function.Basic

/-
  The goroutines of one biased binary agreement instance at
  one party.

  Fields and functions that the source writes twice, once for
  each boolean, are indexed by the boolean here:
  `vCount false` is `v0count`, `valueReady true` is
  `value1ready`. A signal channel is the number of signals
  waiting in it, or their list when they carry a value.

  Main declarations:
    * `BAMsg`
    * `LoopInfo`
    * `BA`
    * `handleVal`
    * `handleAux`
    * `handleConf`
    * `handleFinish`
    * `handleCoin`
    * `BA.step`
-/

------------------------------------------------------------
-- Messages
------------------------------------------------------------

namespace Jumbo

namespace BinaryAgreement

/- The slice `values []bool` of length two. -/
structure Values where
  zero : Bool
  one : Bool
deriving DecidableEq, Repr

namespace Values

/- The flag of a value. -/
def get (values : Values) (b : Bool) : Bool :=
  if b then values.one else values.zero

/- Write true at index `b`. -/
def set (values : Values) (b : Bool) : Values :=
  if b then { values with one := true }
  else { values with zero := true }

@[simp] theorem get_mk_false (zero one : Bool) :
    get ⟨zero, one⟩ false = zero := rfl

@[simp] theorem get_mk_true (zero one : Bool) :
    get ⟨zero, one⟩ true = one := rfl

/- Writing a flag leaves the other one. -/
@[simp] theorem get_set (values : Values) (b c : Bool) :
    (values.set b).get c = (values.get c || (b == c)) := by
  cases b <;> cases c <;> simp [get, set]

/- Both flags determine `values`. -/
theorem ext_get {values values' : Values}
    (h : ∀ b, values.get b = values'.get b) :
    values = values' := by
  cases values
  cases values'
  have hZero := h false
  have hOne := h true
  simp only [get_mk_false, get_mk_true] at hZero hOne
  rw [hZero, hOne]

/- The slice that holds only `b`. -/
def only (b : Bool) : Values :=
  set ⟨false, false⟩ b

/- Only the flag of the value is set. -/
@[simp] theorem get_only (b c : Bool) :
    (only b).get c = (b == c) := by
  cases b <;> cases c <;> rfl

end Values

/- Message types 1 to 4. -/
inductive BAMsgType where
| val
| aux
| conf
| finish
deriving DecidableEq, Repr

/- A message of the agreement, with the flags of a CONF. -/
structure BAMsg (n : Nat) where
  id : Fin n
  loop : Nat
  type : BAMsgType
  value : Bool
  confValue : Values
deriving DecidableEq, Repr

end BinaryAgreement

end Jumbo

------------------------------------------------------------
-- The State of One Loop
------------------------------------------------------------

namespace Jumbo

namespace BinaryAgreement

/- Where the goroutine `sendsencondval` stands. -/
inductive SecondVal where
| none
| waiting
| sent
| done
deriving DecidableEq, Repr

/- Where the goroutine `sendconf` stands. -/
inductive SendConf where
| none
| pending
| done
deriving DecidableEq, Repr

/-
  `LoopInfo` of the source together with the local variables
  of the goroutines of that loop.
-/
structure LoopInfo where
  input : Bool
  values : Values
  valueReady : Bool → Nat
  valueReadyConf : Bool → Nat
  sendValSignal : List Bool
  auxReady : Bool → Nat
  auxMixReady : Nat
  sendAuxSignal : List Bool
  confReady : Bool → Nat
  confMixReady : Nat
  -- handle_val
  vCount : Bool → Nat
  isAuxSent : Bool
  -- handle_aux
  auxCount : Bool → Nat
  auxMixCount : Nat
  -- handle_conf
  confCount : Bool → Nat
  confMixCount : Nat
  -- sendval: has0sent and has1sent, and a value that has been
  -- broadcast while the end of the iteration is still to run
  valSent : Bool → Bool
  sendValNow : Option Bool
  secondVal : SecondVal
  -- sendaux: has0sent and has1sent
  auxSent : Bool → Bool
  sendConf : SendConf

/- A loop that has just been set up with its first signal. -/
def LoopInfo.new (input : Bool) : LoopInfo where
  input := input
  values := ⟨false, false⟩
  valueReady := fun _ => 0
  valueReadyConf := fun _ => 0
  sendValSignal := [input]
  auxReady := fun _ => 0
  auxMixReady := 0
  sendAuxSignal := []
  confReady := fun _ => 0
  confMixReady := 0
  vCount := fun _ => 0
  isAuxSent := false
  auxCount := fun _ => 0
  auxMixCount := 0
  confCount := fun _ => 0
  confMixCount := 0
  valSent := fun _ => false
  sendValNow := none
  secondVal := .none
  auxSent := fun _ => false
  sendConf := .none

/- Add one at index `b`. -/
def bump (count : Bool → Nat) (b : Bool) : Bool → Nat :=
  fun c => if c = b then count c + 1 else count c

/- Take one away at index `b`. -/
def unbump (count : Bool → Nat) (b : Bool) : Bool → Nat :=
  fun c => if c = b then count c - 1 else count c

/- Set the flag at index `b`. -/
def mark (flag : Bool → Bool) (b : Bool) : Bool → Bool :=
  fun c => if c = b then true else flag c

/- One message more for a value. -/
@[simp] theorem bump_apply (count : Bool → Nat) (b c : Bool) :
    bump count b c = count c + if c = b then 1 else 0 := by
  by_cases h : c = b <;> simp [bump, h]

/- One signal less for a value. -/
@[simp] theorem unbump_apply (count : Bool → Nat) (b c : Bool) :
    unbump count b c =
      count c - if c = b then 1 else 0 := by
  by_cases h : c = b <;> simp [unbump, h]

/- The mark of a value, the others as before. -/
@[simp] theorem mark_apply (flag : Bool → Bool) (b c : Bool) :
    mark flag b c = (flag c || (c == b)) := by
  by_cases h : c = b <;> simp [mark, h]

/- `handle_val` on a message of this loop. -/
def handleVal
    (faults : Nat) (info : LoopInfo) (value : Bool) :
    LoopInfo :=
  let info :=
    { info with vCount := bump info.vCount value }
  if info.vCount value = faults + 1 then
    { info with
      sendValSignal := info.sendValSignal ++ [value] }
  else if info.vCount value = faults * 2 + 1 then
    let info :=
      { info with
        valueReady := bump info.valueReady value
        valueReadyConf := bump info.valueReadyConf value
        values := info.values.set value }
    if info.isAuxSent then info
    else
      { info with
        sendAuxSignal := info.sendAuxSignal ++ [value]
        isAuxSent := true }
  else info

/- `handle_aux` on a message of this loop. -/
def handleAux
    (faults : Nat) (info : LoopInfo) (value : Bool) :
    LoopInfo :=
  let info :=
    { info with
      auxCount := bump info.auxCount value
      auxMixCount := info.auxMixCount + 1 }
  let info :=
    if info.auxCount value = faults * 2 + 1 then
      { info with auxReady := bump info.auxReady value }
    else info
  if info.auxMixCount = faults * 2 + 1 then
    { info with auxMixReady := info.auxMixReady + 1 }
  else info

/- The part of `handle_conf` that counts any message. -/
def countConfMix
    (faults : Nat) (info : LoopInfo) : LoopInfo :=
  let info :=
    { info with confMixCount := info.confMixCount + 1 }
  if info.confMixCount = faults * 2 + 1 then
    { info with confMixReady := info.confMixReady + 1 }
  else info

/- The part of `handle_conf` that counts a single value. -/
def countConf
    (faults : Nat) (info : LoopInfo) (value : Bool) :
    LoopInfo :=
  let info :=
    { info with confCount := bump info.confCount value }
  let info := countConfMix faults info
  if info.confCount value = faults * 2 + 1 then
    { info with confReady := bump info.confReady value }
  else info

/- `handle_conf` on a message of this loop. -/
def handleConf
    (faults : Nat) (info : LoopInfo) (confValue : Values) :
    LoopInfo :=
  if confValue.zero && confValue.one then
    countConfMix faults info
  else if confValue.zero && !confValue.one then
    countConf faults info false
  else if !confValue.zero && confValue.one then
    countConf faults info true
  else info

end BinaryAgreement

end Jumbo

------------------------------------------------------------
-- The Main Loop
------------------------------------------------------------

namespace Jumbo

namespace BinaryAgreement

/-
  The flags of one waiting phase of `Launch`: `v0`, `v1`,
  then `a0`, `a1`, `amix` or `c0`, `c1`, `cmix`.
-/
structure Flags where
  value : Bool → Bool
  quorum : Bool → Bool
  mix : Bool

/- No signal has been taken yet. -/
def Flags.new : Flags where
  value := fun _ => false
  quorum := fun _ => false
  mix := false

/- The cases of a select statement of `Launch`. -/
inductive Signal where
| value (b : Bool)
| quorum (b : Bool)
| mix
deriving DecidableEq, Repr

/- One case of the select: new flags and `confready`. -/
def Flags.select (flags : Flags) : Signal → Flags × Bool
| .value b =>
    ({ flags with value := mark flags.value b },
      flags.quorum b || (flags.value (!b) && flags.mix))
| .quorum b =>
    ({ flags with quorum := mark flags.quorum b },
      flags.value b)
| .mix =>
    ({ flags with mix := true },
      flags.value false && flags.value true)

/- Where the main goroutine `Launch` stands. -/
inductive Main where
| idle
| conf (flags : Flags)
| coin (flags : Flags)
| elect
| decided (value : Bool)

/- The main goroutine has decided and waits for the output. -/
def Main.isDecided : Main → Bool
| .decided _ => true
| _ => false

/- Receive a signal of the phase before `sendconf`. -/
def LoopInfo.takeConf
    (info : LoopInfo) : Signal → Option LoopInfo
| .value b =>
    if 0 < info.valueReady b then
      some { info with
        valueReady := unbump info.valueReady b }
    else none
| .quorum b =>
    if 0 < info.auxReady b then
      some { info with
        auxReady := unbump info.auxReady b }
    else none
| .mix =>
    if 0 < info.auxMixReady then
      some { info with
        auxMixReady := info.auxMixReady - 1 }
    else none

/- Receive a signal of the phase before the coin. -/
def LoopInfo.takeCoin
    (info : LoopInfo) : Signal → Option LoopInfo
| .value b =>
    if 0 < info.valueReadyConf b then
      some { info with
        valueReadyConf := unbump info.valueReadyConf b }
    else none
| .quorum b =>
    if 0 < info.confReady b then
      some { info with
        confReady := unbump info.confReady b }
    else none
| .mix =>
    if 0 < info.confMixReady then
      some { info with
        confMixReady := info.confMixReady - 1 }
    else none

/- The parameters of `NewBA` shared by all parties. -/
structure Config where
  sha256 : List UInt8 → List UInt8
  mvbaround : Nat
  baround : Nat

/- `IntToBytes`: a 32-bit integer in big-endian order. -/
def intToBytes (x : Nat) : List UInt8 :=
  [UInt8.ofNat (x / 2 ^ 24), UInt8.ofNat (x / 2 ^ 16),
    UInt8.ofNat (x / 2 ^ 8), UInt8.ofNat x]

/- The common coin of loop `loop`. -/
def handleCoin (cfg : Config) (baLoop loop : Nat) : Bool :=
  if loop = 0 then true
  else
    let hash := cfg.sha256
      (intToBytes
        (baLoop + cfg.mvbaround * 100 + cfg.baround * 10 +
          loop))
    (hash.headD 0).toNat % 2 == 0

/-
  `BA` of the source with the variables of `Launch` and
  `handle_finish`. `output` is what went to `outputCH`; the
  channel `close` is closed exactly when it is set.
-/
structure BA where
  loop : Nat
  loops : Nat → LoopInfo
  main : Main
  finishCount : Bool → Nat
  sendFinishSignal : List Bool
  -- goroutines sendfinish that wait for a signal
  sendFinish : Nat
  secondInput : Nat
  output : Option Bool

/- `NewBA`, before `Launch` has run. -/
def BA.new : BA where
  loop := 0
  loops := fun _ => LoopInfo.new false
  main := .idle
  finishCount := fun _ => 0
  sendFinishSignal := []
  sendFinish := 0
  secondInput := 0
  output := none

namespace BA

/- The loop that the main goroutine is in. -/
def info (ba : BA) : LoopInfo :=
  ba.loops ba.loop

/- What the goroutines of a loop have changed. -/
def setLoop (ba : BA) (loop : Nat) (info : LoopInfo) : BA :=
  { ba with loops := Function.update ba.loops loop info }

/- Set up a loop and start its goroutines. -/
def startLoop (ba : BA) (loop : Nat) (input : Bool) : BA :=
  { ba with
    loop := loop
    loops := Function.update ba.loops loop
      (LoopInfo.new input)
    main := .conf Flags.new
    sendFinish := ba.sendFinish + 1 }

/- The rest of a loop of `Launch` once the coin is ready. -/
def elect (cfg : Config) (ba : BA) : BA :=
  let coin := handleCoin cfg ba.loop ba.loop
  let values := ba.info.values
  if values.zero && values.one then
    ba.startLoop (ba.loop + 1) coin
  else if values.zero && !coin then
    { ba with
      sendFinishSignal := ba.sendFinishSignal ++ [false]
      main := .decided false }
  else if values.one && coin then
    { ba with
      sendFinishSignal := ba.sendFinishSignal ++ [true]
      main := .decided true }
  else
    ba.startLoop (ba.loop + 1) (!coin)

end BA

/- `handle_finish`; it returns after the output. -/
def handleFinish
    (faults : Nat) (ba : BA) (value : Bool) : BA :=
  let ba :=
    { ba with finishCount := bump ba.finishCount value }
  if ba.finishCount value = faults + 1 then
    { ba with
      sendFinishSignal := ba.sendFinishSignal ++ [value] }
  else if ba.finishCount value = faults * 2 + 1 then
    { ba with output := some value }
  else ba

/-
  `loopinfo.values` is a slice, so the copy of a CONF message
  that a party keeps for itself shows the values at the time
  it is counted.
-/
def confValueAt
    {n : Nat} (id : Fin n) (info : LoopInfo)
    (m : BAMsg n) : Values :=
  if m.id = id then info.values else m.confValue

end BinaryAgreement

end Jumbo

------------------------------------------------------------
-- Steps of One Party
------------------------------------------------------------

namespace Jumbo

namespace BinaryAgreement

/- Iterations of the goroutines of one party. -/
inductive Event where
| sendVal (loop : Nat)
| sendValDone (loop : Nat)
| sendSencondVal
| sendSencondValDone
| sendAux (loop : Nat)
| sendConf (loop : Nat)
| sendFinish
| mainConf (signal : Signal)
| mainCoin (signal : Signal)
| mainElect
deriving DecidableEq, Repr

/- The number of parties that may fail. -/
def faults (n : Nat) : Nat := (n - 1) / 3

namespace BA

variable {n : Nat}

/- `Launch` has been called. -/
def launched (ba : BA) : Bool :=
  match ba.main with
  | .idle => false
  | _ => true

/- A VAL, AUX, CONF or FINISH message reaches its handler. -/
def receive
    (id : Fin n) (ba : BA) (m : BAMsg n) : Option BA :=
  match m.type with
  | .val =>
      if m.loop ≤ ba.loop then
        some (ba.setLoop m.loop
          (handleVal (faults n) (ba.loops m.loop) m.value))
      else none
  | .aux =>
      if m.loop ≤ ba.loop then
        some (ba.setLoop m.loop
          (handleAux (faults n) (ba.loops m.loop) m.value))
      else none
  | .conf =>
      if m.loop ≤ ba.loop then
        some (ba.setLoop m.loop
          (handleConf (faults n) (ba.loops m.loop)
            (confValueAt id (ba.loops m.loop) m)))
      else none
  | .finish =>
      if ba.output.isNone then
        some (handleFinish (faults n) ba m.value)
      else none

/- What `sendval` and `sendsencondval` broadcast. -/
def valMsg (id : Fin n) (loop : Nat) (value : Bool) :
    BAMsg n :=
  ⟨id, loop, .val, value, ⟨false, false⟩⟩

/- What `sendaux` broadcasts. -/
def auxMsg (id : Fin n) (loop : Nat) (value : Bool) :
    BAMsg n :=
  ⟨id, loop, .aux, value, ⟨false, false⟩⟩

/- What `sendconf` broadcasts. -/
def confMsg (id : Fin n) (loop : Nat) (values : Values) :
    BAMsg n :=
  ⟨id, loop, .conf, false, values⟩

/- The loop of a FINISH message is left at zero. -/
def finishMsg (id : Fin n) (value : Bool) : BAMsg n :=
  ⟨id, 0, .finish, value, ⟨false, false⟩⟩

/- `sendval` takes a signal and broadcasts a new value. -/
def sendVal
    (id : Fin n) (ba : BA) (loop : Nat) :
    Option (BA × List (BAMsg n)) :=
  let info := ba.loops loop
  -- the goroutine has returned once both values are sent
  if info.valSent false && info.valSent true then none
  else
    match info.sendValNow, info.sendValSignal with
    | none, value :: rest =>
        if info.valSent value then
          some (ba.setLoop loop
            { info with sendValSignal := rest }, [])
        else
          some (ba.setLoop loop
            { info with
              sendValSignal := rest
              sendValNow := some value
              secondVal :=
                if loop = 0 && !value then .waiting
                else info.secondVal },
            [valMsg id loop value])
    | _, _ => none

/- The rest of that iteration of `sendval`. -/
def sendValDone
    (ba : BA) (loop : Nat) :
    Option (BA × List (BAMsg n)) :=
  let info := ba.loops loop
  match info.sendValNow with
  | some value =>
      let info :=
        if value && loop = 0 then
          { info with
            sendAuxSignal := info.sendAuxSignal ++ [true]
            values := info.values.set true }
        else info
      some (ba.setLoop loop
        { info with
          valSent := mark info.valSent value
          sendValNow := none }, [])
  | none => none

/- `sendsencondval`, which only loop 0 starts. -/
def sendSencondVal
    (id : Fin n) (ba : BA) :
    Option (BA × List (BAMsg n)) :=
  let info := ba.loops 0
  if info.secondVal = .waiting ∧ 0 < ba.secondInput then
    some
      ({ ba.setLoop 0 { info with secondVal := .sent } with
          secondInput := ba.secondInput - 1 },
        [valMsg id 0 true])
  else none

/- The end of `sendsencondval`, after the broadcast. -/
def sendSencondValDone
    (ba : BA) : Option (BA × List (BAMsg n)) :=
  let info := ba.loops 0
  if info.secondVal = .sent then
    some (ba.setLoop 0
      { info with
        secondVal := .done
        sendAuxSignal := info.sendAuxSignal ++ [true]
        values := info.values.set true }, [])
  else none

/- An iteration of `sendaux`; a value goes out only once. -/
def sendAux
    (id : Fin n) (ba : BA) (loop : Nat) :
    Option (BA × List (BAMsg n)) :=
  let info := ba.loops loop
  if info.auxSent false && info.auxSent true then none
  else
    match info.sendAuxSignal with
    | value :: rest =>
        if info.auxSent value then
          some (ba.setLoop loop
            { info with sendAuxSignal := rest }, [])
        else
          some (ba.setLoop loop
            { info with
              sendAuxSignal := rest
              auxSent := mark info.auxSent value },
            [auxMsg id loop value])
    | [] => none

/- `sendconf` with the flags as they are now. -/
def sendConf
    (id : Fin n) (ba : BA) (loop : Nat) :
    Option (BA × List (BAMsg n)) :=
  let info := ba.loops loop
  if info.sendConf = .pending then
    some (ba.setLoop loop { info with sendConf := .done },
      [confMsg id loop info.values])
  else none

/- One of the waiting `sendfinish` goroutines runs. -/
def sendFinishStep
    (id : Fin n) (ba : BA) :
    Option (BA × List (BAMsg n)) :=
  match ba.sendFinishSignal with
  | value :: rest =>
      if 0 < ba.sendFinish then
        some
          ({ ba with
              sendFinishSignal := rest
              sendFinish := ba.sendFinish - 1 },
            [finishMsg id value])
      else none
  | [] => none

/- A case of the select before `sendconf`. -/
def mainConf
    (ba : BA) (signal : Signal) :
    Option (BA × List (BAMsg n)) :=
  match ba.main, ba.info.takeConf signal with
  | .conf flags, some info =>
      let (flags, ready) := flags.select signal
      if ready then
        some
          ({ ba.setLoop ba.loop
                { info with sendConf := .pending } with
              main := .coin Flags.new }, [])
      else
        some
          ({ ba.setLoop ba.loop info with
              main := .conf flags }, [])
  | _, _ => none

/- A case of the select before the coin. -/
def mainCoin
    (ba : BA) (signal : Signal) :
    Option (BA × List (BAMsg n)) :=
  match ba.main, ba.info.takeCoin signal with
  | .coin flags, some info =>
      let (flags, ready) := flags.select signal
      some
        ({ ba.setLoop ba.loop info with
            main := if ready then .elect
              else .coin flags }, [])
  | _, _ => none

/- The main goroutine looks at the coin and at `values`. -/
def mainElect
    (cfg : Config) (ba : BA) :
    Option (BA × List (BAMsg n)) :=
  match ba.main with
  | .elect => some (ba.elect cfg, [])
  | _ => none

/-
  One iteration of a goroutine, with the messages it
  broadcasts. Goroutines of earlier loops keep running.
-/
def step
    (cfg : Config) (id : Fin n) (ba : BA) :
    Event → Option (BA × List (BAMsg n))
| .sendVal loop =>
    if loop ≤ ba.loop then ba.sendVal id loop else none
| .sendValDone loop =>
    if loop ≤ ba.loop then ba.sendValDone loop else none
| .sendSencondVal => ba.sendSencondVal id
| .sendSencondValDone => ba.sendSencondValDone
| .sendAux loop =>
    if loop ≤ ba.loop then ba.sendAux id loop else none
| .sendConf loop =>
    if loop ≤ ba.loop then ba.sendConf id loop else none
| .sendFinish => ba.sendFinishStep id
| .mainConf signal => ba.mainConf signal
| .mainCoin signal => ba.mainCoin signal
| .mainElect => ba.mainElect cfg

end BA

end BinaryAgreement

end Jumbo
