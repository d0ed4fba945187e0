import Mathlib.Algebra.GroupWithZero.Nat
import Mathlib.Data.Fintype.Card
import Mathlib.Logic.Function.Basic

/-
  The goroutines of the reliable broadcast with finish at the
  broadcaster and at a follower.

  A handler is a state with a function that reads one message
  and says what it signals; the channels between the handlers
  and the goroutines they wake are lists with a capacity.

  Main declarations:
    * `RBCMsg`
    * `HandleEcho.read`
    * `HandleReady.read`
    * `HandleFinish.read`
    * `checkInputRBC`
    * `BCF`
    * `BCL`
-/

------------------------------------------------------------
-- Messages
------------------------------------------------------------

namespace Jumbo

namespace ReliableBroadcast

/- A byte slice; the slice without bytes is `nil`. -/
abbrev Bytes := List UInt8

/- Message types 1 to 4, and any other number. -/
inductive RBCMsgType where
| val
| echo
| ready
| finish
| other
deriving DecidableEq, Repr

/- A message of the broadcast. -/
structure RBCMsg (n : Nat) where
  id : Fin n
  round : Int
  type : RBCMsgType
  root : Bytes
deriving DecidableEq, Repr

/- `threshold` of `NewBroadcast_leader` and `_follower`. -/
def threshold (num : Nat) : Nat := (num - 1) / 3

/- Add one to the count of a value. -/
def increment (count : Bytes → Nat) (value : Bytes) :
    Bytes → Nat :=
  Function.update count value (count value + 1)

/- The count of one value grows by one. -/
theorem increment_apply
    (count : Bytes → Nat) (value other : Bytes) :
    increment count value other =
      count other + if value = other then 1 else 0 := by
  by_cases h : value = other
  · subst h
    simp [increment]
  · simp [increment, h, Function.update_of_ne (Ne.symm h)]

/- Send into a buffered channel unless it is full. -/
def push {α : Type} (cap : Nat) (channel : List α) :
    Option α → Option (List α)
| none => some channel
| some value =>
    if channel.length < cap then some (channel ++ [value])
    else none

end ReliableBroadcast

end Jumbo

------------------------------------------------------------
-- Handlers of a Follower
------------------------------------------------------------

namespace Jumbo

namespace ReliableBroadcast

/- The local variables of a follower's `handle_echo`. -/
structure HandleEcho where
  echomap : Bytes → Nat
  echocount : Nat
  returned : Bool

/- The handler before its first message. -/
def HandleEcho.new : HandleEcho := ⟨fun _ => 0, 0, false⟩

/- One message of `handle_echo`, and what it signals. -/
def HandleEcho.read
    (num : Nat) (g : HandleEcho) (value : Bytes) :
    HandleEcho × Option Bytes :=
  let echocount := g.echocount + 1
  let echomap := increment g.echomap value
  (⟨echomap, echocount, decide (echocount = num)⟩,
    if echomap value = threshold num * 2 + 1 then some value
    else none)

/- The local variables of a follower's `handle_ready`. -/
structure HandleReady where
  readymap : Bytes → Nat
  readycount : Nat
  returned : Bool

/- The handler before its first message. -/
def HandleReady.new : HandleReady := ⟨fun _ => 0, 0, false⟩

/-
  What one READY message makes `handle_ready` do: signal
  `send_ready`; send FINISH, output and return.
-/
structure ReadyFired where
  relay : Bool
  deliver : Bool
deriving DecidableEq, Repr

/- Readies are counted for each value on its own. -/
def HandleReady.read
    (num : Nat) (g : HandleReady) (value : Bytes) :
    HandleReady × ReadyFired :=
  let readymap := increment g.readymap value
  let fired : ReadyFired :=
    { relay :=
        decide (readymap value = threshold num + 1)
      deliver :=
        decide (readymap value = threshold num * 2 + 1) }
  (⟨readymap, g.readycount + 1, fired.deliver⟩, fired)

/- The local variables of a follower's `handle_finish`. -/
structure HandleFinish where
  finishmap : Bytes → Nat
  finishcount : Nat
  returned : Bool

/- The handler before its first message. -/
def HandleFinish.new : HandleFinish := ⟨fun _ => 0, 0, false⟩

/- FINISH messages are counted for each value. -/
def HandleFinish.read
    (num : Nat) (g : HandleFinish) (value : Bytes) :
    HandleFinish × Bool :=
  let finishmap := increment g.finishmap value
  let deliver :=
    decide (finishmap value = threshold num * 2 + 1)
  (⟨finishmap, g.finishcount + 1, deliver⟩, deliver)

/-
  One row of the loop of `check_input_RBC`: the heights of
  broadcaster `i` against the entries `j * num + i` of the
  proposal, where an index out of range panics.
-/
def checkRow
    (heights : List Int) (num i : Nat) :
    Nat → List Int → Option Bool
| _, [] => some true
| j, height :: row =>
    match heights[j * num + i]? with
    | none => none
    | some wanted =>
        if height < wanted then some false
        else checkRow heights num i (j + 1) row

/- The rows of the bitmap against the heights, one by one. -/
def checkRows
    (heights : List Int) (num : Nat) :
    Nat → List (List Int) → Option Bool
| _, [] => some true
| i, row :: rows =>
    match checkRow heights num i 0 row with
    | some true => checkRows heights num (i + 1) rows
    | stop => stop

/-
  One turn of the loop of `check_input_RBC`: `none` is a
  panic, `some false` waits for larger heights.
-/
def checkInputRBC
    (unmarshal : Bytes → Option (List Int))
    (input : Bytes) (heightsnow : List (List Int)) :
    Option Bool :=
  match unmarshal input with
  | none => none
  | some heights =>
      checkRows heights heightsnow.length 0 heightsnow

end ReliableBroadcast

end Jumbo

------------------------------------------------------------
-- Handlers of the Broadcaster
------------------------------------------------------------

namespace Jumbo

namespace ReliableBroadcast

/-
  One message of the broadcaster's `handle_echo`: the new
  count, and whether it signals, which is checked whether or
  not this message was counted.
-/
def leaderHandleEcho
    (num : Nat) (input : Bytes) (echocount : Nat)
    (root : Bytes) : Nat × Bool :=
  let echocount :=
    if root = input then echocount + 1 else echocount
  (echocount, decide (echocount = threshold num * 2 + 1))

/- One message of the broadcaster's `handle_ready`. -/
def leaderHandleReady
    (num : Nat) (input : Bytes) (readycount : Nat)
    (root : Bytes) : Nat × ReadyFired :=
  if root = input then
    (readycount + 1,
      { relay := decide (readycount + 1 = threshold num + 1)
        deliver :=
          decide (readycount + 1 = threshold num * 2) })
  else (readycount, ⟨false, false⟩)

/- One message of the broadcaster's `handle_finish`. -/
def leaderHandleFinish
    (num : Nat) (input : Bytes) (finishcount : Nat)
    (root : Bytes) : Nat × Bool :=
  if root = input then
    (finishcount + 1,
      decide (finishcount + 1 = threshold num * 2))
  else (finishcount, false)

end ReliableBroadcast

end Jumbo

------------------------------------------------------------
-- The Two Roles
------------------------------------------------------------

namespace Jumbo

namespace ReliableBroadcast

/- `BC_f` with the states of its goroutines. -/
structure BCF where
  echo : HandleEcho
  ready : HandleReady
  finish : HandleFinish
  readysignal : List Bytes
  -- send_ready has taken its one signal
  readySent : Bool
  output1signal : List Bytes
  output2signal : List Bytes
  output1 : List Bytes
  output2 : List Bytes

/- A follower before its first message. -/
def BCF.new : BCF where
  echo := .new
  ready := .new
  finish := .new
  readysignal := []
  readySent := false
  output1signal := []
  output2signal := []
  output1 := []
  output2 := []

/- `BC_l` with the states of its goroutines. -/
structure BCL where
  valSent : Bool
  echoSent : Bool
  echocount : Nat
  readycount : Nat
  readyReturned : Bool
  finishcount : Nat
  finishReturned : Bool
  readysignal : List Unit
  readySent : Bool
  output1signal : List Unit
  output2signal : List Unit
  output1 : List Bytes
  output2 : List Bytes

/- The leader before its first message. -/
def BCL.new : BCL where
  valSent := false
  echoSent := false
  echocount := 0
  readycount := 0
  readyReturned := false
  finishcount := 0
  finishReturned := false
  readysignal := []
  readySent := false
  output1signal := []
  output2signal := []
  output1 := []
  output2 := []

/-
  What reading a message does: the reader waits, the process
  panics, or it goes on and broadcasts.
-/
inductive Outcome (σ M : Type) where
| blocked
| panic
| next (state : σ) (ms : List M)

/- The parameters of one instance. -/
structure Config (n : Nat) where
  lid : Fin n
  round : Int
  input : Bytes
  unmarshal : Bytes → Option (List Int)

variable {n : Nat}

/- What `send_echo` broadcasts. -/
def echoMsg (cfg : Config n) (id : Fin n) (root : Bytes) :
    RBCMsg n :=
  ⟨id, cfg.round, .echo, root⟩

/- What `send_ready` broadcasts. -/
def readyMsg (cfg : Config n) (id : Fin n) (root : Bytes) :
    RBCMsg n :=
  ⟨id, cfg.round, .ready, root⟩

/- What `send_finish` broadcasts. -/
def finishMsg (cfg : Config n) (id : Fin n) (root : Bytes) :
    RBCMsg n :=
  ⟨id, cfg.round, .finish, root⟩

/- What the leader broadcasts first. -/
def valMsg (cfg : Config n) : RBCMsg n :=
  ⟨cfg.lid, cfg.round, .val, cfg.input⟩

namespace BCF

/- `handle_val`, whose check may wait or panic. -/
def handleVal
    (cfg : Config n) (id : Fin n)
    (heightsnow : List (List Int)) (closeval : Bool)
    (bcf : BCF) (root : Bytes) : Outcome BCF (RBCMsg n) :=
  if closeval then .blocked
  else
    match checkInputRBC cfg.unmarshal root heightsnow with
    | none => .panic
    | some false => .blocked
    | some true => .next bcf [echoMsg cfg id root]

/- The follower reads an ECHO. -/
def handleEcho
    (bcf : BCF) (root : Bytes) : Outcome BCF (RBCMsg n) :=
  if bcf.echo.returned then .blocked
  else
    let (echo, fired) := bcf.echo.read n root
    match push 2 bcf.readysignal fired with
    | none => .blocked
    | some readysignal =>
        .next { bcf with
          echo := echo
          readysignal := readysignal } []

/- The follower reads a READY and may send FINISH. -/
def handleReady
    (cfg : Config n) (id : Fin n)
    (bcf : BCF) (root : Bytes) : Outcome BCF (RBCMsg n) :=
  if bcf.ready.returned then .blocked
  else
    let (ready, fired) := bcf.ready.read n root
    let relay := if fired.relay then some root else none
    let deliver := if fired.deliver then some root else none
    match push 2 bcf.readysignal relay,
        push 2 bcf.output1signal deliver with
    | some readysignal, some output1signal =>
        .next
          { bcf with
            ready := ready
            readysignal := readysignal
            output1signal := output1signal }
          (if fired.deliver then [finishMsg cfg id root]
            else [])
    | _, _ => .blocked

/- The follower reads a FINISH. -/
def handleFinish
    (bcf : BCF) (root : Bytes) : Outcome BCF (RBCMsg n) :=
  if bcf.finish.returned then .blocked
  else
    let (finish, fired) := bcf.finish.read n root
    match push 2 bcf.output2signal
        (if fired then some root else none) with
    | none => .blocked
    | some output2signal =>
        .next { bcf with
          finish := finish
          output2signal := output2signal } []

/- `handle_msgin` and the handler the message is for. -/
def receive
    (cfg : Config n) (id : Fin n)
    (heightsnow : List (List Int)) (closeval : Bool)
    (bcf : BCF) (m : RBCMsg n) : Outcome BCF (RBCMsg n) :=
  if m.round ≠ cfg.round then .panic
  else
    match m.type with
    | .val =>
        bcf.handleVal cfg id heightsnow closeval m.root
    | .echo => bcf.handleEcho m.root
    | .ready => bcf.handleReady cfg id m.root
    | .finish => bcf.handleFinish m.root
    | .other => .panic

/- `send_ready`: the first signal is the only one taken. -/
def sendReady
    (cfg : Config n) (id : Fin n) (bcf : BCF) :
    Option (BCF × List (RBCMsg n)) :=
  match bcf.readySent, bcf.readysignal with
  | false, value :: rest =>
      some
        ({ bcf with readysignal := rest, readySent := true },
          [readyMsg cfg id value])
  | _, _ => none

/- `Start` forwards at most two outputs. -/
def forward1 (bcf : BCF) : Option BCF :=
  match bcf.output1signal with
  | value :: rest =>
      if bcf.output1.length + bcf.output2.length < 2 then
        some { bcf with
          output1signal := rest
          output1 := bcf.output1 ++ [value] }
      else none
  | [] => none

/- The second output of the follower. -/
def forward2 (bcf : BCF) : Option BCF :=
  match bcf.output2signal with
  | value :: rest =>
      if bcf.output1.length + bcf.output2.length < 2 then
        some { bcf with
          output2signal := rest
          output2 := bcf.output2 ++ [value] }
      else none
  | [] => none

end BCF

namespace BCL

/- The leader reads an ECHO. -/
def handleEcho
    (cfg : Config n) (bcl : BCL) (root : Bytes) :
    Outcome BCL (RBCMsg n) :=
  let (echocount, fired) :=
    leaderHandleEcho n cfg.input bcl.echocount root
  match push 2 bcl.readysignal
      (if fired then some () else none) with
  | none => .blocked
  | some readysignal =>
      .next { bcl with
        echocount := echocount
        readysignal := readysignal } []

/- The leader reads a READY and may send FINISH. -/
def handleReady
    (cfg : Config n) (bcl : BCL) (root : Bytes) :
    Outcome BCL (RBCMsg n) :=
  if bcl.readyReturned then .blocked
  else
    let (readycount, fired) :=
      leaderHandleReady n cfg.input bcl.readycount root
    match push 2 bcl.readysignal
          (if fired.relay then some () else none),
        push 2 bcl.output1signal
          (if fired.deliver then some () else none) with
    | some readysignal, some output1signal =>
        .next
          { bcl with
            readycount := readycount
            readyReturned := fired.deliver
            readysignal := readysignal
            output1signal := output1signal }
          (if fired.deliver then
              [finishMsg cfg cfg.lid cfg.input]
            else [])
    | _, _ => .blocked

/- The leader reads a FINISH. -/
def handleFinish
    (cfg : Config n) (bcl : BCL) (root : Bytes) :
    Outcome BCL (RBCMsg n) :=
  if bcl.finishReturned then .blocked
  else
    let (finishcount, fired) :=
      leaderHandleFinish n cfg.input bcl.finishcount root
    match push 2 bcl.output2signal
        (if fired then some () else none) with
    | none => .blocked
    | some output2signal =>
        .next { bcl with
          finishcount := finishcount
          finishReturned := fired
          output2signal := output2signal } []

/- `handle_msgin` and the handler the message is for. -/
def receive
    (cfg : Config n) (bcl : BCL) (m : RBCMsg n) :
    Outcome BCL (RBCMsg n) :=
  if m.round ≠ cfg.round then .panic
  else
    match m.type with
    | .val => .panic
    | .echo => bcl.handleEcho cfg m.root
    | .ready => bcl.handleReady cfg m.root
    | .finish => bcl.handleFinish cfg m.root
    | .other => .panic

/- The leader sends its input. -/
def sendVal
    (cfg : Config n) (bcl : BCL) :
    Option (BCL × List (RBCMsg n)) :=
  if bcl.valSent then none
  else some ({ bcl with valSent := true }, [valMsg cfg])

/- The leader sends its own ECHO. -/
def sendEcho
    (cfg : Config n) (bcl : BCL) :
    Option (BCL × List (RBCMsg n)) :=
  if bcl.echoSent then none
  else
    some
      ({ bcl with echoSent := true },
        [echoMsg cfg cfg.lid cfg.input])

/- The leader sends its READY after the signal. -/
def sendReady
    (cfg : Config n) (bcl : BCL) :
    Option (BCL × List (RBCMsg n)) :=
  match bcl.readySent, bcl.readysignal with
  | false, _ :: rest =>
      some
        ({ bcl with readysignal := rest, readySent := true },
          [readyMsg cfg cfg.lid cfg.input])
  | _, _ => none

/- The first output of the leader. -/
def forward1 (cfg : Config n) (bcl : BCL) : Option BCL :=
  match bcl.output1signal with
  | _ :: rest =>
      if bcl.output1.length + bcl.output2.length < 2 then
        some { bcl with
          output1signal := rest
          output1 := bcl.output1 ++ [cfg.input] }
      else none
  | [] => none

/- The second output of the leader. -/
def forward2 (cfg : Config n) (bcl : BCL) : Option BCL :=
  match bcl.output2signal with
  | _ :: rest =>
      if bcl.output1.length + bcl.output2.length < 2 then
        some { bcl with
          output2signal := rest
          output2 := bcl.output2 ++ [cfg.input] }
      else none
  | [] => none

end BCL

end ReliableBroadcast

end Jumbo
