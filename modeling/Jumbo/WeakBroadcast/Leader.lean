import Jumbo.WeakBroadcast.Follower

/-
  The broadcaster of the weak reliable broadcast.

  It sends its input to everybody and an ECHO and a READY of
  its hash, one height after the other, and counts the ECHOs
  and READYs for that hash. Its handlers read buffers of their
  own, as those of a follower do, but nobody drains them.

  Main declarations:
    * `Source`
    * `leaderEcho` and `leaderReady`
    * `BCL`
    * `BCL.exec`
-/

------------------------------------------------------------
-- Handlers
------------------------------------------------------------

namespace Jumbo

namespace WeakBroadcast

open Protocol
open Protocol.Relay
open ReliableBroadcast (Bytes)

variable {n : Nat}

/- What is broadcast, height by height. -/
structure Source (n : Nat) where
  cfg : Config
  nid : Fin n
  inputs : Nat → Bytes

namespace Source

/- The hash of an input. -/
def myhash (src : Source n) (height : Nat) : Bytes :=
  src.cfg.sha256 (src.inputs height)

/- What `sned_val` sends. -/
def val (src : Source n) (height : Nat) : Val where
  round := height
  value := src.inputs height

/- What `send_echo` and `send_ready` send. -/
def vote (src : Source n) (height : Nat) : WRBCMsg n where
  id := src.nid
  round := height
  content := src.myhash height

/- A transaction is taken to have 253 bytes here. -/
def backBlock (src : Source n) (height : Nat) : BackBlock where
  height := height
  leader := src.cfg.lid
  k := src.cfg.sid
  txcount := (src.inputs height).length / 253

end Source

/- `handle_echo` of the broadcaster, and what it signals. -/
def leaderEcho (src : Source n) :
    Handler (WRBCMsg n) (LeaderEcho n × Bool) where
  new := (LeaderEcho.new, false)
  round := WRBCMsg.round
  drains := false
  read _ height g msg :=
    let (g', fired) :=
      LeaderEcho.read height (src.myhash height)
        { g.1 with futurebuf := [] } msg
    some
      { state := (g', fired)
        later := g'.futurebuf
        returned := g'.returned }

/- `handle_ready` of the broadcaster. -/
def leaderReady (src : Source n) :
    Handler (WRBCMsg n) (LeaderReady n × ReadyFired) where
  new := (LeaderReady.new, ⟨false, false⟩)
  round := WRBCMsg.round
  drains := false
  read _ height g msg :=
    let (g', fired) :=
      LeaderReady.read height (src.myhash height)
        { g.1 with futurebuf := [] } msg
    some
      { state := (g', fired)
        later := g'.futurebuf
        returned := g'.returned }

end WeakBroadcast

end Jumbo

------------------------------------------------------------
-- Start and Its Goroutines
------------------------------------------------------------

namespace Jumbo

namespace WeakBroadcast

open Protocol
open Protocol.Relay
open ReliableBroadcast (Bytes)

variable {n : Nat}

/- Where the main loop of the leader is. -/
inductive LeaderPc
| input
| echo
| ready
| readysignal
| outputsignal
| close
| next
deriving DecidableEq

/-
  `sending`, `echoing` and `readying` are the goroutines that
  send VAL, ECHO and READY, by their heights.
-/
structure BCL (n : Nat) where
  height : Nat
  pc : LeaderPc
  echo : Lane (WRBCMsg n) (LeaderEcho n × Bool)
  ready : Lane (WRBCMsg n) (LeaderReady n × ReadyFired)
  readysignal : Nat
  outputsignal : Nat
  sending : List Nat
  echoing : List Nat
  readying : List Nat
  output : List BackBlock

/- A message comes, or a goroutine of the leader steps. -/
inductive BCLAction (n : Nat)
| readyIn (msg : WRBCMsg n)
| echoIn (msg : WRBCMsg n)
| sendVal (k : Nat)
| sendEcho (k : Nat)
| sendReady (k : Nat)
| start
| echo (i : Nat) (act : Act)
| ready (i : Nat) (act : Act)
deriving DecidableEq

namespace BCL

/- The leader before its first round. -/
def init (src : Source n) : BCL n where
  height := 0
  pc := .input
  echo := Lane.init (leaderEcho src)
  ready := Lane.init (leaderReady src)
  readysignal := 0
  outputsignal := 0
  sending := []
  echoing := []
  readying := []
  output := []

/- One step of `Start`. -/
def start (src : Source n) (s : BCL n) : Option (BCL n) :=
  match s.pc with
  | .input =>
      some { s with
        sending := s.sending ++ [s.height]
        echoing := s.echoing ++ [s.height]
        pc := .echo }
  | .echo => do
      let echo ← s.echo.prepare (leaderEcho src)
      some { s with echo := echo, pc := .ready }
  | .ready => do
      let ready ← s.ready.prepare (leaderReady src)
      some { s with ready := ready, pc := .readysignal }
  | .readysignal =>
      if s.readysignal = 0 then none
      else
        some { s with
          readysignal := s.readysignal - 1
          readying := s.readying ++ [s.height]
          pc := .outputsignal }
  | .outputsignal =>
      if s.outputsignal = 0 then none
      else
        some { s with
          outputsignal := s.outputsignal - 1
          output := s.output ++ [src.backBlock s.height]
          pc := .close }
  | .close => do
      let echo ← s.echo.close
      let ready ← s.ready.close
      some { s with echo := echo, ready := ready, pc := .next }
  | .next => do
      let echo ← s.echo.next
      let ready ← s.ready.next
      some { s with
        height := s.height + 1
        pc := .input
        echo := echo
        ready := ready
        readysignal := 0
        outputsignal := 0 }

/- What comes on the channels of this round. -/
def signalled
    (s : BCL n) (i : Nat) (act : Act)
    (relay output : Bool) : BCL n :=
  if act = .work ∧ i = s.height then
    { s with
      readysignal := s.readysignal + relay.toNat
      outputsignal := s.outputsignal + output.toNat }
  else s

/-
  `handle_msgin` looks at the height. The broadcaster's own
  ECHO and READY come when its goroutines have sent them.
-/
def exec (src : Source n) (s : BCL n) :
    BCLAction n → Option (BCL n)
| .readyIn msg =>
    if s.height ≤ msg.round then
      some { s with
        ready := s.ready.arrive (leaderReady src) msg }
    else some s
| .echoIn msg =>
    if s.height ≤ msg.round then
      some { s with
        echo := s.echo.arrive (leaderEcho src) msg }
    else some s
| .sendVal k => do
    let height ← s.sending[k]?
    -- `sned_val` logs the first ten bytes, or panics
    if (src.inputs height).length < 10 then none
    else some { s with sending := s.sending.eraseIdx k }
| .sendEcho k => do
    let height ← s.echoing[k]?
    some { s with
      echoing := s.echoing.eraseIdx k
      echo :=
        s.echo.arrive (leaderEcho src) (src.vote height) }
| .sendReady k => do
    let height ← s.readying[k]?
    some { s with
      readying := s.readying.eraseIdx k
      ready :=
        s.ready.arrive (leaderReady src) (src.vote height) }
| .start => s.start src
| .echo i act => do
    let echo ← s.echo.act (leaderEcho src) i act
    some
      ({ s with echo := echo }.signalled i act
        (echo.workers i).state.2 false)
| .ready i act => do
    let ready ← s.ready.act (leaderReady src) i act
    let fired := (ready.workers i).state.2
    some
      ({ s with ready := ready }.signalled i act
        fired.relay fired.output)

/- What a step sends to the others. -/
def vals (src : Source n) (s : BCL n) :
    BCLAction n → List Val
| .sendVal k => s.sending[k]?.toList.map src.val
| _ => []

/- The ECHO that a step sends. -/
def echoes (src : Source n) (s : BCL n) :
    BCLAction n → List (WRBCMsg n)
| .sendEcho k => s.echoing[k]?.toList.map src.vote
| _ => []

/- The READY that a step sends. -/
def readies (src : Source n) (s : BCL n) :
    BCLAction n → List (WRBCMsg n)
| .sendReady k => s.readying[k]?.toList.map src.vote
| _ => []

end BCL

end WeakBroadcast

end Jumbo
