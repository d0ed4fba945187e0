import Jumbo.CodedBroadcast.Follower

/-
  The broadcaster of the coded reliable broadcast.

  It codes its input, sends every party its shard with a path
  to the root, and counts the ECHOs and READYs of the others
  for its own root. The READY of a height brings the shard of
  the next one along. Its handlers read buffers of their own,
  as those of a follower do, but nobody drains them.

  Main declarations:
    * `Source`
    * `LeaderEcho.read` and `LeaderReady.read`
    * `BCL`
    * `BCL.exec`
    * `BCL.readies` and `BCL.echoes`
-/

------------------------------------------------------------
-- Inputs
------------------------------------------------------------

namespace Jumbo

namespace CodedBroadcast

open Crypto (Bytes)
open DumboMVBA (getMerklePath number verifyPath)
open Protocol

variable {n : Nat}

/- What is broadcast, height by height, and the encoder. -/
structure Source where
  encode : Bytes → Option (List Bytes)
  inputs : Nat → Bytes

/- A message and the parties it is sent to. -/
structure Packet (n : Nat) where
  msg : RBCMsg
  dest : Fin n → Bool

/- Everybody but the sender. -/
def toOthers (p : Fin n) (msg : RBCMsg) : Packet n :=
  ⟨msg, fun q => decide (q ≠ p)⟩

namespace Source

/- The shards of a height and the tree over them. -/
def tree (cfg : Config n) (src : Source) (height : Nat) :
    Option
      (List Bytes × List (List (List UInt8)) × Bytes) := do
  let shards ← src.encode (src.inputs height)
  let (levels, root) ← MerkleTree.newTree cfg.sha shards
  some (shards, levels, root)

/- The root over the shards of an input. -/
def root (cfg : Config n) (src : Source) (height : Nat) :
    Option Bytes :=
  (src.tree cfg height).map fun (_, _, root) => root

/- The path of a party at a height. -/
def path
    (cfg : Config n) (src : Source) (height : Nat)
    (i : Fin n) : List Bytes :=
  match src.tree cfg height with
  | none => []
  | some (shards, levels, root) =>
      getMerklePath levels root shards (shards.getD i.val [])

/- The length of the input as it stands in a message. -/
def msglen (src : Source) (height : Nat) : Int32 :=
  Int32.ofNat (src.inputs height).length

/-
  The READY of a round with the paths of the height after it,
  each to its party. The first one is of the round `-1`.
-/
def readies
    (cfg : Config n) (src : Source) (lid : Fin n)
    (round : Int) (root : Bytes) (next : Nat) :
    List (Packet n) :=
  ((List.finRange n).filter (· ≠ lid)).map fun i =>
    { msg :=
        { id := number lid
          round := round
          msglen := src.msglen next
          values := src.path cfg next i
          root := root }
      dest := fun q => decide (q = i) }

/- The ECHO that the leader sends to itself. -/
def echo
    (cfg : Config n) (src : Source) (lid : Fin n)
    (height : Nat) : RBCMsg where
  id := number lid
  round := height
  msglen := src.msglen height
  values := src.path cfg height lid
  root := []

end Source

end CodedBroadcast

end Jumbo

------------------------------------------------------------
-- Handlers
------------------------------------------------------------

namespace Jumbo

namespace CodedBroadcast

open Crypto (Bytes)
open DumboMVBA (verifyPath)
open ReliableBroadcast (threshold)
open Protocol
open Protocol.Relay

variable {n : Nat}

/- `handle_echo` of the broadcaster. -/
structure LeaderEcho where
  echocount : Nat
  futurebuf : List RBCMsg
  readysignal : Nat
  returned : Bool

/- The handler before its first message. -/
def LeaderEcho.new : LeaderEcho := ⟨0, [], 0, false⟩

/- A wrong path for its own root ends the process. -/
def LeaderEcho.read
    (cfg : Config n) (myroot : Option Bytes) (height : Nat)
    (g : LeaderEcho) (msg : RBCMsg) : Option LeaderEcho :=
  if msg.round = height then
    match msg.values.getLast? with
    | none => none
    | some root =>
        if some root = myroot then
          if verifyPath cfg.sha root msg.values
              (msg.id.toInt - 1) then
            let fired :=
              decide (g.echocount + 1 = threshold n * 2)
            some { g with
              echocount := g.echocount + 1
              readysignal := if fired then 1 else 0
              returned := fired }
          else none
        else some { g with readysignal := 0 }
  else if height < msg.round then
    some { g with
      futurebuf := g.futurebuf ++ [msg]
      readysignal := 0 }
  else some { g with readysignal := 0 }

/- `handle_ready` of the broadcaster. -/
structure LeaderReady where
  readycount : Nat
  futurebuf : List RBCMsg
  readysignal : Nat
  outputsignal : Nat
  returned : Bool

/- The handler before its first message. -/
def LeaderReady.new : LeaderReady := ⟨0, [], 0, 0, false⟩

/- Readies for the leader's own root are counted. -/
def LeaderReady.read
    (n : Nat) (myroot : Option Bytes) (height : Nat)
    (g : LeaderReady) (msg : RBCMsg) : LeaderReady :=
  if msg.round = height then
    if some msg.root = myroot then
      let readycount := g.readycount + 1
      let output := decide (readycount = threshold n * 2)
      { g with
        readycount := readycount
        readysignal :=
          if readycount = threshold n + 1 then 1 else 0
        outputsignal := if output then 1 else 0
        returned := output }
    else { g with readysignal := 0, outputsignal := 0 }
  else if height < msg.round then
    { g with
      futurebuf := g.futurebuf ++ [msg]
      readysignal := 0
      outputsignal := 0 }
  else { g with readysignal := 0, outputsignal := 0 }

/- The ECHO handler with the loop around it. -/
def leaderEcho (cfg : Config n) (src : Source) :
    Handler RBCMsg LeaderEcho where
  new := LeaderEcho.new
  round := RBCMsg.round
  drains := false
  read _ height g msg :=
    (LeaderEcho.read cfg (src.root cfg height) height
        { g with futurebuf := [] } msg).map
      fun g' =>
        { state := g'
          later := g'.futurebuf
          returned := g'.returned }

/- The READY handler with the loop around it. -/
def leaderReady (cfg : Config n) (src : Source) :
    Handler RBCMsg LeaderReady where
  new := LeaderReady.new
  round := RBCMsg.round
  drains := false
  read _ height g msg :=
    let g' :=
      LeaderReady.read n (src.root cfg height) height
        { g with futurebuf := [] } msg
    some
      { state := g'
        later := g'.futurebuf
        returned := g'.returned }

end CodedBroadcast

end Jumbo

------------------------------------------------------------
-- Start and Its Goroutines
------------------------------------------------------------

namespace Jumbo

namespace CodedBroadcast

open Crypto (Bytes)
open Protocol
open Protocol.Relay

variable {n : Nat}

/- Where the main loop of the leader is. -/
inductive LeaderPc
| begin
| echo
| ready
| readysignal
| outputsignal
| close
| next
| input
deriving DecidableEq

/-
  `sending` and `echoing` are the goroutines that send READY
  and ECHO, by their heights; `mypathCH` says for which
  height the next input is coded.
-/
structure BCL where
  height : Nat
  pc : LeaderPc
  echo : Lane RBCMsg LeaderEcho
  ready : Lane RBCMsg LeaderReady
  readysignal : Nat
  outputsignal : Nat
  sending : List Nat
  echoing : List Nat
  mypathCH : List Nat
  output : List (Nat × Bytes)

/- A message comes, or a goroutine of the leader steps. -/
inductive BCLAction
| readyIn (msg : RBCMsg)
| echoIn (msg : RBCMsg)
| sendReady (k : Nat)
| sendEcho (k : Nat)
| start
| echo (i : Nat) (act : Act)
| ready (i : Nat) (act : Act)
deriving DecidableEq

namespace BCL

/- The leader before its first round. -/
def init (cfg : Config n) (src : Source) : BCL where
  height := 0
  pc := .begin
  echo := Lane.init (leaderEcho cfg src)
  ready := Lane.init (leaderReady cfg src)
  readysignal := 0
  outputsignal := 0
  sending := []
  echoing := []
  mypathCH := []
  output := []

/- One step of `Start`. -/
def start (cfg : Config n) (src : Source) (s : BCL) :
    Option BCL :=
  match s.pc with
  | .begin =>
      if (src.tree cfg 0).isSome then
        some { s with echoing := [0], pc := .echo }
      else none
  | .echo => do
      let echo ← s.echo.prepare (leaderEcho cfg src)
      some { s with echo := echo, pc := .ready }
  | .ready => do
      let ready ← s.ready.prepare (leaderReady cfg src)
      some { s with ready := ready, pc := .readysignal }
  | .readysignal =>
      if s.readysignal = 0 then none
      else
        some { s with
          readysignal := s.readysignal - 1
          sending := s.sending ++ [s.height]
          pc := .outputsignal }
  | .outputsignal =>
      if s.outputsignal = 0 then none
      else
        some { s with
          outputsignal := s.outputsignal - 1
          output := s.output ++ [(s.height, src.inputs s.height)]
          pc := .close }
  | .close => do
      let echo ← s.echo.close
      let ready ← s.ready.close
      some { s with echo := echo, ready := ready, pc := .next }
  | .next => do
      let echo ← s.echo.next
      let ready ← s.ready.next
      some { s with
        height := s.height + 1
        pc := .input
        echo := echo
        ready := ready
        readysignal := 0
        outputsignal := 0 }
  | .input =>
      match s.mypathCH with
      | [] => none
      | _ :: rest =>
          some { s with
            mypathCH := rest
            echoing := s.echoing ++ [s.height]
            pc := .echo }

/- What comes on the channels of this round. -/
def signalled
    (s : BCL) (i : Nat) (act : Act)
    (readysignal outputsignal : Nat) : BCL :=
  if act = .work ∧ i = s.height then
    { s with
      readysignal := s.readysignal + readysignal
      outputsignal := s.outputsignal + outputsignal }
  else s

/- One step of the leader. -/
def exec
    (cfg : Config n) (src : Source) (lid : Fin n) (s : BCL) :
    BCLAction → Option BCL
| .readyIn msg =>
    if s.height ≤ msg.round then
      some { s with
        ready := s.ready.arrive (leaderReady cfg src) msg }
    else some s
| .echoIn msg =>
    if s.height ≤ msg.round then
      some { s with
        echo := s.echo.arrive (leaderEcho cfg src) msg }
    else some s
| .sendReady k => do
    let height ← s.sending[k]?
    if (src.tree cfg (height + 1)).isSome then
      some { s with
        sending := s.sending.eraseIdx k
        mypathCH := s.mypathCH ++ [height + 1] }
    else none
| .sendEcho k => do
    let height ← s.echoing[k]?
    some { s with
      echoing := s.echoing.eraseIdx k
      echo :=
        s.echo.arrive (leaderEcho cfg src)
          (src.echo cfg lid height) }
| .start => s.start cfg src
| .echo i act => do
    let echo ← s.echo.act (leaderEcho cfg src) i act
    some
      ({ s with echo := echo }.signalled i act
        (echo.workers i).state.readysignal 0)
| .ready i act => do
    let ready ← s.ready.act (leaderReady cfg src) i act
    let g := (ready.workers i).state
    some
      ({ s with ready := ready }.signalled i act
        g.readysignal g.outputsignal)

/- The READYs that a step sends. -/
def readies
    (cfg : Config n) (src : Source) (lid : Fin n) (s : BCL) :
    BCLAction → List (Packet n)
| .start =>
    if s.pc = .begin then src.readies cfg lid (-1) [] 0
    else []
| .sendReady k =>
    match s.sending[k]? with
    | none => []
    | some height =>
        src.readies cfg lid height
          ((src.root cfg height).getD []) (height + 1)
| _ => []

/- The ECHOs that a step sends. -/
def echoes
    (cfg : Config n) (src : Source) (lid : Fin n) (s : BCL) :
    BCLAction → List (Packet n)
| .sendEcho k =>
    match s.echoing[k]? with
    | none => []
    | some height => [toOthers lid (src.echo cfg lid height)]
| _ => []

end BCL

end CodedBroadcast

end Jumbo
