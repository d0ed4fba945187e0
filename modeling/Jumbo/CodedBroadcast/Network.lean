import Jumbo.CodedBroadcast.Votes

/-
  One instance of the coded broadcast run by all parties,
  some of them Byzantine, over an asynchronous authenticated
  network.

  A Byzantine party sends any message under its own name, to
  anybody; every message comes at most once. Beside the
  states it is kept which roots the correct parties have
  decided to be ready for and what they have put together.

  Main declarations:
    * `Instance`
    * `Net`
    * `Net.exec`
    * `Net.single`
-/

------------------------------------------------------------
-- States
------------------------------------------------------------

namespace Jumbo

namespace CodedBroadcast

open Crypto (Bytes)
open DumboMVBA (number)
open Protocol
open Protocol.Relay

variable {n : Nat}

/- Who broadcasts what, and who is Byzantine. -/
structure Instance (n : Nat) where
  cfg : Config n
  src : Source
  lid : Fin n
  byz : Finset (Fin n)

/- The receiver has got it. -/
def Packet.taken (q : Fin n) (packet : Packet n) : Packet n :=
  { packet with dest := Function.update packet.dest q false }

/-
  The parties, the packets that are under way, and what has
  been announced and put together.
-/
structure Net (n : Nat) where
  leader : BCL
  follower : Fin n → BCF n
  readies : List (Packet n)
  echoes : List (Packet n)
  announced : Fin n → List (Nat × Bytes)
  decodings : Fin n → List Decoding

/-
  A Byzantine party sends, a packet arrives, or a correct
  party steps.
-/
inductive NetAction (n : Nat)
| forgeReady (packet : Packet n)
| forgeEcho (packet : Packet n)
| deliverReady (p : Fin n) (k : Nat)
| deliverEcho (p : Fin n) (k : Nat)
| leader (action : BCLAction)
| follower (p : Fin n) (action : BCFAction)

/- What a party does by itself. -/
def BCLAction.own : BCLAction → Bool
| .readyIn _ => false
| .echoIn _ => false
| _ => true

/- The steps that a follower takes by itself. -/
def BCFAction.own : BCFAction → Bool
| .readyIn _ => false
| .echoIn _ => false
| _ => true

namespace BCF

/- The READYs that a step sends to the others. -/
def readies (nid : Fin n) (s : BCF n) :
    BCFAction → List (Packet n)
| .sendReady k =>
    match s.readying[k]? with
    | none => []
    | some (height, root) =>
        [toOthers nid (readyMsg nid height root)]
| _ => []

/- The ECHOs that a step sends to the others. -/
def echoes (cfg : Config n) (nid : Fin n) (s : BCF n) :
    BCFAction → List (Packet n)
| .val i act =>
    match s.val.act (valHandler cfg nid) i act with
    | none => []
    | some val =>
        (sentEchoes act (val.workers i).state).map
          (toOthers nid)
| _ => []

end BCF

end CodedBroadcast

end Jumbo

------------------------------------------------------------
-- Steps of the System
------------------------------------------------------------

namespace Jumbo

namespace CodedBroadcast

open Crypto (Bytes)
open DumboMVBA (number)
open Protocol
open Protocol.Relay

variable {n : Nat}

namespace Net

/- Nothing has been sent. -/
def init (inst : Instance n) : Net n where
  leader := BCL.init inst.cfg inst.src
  follower := BCF.init inst.cfg
  readies := []
  echoes := []
  announced := fun _ => []
  decodings := fun _ => []

/- Someone Byzantine has this number. -/
def forged (inst : Instance n) (packet : Packet n) : Bool :=
  decide (∃ j ∈ inst.byz, packet.msg.id = number j)

/- A step of the leader and what it sends. -/
def stepLeader
    (inst : Instance n) (net : Net n) (action : BCLAction) :
    Option (Net n) := do
  let leader ←
    net.leader.exec inst.cfg inst.src inst.lid action
  some { net with
    leader := leader
    readies :=
      net.readies ++
        net.leader.readies inst.cfg inst.src inst.lid action
    echoes :=
      net.echoes ++
        net.leader.echoes inst.cfg inst.src inst.lid action }

/- A step of a follower and what it sends. -/
def stepFollower
    (inst : Instance n) (net : Net n) (p : Fin n)
    (action : BCFAction) : Option (Net n) := do
  let s := net.follower p
  let s' ← s.exec inst.cfg p (number inst.lid) action
  some { net with
    follower := Function.update net.follower p s'
    readies := net.readies ++ s.readies p action
    echoes := net.echoes ++ s.echoes inst.cfg p action
    announced :=
      Function.update net.announced p
        (net.announced p ++ s.announces action)
    decodings :=
      Function.update net.decodings p
        (net.decodings p ++ s.decoding inst.cfg action) }

/- A step of the network. -/
def exec (inst : Instance n) (net : Net n) :
    NetAction n → Option (Net n)
| .forgeReady packet =>
    if forged inst packet then
      some { net with readies := net.readies ++ [packet] }
    else none
| .forgeEcho packet =>
    if forged inst packet then
      some { net with echoes := net.echoes ++ [packet] }
    else none
| .deliverReady p k =>
    match net.readies[k]? with
    | none => none
    | some packet =>
        if p ∉ inst.byz ∧ packet.dest p = true then
          let net :=
            { net with
              readies := net.readies.modify k (·.taken p) }
          if p = inst.lid then
            net.stepLeader inst (.readyIn packet.msg)
          else net.stepFollower inst p (.readyIn packet.msg)
        else none
| .deliverEcho p k =>
    match net.echoes[k]? with
    | none => none
    | some packet =>
        if p ∉ inst.byz ∧ packet.dest p = true then
          let net :=
            { net with
              echoes := net.echoes.modify k (·.taken p) }
          if p = inst.lid then
            net.stepLeader inst (.echoIn packet.msg)
          else net.stepFollower inst p (.echoIn packet.msg)
        else none
| .leader action =>
    if inst.lid ∉ inst.byz ∧ action.own = true then
      net.stepLeader inst action
    else none
| .follower p action =>
    if p ∉ inst.byz ∧ p ≠ inst.lid ∧ action.own = true then
      net.stepFollower inst p action
    else none

/- What a party has output, by heights. -/
def outputs (inst : Instance n) (net : Net n) (p : Fin n) :
    List (Nat × Bytes) :=
  if p = inst.lid then net.leader.output
  else (net.follower p).output

/-
  The length is the one with which others have put together
  the same, and that of the payload if the broadcaster is
  correct and this is its root.
-/
def sameLength
    (inst : Instance n) (net : Net n) (d : Decoding) : Bool :=
  ((List.finRange n).all fun q =>
      (net.decodings q).all fun other =>
        decide
          (other.height = d.height → other.root = d.root →
            other.msglen = d.msglen)) &&
    decide
      (inst.lid ∉ inst.byz →
        inst.src.root inst.cfg d.height = some d.root →
          d.msglen.toInt = (inst.src.inputs d.height).length)

/-
  The condition on the steps: a READY that is counted is the
  first one with its root of its sender, and the ECHO that
  makes a party decode has the length that the others had.
-/
def single (inst : Instance n) (net : Net n) :
    NetAction n → Bool
| .leader (.ready i .work) => countsOnce net.leader.ready i
| .follower p (.ready i .work) =>
    countsOnce (net.follower p).ready i
| .follower p (.echo i .work) =>
    ((net.follower p).decoding inst.cfg (.echo i .work)).all
      (net.sameLength inst)
| _ => true

end Net

/- One broadcast with all its parties as a machine. -/
def network (inst : Instance n) :
    Machine (Net n) (NetAction n) where
  init := Net.init inst
  exec := Net.exec inst

end CodedBroadcast

end Jumbo
