import Jumbo.WeakBroadcast.Leader
import Jumbo.WeakBroadcast.Votes

/-
  One instance of the weak reliable broadcast run by all
  parties, some of them Byzantine, over an asynchronous
  authenticated network.

  A Byzantine party sends any message under its own name. A
  message that has been sent comes to anybody, at any time
  and any number of times, or never.

  Main declarations:
    * `Instance`
    * `Party`
    * `Net`
    * `Net.exec`
    * `Net.single`
    * `Net.faithful`
-/

------------------------------------------------------------
-- States
------------------------------------------------------------

namespace Jumbo

namespace WeakBroadcast

open Protocol
open Protocol.Relay
open ReliableBroadcast (Bytes)

variable {n : Nat}

/- Who broadcasts what, and who is Byzantine. -/
structure Instance (n : Nat) where
  src : Source n
  byz : Finset (Fin n)

/-
  A follower: `Start` with its handlers, and `handle_val`. The
  latter has read the first `taken` of the decisions made, and
  `vals` are the values it has read; `echoing` are the
  goroutines that send ECHO.
-/
structure Party (n : Nat) where
  bcf : BCF n
  val : HandleVal
  vals : List Val
  taken : Nat
  echoing : List (Int × Bytes)

/- The parties, the messages, and what has been announced. -/
structure Net (n : Nat) where
  leader : BCL n
  party : Fin n → Party n
  vals : List (Fin n × Val)
  echoes : List (WRBCMsg n)
  readies : List (WRBCMsg n)
  announced : Fin n → List (Nat × Bytes)

/-
  A Byzantine party sends, a message arrives, or a correct
  party steps.
-/
inductive NetAction (n : Nat)
| forgeVal (j : Fin n) (val : Val)
| forgeEcho (msg : WRBCMsg n)
| forgeReady (msg : WRBCMsg n)
| deliverVal (p : Fin n) (k : Nat)
| deliverEcho (p : Fin n) (k : Nat)
| deliverReady (p : Fin n) (k : Nat)
| leader (action : BCLAction n)
| follower (p : Fin n) (action : BCFAction n)
| roundinfo (p : Fin n)
| sendEcho (p : Fin n) (k : Nat)

/- What a party does by itself. -/
def BCLAction.own : BCLAction n → Bool
| .readyIn _ => false
| .echoIn _ => false
| _ => true

/- The steps that a follower takes by itself. -/
def BCFAction.own : BCFAction n → Bool
| .readyIn _ => false
| .echoIn _ => false
| .sendEcho _ _ => false
| _ => true

/- What the broadcaster decides to be ready for in a step. -/
def BCL.announces (src : Source n) (s : BCL n) :
    BCLAction n → List (Nat × Bytes)
| .start =>
    if s.pc = .readysignal ∧ s.readysignal ≠ 0 then
      [(s.height, src.myhash s.height)]
    else []
| _ => []

/- The READYs that a step of a follower sends. -/
def BCF.readies (nid : Fin n) (s : BCF n) :
    BCFAction n → List (WRBCMsg n)
| .sendReady k =>
    s.readying[k]?.toList.map fun x => ⟨nid, x.1, x.2⟩
| _ => []

namespace Party

/- A follower that has not started. -/
def init (n : Nat) : Party n where
  bcf := BCF.init n
  val := HandleVal.new
  vals := []
  taken := 0
  echoing := []

/- The ECHOs that `handle_val` has sent goroutines for. -/
def spawned (old new : HandleVal) : List (Int × Bytes) :=
  new.echoes.drop old.echoes.length

/- The follower reads a value and may send an ECHO. -/
def readVal
    (cfg : Config) (s : Party n) (val : Val) :
    Option (Party n) :=
  (s.val.readVal cfg val).map fun g =>
    { s with
      val := g
      vals := s.vals ++ [val]
      echoing := s.echoing ++ spawned s.val g }

/- The next decision that `Start` has made. -/
def readRoundinfo (cfg : Config) (s : Party n) :
    Option (Party n) :=
  match s.bcf.roundinfoCH[s.taken]? with
  | none => none
  | some roundinfo =>
      (s.val.readRoundinfo cfg roundinfo).map fun g =>
        { s with
          val := g
          taken := s.taken + 1
          echoing := s.echoing ++ spawned s.val g }

end Party

end WeakBroadcast

end Jumbo

------------------------------------------------------------
-- Steps of the System
------------------------------------------------------------

namespace Jumbo

namespace WeakBroadcast

open Protocol
open Protocol.Relay
open ReliableBroadcast (Bytes)

variable {n : Nat}

/- A follower that keeps to the code. -/
def Instance.follows (inst : Instance n) (p : Fin n) : Bool :=
  decide (p ∉ inst.byz ∧ p ≠ inst.src.nid)

namespace Net

/- Nothing has been sent. -/
def init (inst : Instance n) : Net n where
  leader := BCL.init inst.src
  party := fun _ => Party.init n
  vals := []
  echoes := []
  readies := []
  announced := fun _ => []

/- What one follower has changed. -/
def setParty (net : Net n) (p : Fin n) (s : Party n) : Net n :=
  { net with party := Function.update net.party p s }

/- A step of the leader and what it sends. -/
def stepLeader
    (inst : Instance n) (net : Net n) (action : BCLAction n) :
    Option (Net n) :=
  if inst.src.nid ∉ inst.byz then
    (net.leader.exec inst.src action).map fun leader =>
      { net with
        leader := leader
        vals :=
          net.vals ++
            (net.leader.vals inst.src action).map
              fun val => (inst.src.nid, val)
        echoes :=
          net.echoes ++ net.leader.echoes inst.src action
        readies :=
          net.readies ++ net.leader.readies inst.src action
        announced :=
          Function.update net.announced inst.src.nid
            (net.announced inst.src.nid ++
              net.leader.announces inst.src action) }
  else none

/- A step of a follower and what it sends. -/
def stepFollower
    (inst : Instance n) (net : Net n) (p : Fin n)
    (action : BCFAction n) : Option (Net n) :=
  if inst.follows p then
    ((net.party p).bcf.exec p action).map fun bcf =>
      { net.setParty p { net.party p with bcf := bcf } with
        readies :=
          net.readies ++ (net.party p).bcf.readies p action
        announced :=
          Function.update net.announced p
            (net.announced p ++
              (net.party p).bcf.announces action) }
  else none

/- A message comes to whoever it is sent to. -/
def arrive
    (inst : Instance n) (net : Net n) (p : Fin n)
    (leader : BCLAction n) (follower : BCFAction n) :
    Option (Net n) :=
  if p = inst.src.nid then net.stepLeader inst leader
  else net.stepFollower inst p follower

/- A step of the network. -/
def exec (inst : Instance n) (net : Net n) :
    NetAction n → Option (Net n)
| .forgeVal j val =>
    if j ∈ inst.byz then
      some { net with vals := net.vals ++ [(j, val)] }
    else none
| .forgeEcho msg =>
    if msg.id ∈ inst.byz then
      some { net with echoes := net.echoes ++ [msg] }
    else none
| .forgeReady msg =>
    if msg.id ∈ inst.byz then
      some { net with readies := net.readies ++ [msg] }
    else none
| .deliverVal p k =>
    match net.vals[k]? with
    | none => none
    | some (_, val) =>
        if inst.follows p then
          ((net.party p).readVal inst.src.cfg val).map
            (net.setParty p)
        else none
| .deliverEcho p k =>
    match net.echoes[k]? with
    | none => none
    | some msg => net.arrive inst p (.echoIn msg) (.echoIn msg)
| .deliverReady p k =>
    match net.readies[k]? with
    | none => none
    | some msg =>
        net.arrive inst p (.readyIn msg) (.readyIn msg)
| .leader action =>
    if action.own then net.stepLeader inst action else none
| .follower p action =>
    if action.own then net.stepFollower inst p action else none
| .roundinfo p =>
    if inst.follows p then
      ((net.party p).readRoundinfo inst.src.cfg).map
        (net.setParty p)
    else none
| .sendEcho p k =>
    match (net.party p).echoing[k]? with
    | none => none
    | some (round, hash) =>
        (net.stepFollower inst p (.sendEcho round hash)).map
          fun net' =>
            { net'.setParty p
                { net'.party p with
                  echoing := (net.party p).echoing.eraseIdx k }
              with
              echoes := net.echoes ++ [⟨p, round, hash⟩] }

/-
  The condition on the steps: a READY that is counted is the
  first one with its hash of its sender.
-/
def single (net : Net n) : NetAction n → Bool
| .follower p (.ready i .work) =>
    (ballot n).countsOnce (readyHandler n)
      (net.party p).bcf.ready i
| _ => true

/-
  Moreover an ECHO that is counted is the first one of its
  sender, and a value that comes is the broadcaster's.
-/
def faithful
    (inst : Instance n) (net : Net n) (a : NetAction n) :
    Bool :=
  net.single a &&
    match a with
    | .follower p (.echo i .work) =>
        (ballot n).countsOnce (echoHandler n)
          (net.party p).bcf.echo i
    | .deliverVal _ k =>
        net.vals[k]?.all fun x => decide (x.1 = inst.src.nid)
    | _ => true

end Net

/- One broadcast with all its parties as a machine. -/
def network (inst : Instance n) :
    Machine (Net n) (NetAction n) where
  init := Net.init inst
  exec := Net.exec inst

end WeakBroadcast

end Jumbo
