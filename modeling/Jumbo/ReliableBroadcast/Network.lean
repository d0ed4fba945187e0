import Jumbo.ReliableBroadcast.Basic
import Jumbo.Lib.Machine
import Jumbo.Lib.BroadcastLog

/-
  One broadcast instance run by all parties, some of them
  Byzantine, over an asynchronous authenticated network.

  A Byzantine party adds any message under its own name and
  for any set of receivers; the messages of the others are
  what the code sends.

  Main declarations:
    * `Packet`
    * `State`
    * `Action`
    * `exec`
    * `machine`
    * `Quiescent`
-/

------------------------------------------------------------
-- States
------------------------------------------------------------

namespace Jumbo

namespace ReliableBroadcast

open Protocol

/- A message and the parties it is sent to. -/
structure Packet (n : Nat) where
  msg : RBCMsg n
  dest : Fin n → Bool

/- A broadcast; VAL alone does not go to its sender. -/
def RBCMsg.toAll {n : Nat} (m : RBCMsg n) : Packet n :=
  ⟨m, fun q => !(m.type = .val && q = m.id)⟩

/- Where a receiver holds a message. -/
inductive Loc where
| net
| handled
deriving DecidableEq, Repr

/-
  The parties, what they are given from outside, and the
  messages.
-/
structure State (n : Nat) where
  follower : Fin n → BCF
  leader : BCL
  heightsnow : Fin n → List (List Int)
  closeval : Fin n → Bool
  panicked : Fin n → Bool
  log : BroadcastLog n (Packet n) Loc

variable {n : Nat}

namespace State

/- Nobody has started. -/
def init : State n where
  follower := fun _ => BCF.new
  leader := BCL.new
  heightsnow := fun _ => []
  closeval := fun _ => false
  panicked := fun _ => false
  log := ⟨[], fun _ _ => .net⟩

/- What one follower has changed. -/
def setFollower
    (s : State n) (p : Fin n) (bcf : BCF) : State n :=
  { s with follower := Function.update s.follower p bcf }

/- Broadcast messages of `p`. -/
def broadcast
    (s : State n) (p : Fin n) (ms : List (RBCMsg n)) :
    State n :=
  { s with
    log := s.log.postAll p .net .net
      (ms.map RBCMsg.toAll) }

/- What `p` obtained from `output1` and `output2`. -/
def outputs (cfg : Config n) (s : State n) (p : Fin n) :
    List Bytes :=
  if p = cfg.lid then s.leader.output1 ++ s.leader.output2
  else (s.follower p).output1 ++ (s.follower p).output2

end State

end ReliableBroadcast

end Jumbo

------------------------------------------------------------
-- Steps of the System
------------------------------------------------------------

namespace Jumbo

namespace ReliableBroadcast

open Protocol

/- What can happen next. -/
inductive Action (n : Nat) where
| forge (packet : Packet n)
| advance (p : Fin n) (heightsnow : List (List Int))
| closeval (p : Fin n)
| receive (p : Fin n) (i : Nat)
| sendVal
| sendEcho
| sendReady (p : Fin n)
| forward1 (p : Fin n)
| forward2 (p : Fin n)

variable {n : Nat}

namespace State

/- The outcome at `p` of reading a message. -/
def finishLeader
    (cfg : Config n) (s : State n) (i : Nat) :
    Outcome BCL (RBCMsg n) → Option (State n)
| .blocked => none
| .panic =>
    some { s with
      panicked := Function.update s.panicked cfg.lid true }
| .next bcl ms =>
    some
      ({ s with
          leader := bcl
          log := s.log.move cfg.lid i .handled }.broadcast
        cfg.lid ms)

/- What reading a message comes to. -/
def finishFollower
    (s : State n) (p : Fin n) (i : Nat) :
    Outcome BCF (RBCMsg n) → Option (State n)
| .blocked => none
| .panic =>
    some { s with
      panicked := Function.update s.panicked p true }
| .next bcf ms =>
    some
      ({ s.setFollower p bcf with
          log := s.log.move p i .handled }.broadcast p ms)

/- A goroutine step of the broadcaster. -/
def stepLeader
    (cfg : Config n) (s : State n) :
    Option (BCL × List (RBCMsg n)) → Option (State n)
| none => none
| some (bcl, ms) =>
    some ({ s with leader := bcl }.broadcast cfg.lid ms)

/- A step of a follower and what it sends. -/
def stepFollower
    (s : State n) (p : Fin n) :
    Option (BCF × List (RBCMsg n)) → Option (State n)
| none => none
| some (bcf, ms) =>
    some ((s.setFollower p bcf).broadcast p ms)

/- A correct process that still runs. -/
def running
    (byz : Finset (Fin n)) (s : State n) (p : Fin n) : Bool :=
  decide (p ∉ byz) && !s.panicked p

end State

/- The message at position `i` is read at `p`. -/
def State.receive
    (cfg : Config n) (s : State n) (p : Fin n)
    (m : RBCMsg n) (i : Nat) : Option (State n) :=
  if p = cfg.lid then
    s.finishLeader cfg i (s.leader.receive cfg m)
  else
    s.finishFollower p i
      ((s.follower p).receive cfg p (s.heightsnow p)
        (s.closeval p) m)

/- A step of a party, or a Byzantine party sends. -/
def exec
    (cfg : Config n) (byz : Finset (Fin n)) (s : State n) :
    Action n → Option (State n)
| .forge packet =>
    if packet.msg.id ∈ byz then
      some { s with
        log := s.log.post packet.msg.id .net .net packet }
    else none
| .advance p heightsnow =>
    some { s with
      heightsnow :=
        Function.update s.heightsnow p heightsnow }
| .closeval p =>
    some { s with
      closeval := Function.update s.closeval p true }
| .receive p i =>
    match s.log.sent[i]? with
    | some packet =>
        if s.running byz p ∧ packet.dest p = true ∧
            s.log.loc p i = .net then
          s.receive cfg p packet.msg i
        else none
    | none => none
| .sendVal =>
    if s.running byz cfg.lid then
      s.stepLeader cfg (s.leader.sendVal cfg)
    else none
| .sendEcho =>
    if s.running byz cfg.lid then
      s.stepLeader cfg (s.leader.sendEcho cfg)
    else none
| .sendReady p =>
    if s.running byz p then
      if p = cfg.lid then
        s.stepLeader cfg (s.leader.sendReady cfg)
      else
        s.stepFollower p ((s.follower p).sendReady cfg p)
    else none
| .forward1 p =>
    if s.running byz p then
      if p = cfg.lid then
        s.stepLeader cfg
          ((s.leader.forward1 cfg).map (·, []))
      else
        s.stepFollower p
          ((s.follower p).forward1.map (·, []))
    else none
| .forward2 p =>
    if s.running byz p then
      if p = cfg.lid then
        s.stepLeader cfg
          ((s.leader.forward2 cfg).map (·, []))
      else
        s.stepFollower p
          ((s.follower p).forward2.map (·, []))
    else none

/- One broadcast as a machine. -/
def machine
    (n : Nat) (cfg : Config n) (byz : Finset (Fin n)) :
    Machine (State n) (Action n) where
  init := State.init
  exec := exec cfg byz

/-
  No goroutine of a correct party can go on with what correct
  parties sent. A proposal may wait in `check_input_rbc` for
  ever, and what Byzantine parties sent may still be on its
  way.
-/
def Quiescent
    (cfg : Config n) (byz : Finset (Fin n)) (s : State n) :
    Prop :=
  ∀ p, p ∉ byz →
    exec cfg byz s (.sendReady p) = none ∧
      exec cfg byz s (.forward1 p) = none ∧
      exec cfg byz s (.forward2 p) = none ∧
      ∀ i packet, s.log.sent[i]? = some packet →
        packet.msg.id ∉ byz → packet.msg.type ≠ .val →
          exec cfg byz s (.receive p i) = none

end ReliableBroadcast

end Jumbo
