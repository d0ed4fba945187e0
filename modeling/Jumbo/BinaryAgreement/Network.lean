import Jumbo.BinaryAgreement.Basic
import Jumbo.Lib.Machine
import Jumbo.Lib.BroadcastLog

/-
  One binary agreement instance run by all parties over an
  asynchronous network.

  Every message is a broadcast, so the network is one log of
  broadcasts and, for each receiver, the place each of them
  has reached: on the way or in `msginCH`, in the buffers of
  `handle_loopmsg`, in a handler's channel, or handled.

  Main declarations:
    * `State`
    * `Action`
    * `exec`
    * `machine`
    * `Quiescent`
-/

------------------------------------------------------------
-- States and Routing
------------------------------------------------------------

namespace Jumbo

namespace BinaryAgreement

open Protocol

/- Where a receiver holds a message. -/
inductive Loc where
| net
| oldBuf
| newBuf
| chan
| handled
| dropped
deriving DecidableEq, Repr

/- The parties, the messages and who has crashed. -/
structure State (n : Nat) where
  party : Fin n → BA
  log : BroadcastLog n (BAMsg n) Loc
  crashed : Fin n → Bool

namespace State

variable {n : Nat}

/- Nobody has started and nothing was sent. -/
def init : State n where
  party := fun _ => BA.new
  log := ⟨[], fun _ _ => .net⟩
  crashed := fun _ => false

/- A party runs on after it has been launched. -/
def running (s : State n) (p : Fin n) : Bool :=
  !s.crashed p && (s.party p).launched

/- What one party has changed. -/
def setParty (s : State n) (p : Fin n) (ba : BA) : State n :=
  { s with party := Function.update s.party p ba }

end State

/- Where `handle_loopmsg` of loop `loop` puts a message. -/
def handleLoopMsg
    {n : Nat} (loop : Nat) (m : BAMsg n) : Loc :=
  if m.type = .finish then .chan
  else if m.loop < loop then .dropped
  else if loop < m.loop then .newBuf
  else .chan

/-
  `checkbuf` when a loop starts: the old buffer is filtered
  into the new one, which becomes the old one.
-/
def checkBuf
    {n : Nat}
    (log : BroadcastLog n (BAMsg n) Loc)
    (p : Fin n) (height : Nat) :
    BroadcastLog n (BAMsg n) Loc :=
  log.relocate p fun i =>
    match log.loc p i with
    | .oldBuf =>
        if (log.sent[i]?).all fun m => height ≤ m.loop
        then .oldBuf
        else .dropped
    | .newBuf => .oldBuf
    | place => place

end BinaryAgreement

end Jumbo

------------------------------------------------------------
-- Steps of the System
------------------------------------------------------------

namespace Jumbo

namespace BinaryAgreement

open Protocol

/- What can happen next, and at which party. -/
inductive Action (n : Nat) where
| launch (p : Fin n) (input : Bool)
| second (p : Fin n)
| crash (p : Fin n)
| route (p : Fin n) (i : Nat)
| handle (p : Fin n) (i : Nat)
| go (p : Fin n) (event : Event)
deriving DecidableEq, Repr

variable {n : Nat}

/-
  The log after one goroutine step of `p` that took it from
  loop `before` to loop `after` and broadcast `ms`.
-/
def publish
    (log : BroadcastLog n (BAMsg n) Loc)
    (p : Fin n) (before after : Nat)
    (ms : List (BAMsg n)) :
    BroadcastLog n (BAMsg n) Loc :=
  let log := log.postAll p .chan .net ms
  if before < after then checkBuf log p after else log

/- A step of a party that has not crashed, or of the net. -/
def exec
    (cfg : Config) (s : State n) :
    Action n → Option (State n)
| .launch p input =>
    if !s.crashed p && !(s.party p).launched then
      some (s.setParty p ((s.party p).startLoop 0 input))
    else none
| .second p =>
    if !s.crashed p then
      some (s.setParty p
        { s.party p with
          secondInput := (s.party p).secondInput + 1 })
    else none
| .crash p =>
    some { s with crashed := Function.update s.crashed p true }
| .route p i =>
    match s.log.sent[i]? with
    | some m =>
        if s.running p ∧
            (s.log.loc p i = .net ∨
              s.log.loc p i = .oldBuf) then
          some { s with
            log := s.log.move p i
              (handleLoopMsg (s.party p).loop m) }
        else none
    | none => none
| .handle p i =>
    match s.log.sent[i]? with
    | some m =>
        if s.running p ∧ s.log.loc p i = .chan then
          match (s.party p).receive p m with
          | some ba =>
              some { s.setParty p ba with
                log := s.log.move p i .handled }
          | none => none
        else none
    | none => none
| .go p event =>
    if s.running p then
      match (s.party p).step cfg p event with
      | some (ba, ms) =>
          some { s.setParty p ba with
            log := publish s.log p
              (s.party p).loop ba.loop ms }
      | none => none
    else none

/- The agreement of all parties as a machine. -/
def machine (n : Nat) (cfg : Config) :
    Machine (State n) (Action n) where
  init := State.init
  exec := exec cfg

/- A goroutine step of `p`, as opposed to its environment. -/
def Action.byParty (p : Fin n) : Action n → Bool
| .route q _ => q == p
| .handle q _ => q == p
| .go q _ => q == p
| _ => false

/-
  No goroutine of the instance can take a step at a party
  that runs on and has not closed the instance, so every
  message sent has been delivered there.
-/
def Quiescent (cfg : Config) (s : State n) : Prop :=
  ∀ p, s.crashed p = false → (s.party p).output = none →
    ∀ a : Action n, a.byParty p = true →
      exec cfg s a = none

end BinaryAgreement

end Jumbo
