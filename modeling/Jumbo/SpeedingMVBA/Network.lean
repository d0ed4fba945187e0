import Jumbo.Lib.BroadcastLog
import Jumbo.Lib.Machine
import Jumbo.SpeedingMVBA.Basic

/-
  All parties of one round of the speeding MVBA.

  Every party runs the code, and any of them may crash. What
  a party sends waits in its own queue for every receiver, so
  a party can crash in the middle of a broadcast. The network
  hands messages on in any order; a router may drop messages
  of a loop that has been left.

  Main declarations:
    * `Net` and `NetAction`
    * `network`
    * `NetStep` and `netStep_of_exec`
-/

------------------------------------------------------------
-- The System
------------------------------------------------------------

namespace Jumbo

namespace SpeedingMVBA

open Crypto (Bytes)
open Protocol

/- Where a message is on its way to a receiver. -/
inductive Loc where
| queued
| net
| handled
| dropped
deriving DecidableEq, Repr

/- The parties, who has crashed, and the messages. -/
structure Net (n : Nat) where
  party : Fin n → MVBA n
  crashed : Fin n → Bool
  log : BroadcastLog n (Packet n) Loc

/- A party steps, or the network delivers or drops a message. -/
inductive NetAction (n : Nat) where
| act (id : Fin n) (a : PartyAction n)
| receive (id : Fin n) (i : Nat)
| transmit (id : Fin n) (i : Nat)
| drop (id : Fin n) (i : Nat)
| crash (id : Fin n)

variable {n : Nat}

/- A message comes from the network only. -/
def PartyAction.internal : PartyAction n → Bool
| .receive _ => false
| _ => true

namespace Net

/- Nobody has started. -/
def new (cfg : Config n) : Net n where
  party := MVBA.new cfg
  crashed := fun _ => false
  log := ⟨[], fun _ _ => .queued⟩

/- A party has made a step, with messages in `log`. -/
def apply
    (s : Net n) (id : Fin n)
    (log : BroadcastLog n (Packet n) Loc) (e : Effect n) :
    Net n :=
  { s with
    party := Function.update s.party id e.mvba
    log := log.postAll id .handled .queued e.sent }

/- A message that is on its way to a receiver at a place. -/
def packet
    (s : Net n) (id : Fin n) (i : Nat) (loc : Loc) :
    Option (Packet n) :=
  s.log.sent[i]?.filter fun packet =>
    packet.dest id && s.log.loc id i = loc

/- One step of the network. -/
def exec (cfg : Config n) (s : Net n) :
    NetAction n → Option (Net n)
| .act id a =>
    if s.crashed id || !a.internal then none
    else
      (step cfg id (s.party id) a).map (s.apply id s.log)
| .receive id i =>
    if s.crashed id then none
    else
      (s.packet id i .net).bind fun packet =>
        (step cfg id (s.party id)
          (.receive packet.msg)).map
            (s.apply id (s.log.move id i .handled))
| .transmit id i =>
    (s.packet id i .queued).bind fun packet =>
      if s.crashed packet.src then none
      else some { s with log := s.log.move id i .net }
| .drop id i =>
    (s.packet id i .net).bind fun packet =>
      if packet.msg.rawMsg.type ≠ .halt ∧
          packet.msg.rawMsg.loop + 1 < (s.party id).started then
        some { s with log := s.log.move id i .dropped }
      else none
| .crash id =>
    if s.crashed id then none
    else
      some
        { s with crashed := Function.update s.crashed id true }

end Net

/- All parties as a machine. -/
def network (cfg : Config n) :
    Machine (Net n) (NetAction n) where
  init := Net.new cfg
  exec := Net.exec cfg

end SpeedingMVBA

end Jumbo

------------------------------------------------------------
-- What a Step Comes to
------------------------------------------------------------

namespace Jumbo

namespace SpeedingMVBA

open Protocol

variable {n : Nat} {cfg : Config n} {s s' : Net n}

/- The result of a step, with all that it has checked. -/
inductive NetStep (cfg : Config n) (s : Net n) :
    NetAction n → Net n → Prop
| act
    {id : Fin n} {a : PartyAction n} {e : Effect n}
    (hAlive : s.crashed id = false)
    (hInternal : a.internal = true)
    (hStep : step cfg id (s.party id) a = some e) :
    NetStep cfg s (.act id a) (s.apply id s.log e)
| receive
    {id : Fin n} {i : Nat} {packet : Packet n} {e : Effect n}
    (hAlive : s.crashed id = false)
    (hAt : s.log.sent[i]? = some packet)
    (hDest : packet.dest id = true)
    (hLoc : s.log.loc id i = .net)
    (hStep :
      step cfg id (s.party id) (.receive packet.msg) =
        some e) :
    NetStep cfg s (.receive id i)
      (s.apply id (s.log.move id i .handled) e)
| transmit
    {id : Fin n} {i : Nat} {packet : Packet n}
    (hAt : s.log.sent[i]? = some packet)
    (hDest : packet.dest id = true)
    (hLoc : s.log.loc id i = .queued)
    (hAlive : s.crashed packet.src = false) :
    NetStep cfg s (.transmit id i)
      { s with log := s.log.move id i .net }
| drop
    {id : Fin n} {i : Nat} {packet : Packet n}
    (hAt : s.log.sent[i]? = some packet)
    (hDest : packet.dest id = true)
    (hLoc : s.log.loc id i = .net)
    (hType : packet.msg.rawMsg.type ≠ .halt)
    (hLeft :
      packet.msg.rawMsg.loop + 1 < (s.party id).started) :
    NetStep cfg s (.drop id i)
      { s with log := s.log.move id i .dropped }
| crash
    {id : Fin n} (hAlive : s.crashed id = false) :
    NetStep cfg s (.crash id)
      { s with crashed := Function.update s.crashed id true }

/- A packet for a party at a place. -/
theorem packet_eq_some
    {id : Fin n} {i : Nat} {loc : Loc} {packet : Packet n}
    (hPacket : s.packet id i loc = some packet) :
    s.log.sent[i]? = some packet ∧ packet.dest id = true ∧
      s.log.loc id i = loc := by
  unfold Net.packet at hPacket
  rcases Option.filter_eq_some_iff.mp hPacket with
    ⟨hAt, hBoth⟩
  rcases Bool.and_eq_true_iff.mp hBoth with ⟨hDest, hLoc⟩
  exact ⟨hAt, hDest, of_decide_eq_true hLoc⟩

/- Every action makes one of the steps. -/
theorem netStep_of_exec
    {a : NetAction n}
    (hExec : Net.exec cfg s a = some s') :
    NetStep cfg s a s' := by
  unfold Net.exec at hExec
  cases a with
  | act id a =>
      rcases Option.ite_none_left_eq_some.mp hExec with
        ⟨hNot, hExec⟩
      rcases Option.map_eq_some_iff.mp hExec with
        ⟨e, hStep, rfl⟩
      simp only [Bool.or_eq_true, Bool.not_eq_true',
        not_or, Bool.not_eq_true, Bool.not_eq_false] at hNot
      exact .act hNot.1 hNot.2 hStep
  | receive id i =>
      rcases Option.ite_none_left_eq_some.mp hExec with
        ⟨hNot, hExec⟩
      rcases Option.bind_eq_some_iff.mp hExec with
        ⟨packet, hPacket, hExec⟩
      rcases Option.map_eq_some_iff.mp hExec with
        ⟨e, hStep, rfl⟩
      rcases packet_eq_some hPacket with ⟨hAt, hDest, hLoc⟩
      exact
        .receive (Bool.eq_false_of_not_eq_true hNot) hAt hDest
          hLoc hStep
  | transmit id i =>
      rcases Option.bind_eq_some_iff.mp hExec with
        ⟨packet, hPacket, hExec⟩
      rcases Option.ite_none_left_eq_some.mp hExec with
        ⟨hNot, hEq⟩
      cases hEq
      rcases packet_eq_some hPacket with ⟨hAt, hDest, hLoc⟩
      exact
        .transmit hAt hDest hLoc
          (Bool.eq_false_of_not_eq_true hNot)
  | drop id i =>
      rcases Option.bind_eq_some_iff.mp hExec with
        ⟨packet, hPacket, hExec⟩
      rcases Option.ite_none_right_eq_some.mp hExec with
        ⟨⟨hType, hLeft⟩, hEq⟩
      cases hEq
      rcases packet_eq_some hPacket with ⟨hAt, hDest, hLoc⟩
      exact .drop hAt hDest hLoc hType hLeft
  | crash id =>
      rcases Option.ite_none_left_eq_some.mp hExec with
        ⟨hNot, hEq⟩
      cases hEq
      exact .crash (Bool.eq_false_of_not_eq_true hNot)

end SpeedingMVBA

end Jumbo
