import Jumbo.ReliableBroadcast.Basic

/-
  The handlers for ECHO and READY messages of one height of
  the weak reliable broadcast.

  A handler reads messages of all heights: it counts those of
  its own height, puts those of later heights into the buffer
  of the next one and leaves out the others.

  Main declarations:
    * `WRBCMsg`
    * `HandleEcho.read`
    * `HandleReady.read`
    * `LeaderEcho.read`
    * `LeaderReady.read`
-/

------------------------------------------------------------
-- Handlers of a Follower
------------------------------------------------------------

namespace Jumbo

namespace WeakBroadcast

open ReliableBroadcast (Bytes increment threshold)

/- An ECHO or READY message; `content` is the hash. -/
structure WRBCMsg (n : Nat) where
  id : Fin n
  round : Int
  content : Bytes
deriving DecidableEq, Repr

variable {n : Nat}

/- The local variables of a follower's `handle_echo`. -/
structure HandleEcho (n : Nat) where
  -- the keys that `echomap` has
  keys : Bytes → Bool
  echomap : Bytes → Nat
  echocount : Nat
  futurebuf : List (WRBCMsg n)
  returned : Bool

/- The handler before its first message. -/
def HandleEcho.new : HandleEcho n where
  keys := fun _ => false
  echomap := fun _ => 0
  echocount := 0
  futurebuf := []
  returned := false

/-
  One message of `handle_echo`: the threshold is looked at
  only for a value that has been counted before.
-/
def HandleEcho.read
    (height : Int) (g : HandleEcho n) (m : WRBCMsg n) :
    HandleEcho n × Option Bytes :=
  if m.round = height then
    let echocount := g.echocount + 1
    let echomap := increment g.echomap m.content
    let fired :=
      g.keys m.content &&
        decide (echomap m.content = threshold n * 2 + 1)
    ({ g with
        keys := Function.update g.keys m.content true
        echomap := echomap
        echocount := echocount
        returned := fired || decide (echocount = n) },
      if fired then some m.content else none)
  else
    ({ g with
        futurebuf :=
          if height < m.round then g.futurebuf ++ [m]
          else g.futurebuf
        returned := decide (g.echocount = n) }, none)

/- The local variables of a follower's `handle_ready`. -/
structure HandleReady (n : Nat) where
  readymap : Bytes → Nat
  futurebuf : List (WRBCMsg n)
  returned : Bool

/- The handler before its first message. -/
def HandleReady.new : HandleReady n where
  readymap := fun _ => 0
  futurebuf := []
  returned := false

/- What one READY message signals. -/
structure ReadyFired where
  relay : Bool
  output : Bool
deriving DecidableEq, Repr

/- Readies are counted for each hash on its own. -/
def HandleReady.read
    (height : Int) (g : HandleReady n) (m : WRBCMsg n) :
    HandleReady n × ReadyFired :=
  if height < m.round then
    ({ g with futurebuf := g.futurebuf ++ [m] },
      ⟨false, false⟩)
  else if m.round = height then
    let readymap := increment g.readymap m.content
    let fired : ReadyFired :=
      { relay :=
          decide (readymap m.content = threshold n + 1)
        output :=
          decide
            (readymap m.content = threshold n * 2 + 1) }
    ({ g with
        readymap := readymap
        returned := fired.output }, fired)
  else (g, ⟨false, false⟩)

end WeakBroadcast

end Jumbo

------------------------------------------------------------
-- Handlers of the Broadcaster
------------------------------------------------------------

namespace Jumbo

namespace WeakBroadcast

open ReliableBroadcast (Bytes threshold)

variable {n : Nat}

/- A broadcaster's `handle_echo`. -/
structure LeaderEcho (n : Nat) where
  echocount : Nat
  futurebuf : List (WRBCMsg n)
  returned : Bool

/- The handler before its first message. -/
def LeaderEcho.new : LeaderEcho n := ⟨0, [], false⟩

/- ECHO messages for the own hash are counted. -/
def LeaderEcho.read
    (height : Int) (myhash : Bytes)
    (g : LeaderEcho n) (m : WRBCMsg n) :
    LeaderEcho n × Bool :=
  if m.round = height then
    if m.content = myhash then
      let echocount := g.echocount + 1
      let fired := decide (echocount = threshold n * 2)
      ({ g with
          echocount := echocount
          returned := fired }, fired)
    else (g, false)
  else if height < m.round then
    ({ g with futurebuf := g.futurebuf ++ [m] }, false)
  else (g, false)

/- A broadcaster's `handle_ready`. -/
structure LeaderReady (n : Nat) where
  readycount : Nat
  futurebuf : List (WRBCMsg n)
  returned : Bool

/- The handler before its first message. -/
def LeaderReady.new : LeaderReady n := ⟨0, [], false⟩

/- READY messages for the own hash are counted. -/
def LeaderReady.read
    (height : Int) (myhash : Bytes)
    (g : LeaderReady n) (m : WRBCMsg n) :
    LeaderReady n × ReadyFired :=
  if m.round = height then
    if m.content = myhash then
      let readycount := g.readycount + 1
      let fired : ReadyFired :=
        { relay := decide (readycount = threshold n + 1)
          output := decide (readycount = threshold n * 2) }
      ({ g with
          readycount := readycount
          returned := fired.output }, fired)
    else (g, ⟨false, false⟩)
  else if height < m.round then
    ({ g with futurebuf := g.futurebuf ++ [m] },
      ⟨false, false⟩)
  else (g, ⟨false, false⟩)

end WeakBroadcast

end Jumbo
