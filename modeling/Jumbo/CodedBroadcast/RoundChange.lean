import Jumbo.WeakBroadcast.Follower
import Jumbo.CodedBroadcast.Follower

/-
  What the change of rounds loses in the followers of the
  two reliable broadcasts, and when it loses nothing.

  A handler that waits for a message when it is told to stop
  may take one more. In the weak broadcast it drops what is
  of a later round; and where it takes a message out of the
  buffer that `check_rbcbuf` has just counted, `Start` waits
  for ever.

  Main declarations:
    * `rounds_carried`
    * `not_carried`
-/

------------------------------------------------------------
-- Every Run
------------------------------------------------------------

namespace Jumbo

namespace CodedBroadcast

open Protocol
open Protocol.Relay

/-
  In both followers the rounds lose nothing and nothing
  waits for ever, as long as a handler that has been told to
  stop takes no message of a later round and none that is
  being drained, and is told to stop when it has none, nor
  its buffer where nobody drains it.
-/
theorem rounds_carried
    {n : Nat} (cfg : Config n) (nid : Fin n) (lid : Int32) :
    (∀ s : WeakBroadcast.BCF n,
      (WeakBroadcast.bcf nid).ReachableBy
          (fun s a => s.orderly a = true) s →
        s.Carried nid) ∧
      ∀ s : BCF n,
        (bcf cfg nid lid).ReachableBy
            (fun s a => s.orderly cfg nid a = true) s →
          s.Carried cfg nid lid :=
  ⟨fun _ hReach => WeakBroadcast.BCF.carried hReach,
    fun _ hReach => BCF.carried hReach⟩

end CodedBroadcast

end Jumbo

------------------------------------------------------------
-- Two Runs
------------------------------------------------------------

namespace Jumbo

namespace CodedBroadcast

open Protocol
open Protocol.Relay
open WeakBroadcast (WRBCMsg)

/- An ECHO of round 5 that comes in round 0. -/
def earlyEcho : WRBCMsg 4 := ⟨1, 5, [7]⟩

/- Three READYs come and are read, and the round ends. -/
def readyRound (height : Nat) :
    List (WeakBroadcast.BCFAction 4) :=
  ([.readyIn ⟨1, height, [9]⟩, .readyIn ⟨2, height, [9]⟩,
      .readyIn ⟨3, height, [9]⟩]
        : List (WeakBroadcast.BCFAction 4)) ++
    (List.replicate 3
      [.ready height .check,
        .ready height (.receive .incoming),
        .ready height .work]).flatten ++
      (List.replicate 4 .start
        : List (WeakBroadcast.BCFAction 4))

/- The ECHO waits for its round in the buffer of the next. -/
def earlyRun : List (WeakBroadcast.BCFAction 4) :=
  (List.replicate 4 .start
    : List (WeakBroadcast.BCFAction 4)) ++
    ([.echoIn earlyEcho, .echo 0 .check,
      .echo 0 (.receive .incoming), .echo 0 .work]
        : List (WeakBroadcast.BCFAction 4)) ++
      readyRound 0 ++ ([.echo 0 .check]
        : List (WeakBroadcast.BCFAction 4)) ++
        (List.replicate 4 .start
          : List (WeakBroadcast.BCFAction 4))

/- A broadcast without hash and code. -/
def plainConfig : Config 4 := ⟨fun bytes => bytes, some⟩

/- A VAL of round 3 that comes in round 0. -/
def earlyVal : RBCMsg := ⟨1, 2, 0, [], []⟩

/- A VAL comes before its round. -/
def earlyValRun : List BCFAction :=
  (List.replicate 5 .start : List BCFAction) ++
    ([.readyIn earlyVal, .val 0 .check,
      .val 0 (.receive .incoming), .val 0 .work]
        : List BCFAction)

/- Early messages are carried into their rounds. -/
theorem rounds_carried_early :
    (((WeakBroadcast.bcf (0 : Fin 4)).drive
          (fun s a => s.orderly a)
          (WeakBroadcast.BCF.init 4) earlyRun).height = 1 ∧
        ((WeakBroadcast.bcf (0 : Fin 4)).drive
          (fun s a => s.orderly a)
          (WeakBroadcast.BCF.init 4)
          earlyRun).echo.buffers 2 = [earlyEcho] ∧
        ((WeakBroadcast.bcf (0 : Fin 4)).drive
          (fun s a => s.orderly a)
          (WeakBroadcast.BCF.init 4)
          earlyRun).Carried 0) ∧
      ((bcf plainConfig 0 1).drive
          (fun s a => s.orderly plainConfig 0 a)
          (BCF.init plainConfig 0) earlyValRun).val.buffers
            2 = [earlyVal] ∧
        ((bcf plainConfig 0 1).drive
          (fun s a => s.orderly plainConfig 0 a)
          (BCF.init plainConfig 0) earlyValRun).Carried
            plainConfig 0 1 :=
  ⟨⟨by decide +kernel, by decide +kernel,
      (rounds_carried plainConfig 0 1).1 _
        (Machine.ReachableBy.drive .init earlyRun)⟩,
    by decide +kernel,
    (rounds_carried plainConfig 0 1).2 _
      (Machine.ReachableBy.drive .init earlyValRun)⟩

/-
  In round 1 the handler waits when it is told to stop. Then
  `Start` counts the buffer, and the handler takes the ECHO
  out of it and drops it.
-/
def lateRun : List (WeakBroadcast.BCFAction 4) :=
  earlyRun ++
    ([.echo 1 .check] : List (WeakBroadcast.BCFAction 4)) ++
    readyRound 1 ++
    ([.start, .echo 1 (.receive .buffer), .echo 1 .work]
      : List (WeakBroadcast.BCFAction 4))

/- Where that run ends. -/
def lateState : WeakBroadcast.BCF 4 :=
  (WeakBroadcast.bcf (0 : Fin 4)).drive (fun _ _ => true)
    (WeakBroadcast.BCF.init 4) lateRun

/- The ECHO is lost, and `Start` waits for ever. -/
theorem not_carried :
    (WeakBroadcast.bcf (0 : Fin 4)).Reachable lateState ∧
      ¬ lateState.echo.Balanced
          (WeakBroadcast.echoHandler 4) ∧
        lateState.pc = .echo ∧
          ∀ s,
            (⟨lateState, WeakBroadcast.BCF.exec 0⟩ :
              Machine (WeakBroadcast.BCF 4)
                (WeakBroadcast.BCFAction 4)).Reachable s →
              s.exec 0 .start = none := by
  have hPc : lateState.pc = .echo := by decide +kernel
  refine
    ⟨Machine.reachable_drive _ lateRun, ?_, hPc, ?_⟩
  · intro hBalanced
    have hCount :=
      hBalanced earlyEcho 5 rfl (by decide +kernel)
    have hNot :
        lateState.echo.arrived.count earlyEcho ≠
          lateState.echo.pending.count earlyEcho +
            (lateState.echo.workers 5).handled.count
              earlyEcho := by
      decide +kernel
    exact hNot hCount
  · intro s hReach
    have hStuck : lateState.echo.Stuck := by
      refine ⟨⟨0, by decide +kernel⟩, by decide +kernel, ?_⟩
      intro i hi
      have hRound : lateState.echo.round = 2 := by
        decide +kernel
      have hZero : i = 0 := by omega
      subst hZero
      decide +kernel
    exact WeakBroadcast.BCF.stuck_run hPc hStuck hReach

end CodedBroadcast

end Jumbo
