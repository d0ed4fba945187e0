import Mathlib.Data.List.Count
import Mathlib.Tactic.Common
import Jumbo.Lib.Machine

/-
  Workers of consecutive rounds that read one channel.

  The worker of a round handles the messages of its round and
  puts those of later rounds into the buffer that the worker
  of the next round reads beside the channel. Between two
  rounds what is left in the buffer before may be drained by
  a counted loop into the one after it. A worker that has
  been told to stop stops when it notices, and it may take a
  message before.

  Main declarations:
    * `Lane`
    * `Lane.exec`
    * `Lane.orderly`
    * `Lane.Balanced`
    * `Lane.Served`
    * `Lane.Sound`
-/

------------------------------------------------------------
-- Lanes
------------------------------------------------------------

namespace Protocol

namespace Relay

variable {α σ : Type*}

/-
  Where a worker is: before its first look at whether it has
  been told to stop, waiting for that or a message, with a
  message, or done.
-/
inductive Pc (α : Type*)
| idle
| outer
| inner
| holding (msg : α)
| returned
deriving DecidableEq

/- The message that a worker has taken and not handled yet. -/
def Pc.held : Pc α → List α
| .holding msg => [msg]
| _ => []

/- `handled` are the messages of its round it has read. -/
structure Worker (α σ : Type*) where
  pc : Pc α
  state : σ
  handled : List α

/-
  What is done for a round: its worker is not started, the
  buffer before is drained, the worker runs, or it has been
  told to stop.
-/
inductive Stage (α : Type*)
| before
| draining (left : Nat) (carried : Option α)
| working
| closed
deriving DecidableEq

/- What a worker does with a message. -/
structure Reading (α σ : Type*) where
  state : σ
  later : List α
  returned : Bool

/-
  The code of the workers. `read` is told whether the worker
  should stop, and has no result where the process ends.
-/
structure Handler (α σ : Type*) where
  new : σ
  round : α → Int
  drains : Bool
  read : Bool → Nat → σ → α → Option (Reading α σ)

/-
  The worker of round `i` reads `buffers (i + 1)` and writes
  `buffers (i + 2)`. `arrived` are the messages that came
  when their round was not over.
-/
structure Lane (α σ : Type*) where
  round : Nat
  stage : Stage α
  incoming : List α
  buffers : Nat → List α
  workers : Nat → Worker α σ
  arrived : List α

/- The channels a worker reads from. -/
inductive Source
| incoming
| buffer
deriving DecidableEq, Repr

/- The steps of a worker. -/
inductive Act
| check
| stop
| receive (source : Source)
| work
deriving DecidableEq, Repr

/- The steps of the main loop, the router and the workers. -/
inductive LaneAction (α : Type*)
| arrive (msg : α)
| measure
| drain
| start
| close
| next
| worker (i : Nat) (act : Act)
deriving DecidableEq

namespace Lane

/- Nothing has arrived and no worker runs. -/
def init (hd : Handler α σ) : Lane α σ where
  round := 0
  stage := .before
  incoming := []
  buffers := fun _ => []
  workers := fun _ => ⟨.idle, hd.new, []⟩
  arrived := []

/- The first round that is not over. -/
def low (L : Lane α σ) : Nat :=
  match L.stage with
  | .closed => L.round + 1
  | _ => L.round

/- The worker of the round is there. -/
def running (L : Lane α σ) : Bool :=
  match L.stage with
  | .working => true
  | _ => false

/- Whether the worker of a round has been told to stop. -/
def ended (L : Lane α σ) (i : Nat) : Bool :=
  decide (i < L.low)

/- The router puts a message into the channel of the lane. -/
def arrive
    (hd : Handler α σ) (L : Lane α σ) (msg : α) :
    Lane α σ :=
  { L with
    incoming := L.incoming ++ [msg]
    arrived :=
      if L.round ≤ hd.round msg then L.arrived ++ [msg]
      else L.arrived }

/- Read how long the buffer is. -/
def measure
    (hd : Handler α σ) (L : Lane α σ) : Option (Lane α σ) :=
  match L.stage with
  | .before =>
      if hd.drains then
        some { L with
          stage :=
            .draining (L.buffers L.round).length none }
      else none
  | _ => none

/- Half a pass of the counted loop: receive, or send on. -/
def drain
    (hd : Handler α σ) (L : Lane α σ) : Option (Lane α σ) :=
  match L.stage with
  | .draining (left + 1) none =>
      match L.buffers L.round with
      | [] => none
      | msg :: rest =>
          some { L with
            stage := .draining left (some msg)
            buffers :=
              Function.update L.buffers L.round rest }
  | .draining left (some msg) =>
      some { L with
        stage := .draining left none
        buffers :=
          if L.round ≤ hd.round msg then
            Function.update L.buffers (L.round + 1)
              (L.buffers (L.round + 1) ++ [msg])
          else L.buffers }
  | _ => none

/- Start the worker of the round, with a new buffer. -/
def launch (hd : Handler α σ) (L : Lane α σ) : Lane α σ :=
  { L with
    stage := .working
    buffers := Function.update L.buffers (L.round + 2) []
    workers :=
      Function.update L.workers L.round
        ⟨.outer, hd.new, []⟩ }

/- Start the worker of a round once draining is over. -/
def start
    (hd : Handler α σ) (L : Lane α σ) : Option (Lane α σ) :=
  match L.stage with
  | .before => if hd.drains then none else some (L.launch hd)
  | .draining 0 none => some (L.launch hd)
  | _ => none

/- The next thing to do before the worker runs. -/
def prepare
    (hd : Handler α σ) (L : Lane α σ) : Option (Lane α σ) :=
  match L.stage with
  | .before => if hd.drains then L.measure hd else L.start hd
  | .draining 0 none => L.start hd
  | _ => L.drain hd

/- The main loop ends the round. -/
def close (L : Lane α σ) : Option (Lane α σ) :=
  match L.stage with
  | .working => some { L with stage := .closed }
  | _ => none

/- The main loop goes on to the next round. -/
def next (L : Lane α σ) : Option (Lane α σ) :=
  match L.stage with
  | .closed =>
      some { L with stage := .before, round := L.round + 1 }
  | _ => none

/- A worker goes on to another statement. -/
def setPc (L : Lane α σ) (i : Nat) (pc : Pc α) : Lane α σ :=
  { L with
    workers :=
      Function.update L.workers i
        { L.workers i with pc := pc } }

/- What a channel holds for the worker of a round. -/
def offers (L : Lane α σ) (i : Nat) : Source → List α
| .incoming => L.incoming
| .buffer => L.buffers (i + 1)

/- What is left of the channel that was read. -/
def taken (L : Lane α σ) (i : Nat) (rest : List α) :
    Source → Lane α σ
| .incoming => { L with incoming := rest }
| .buffer =>
    { L with
      buffers := Function.update L.buffers (i + 1) rest }

/- A worker looks at a message it has received. -/
def work
    (hd : Handler α σ) (L : Lane α σ) (i : Nat) (msg : α) :
    Option (Lane α σ) :=
  (hd.read (L.ended i) i (L.workers i).state msg).map
    fun reading =>
      { L with
        buffers :=
          Function.update L.buffers (i + 2)
            (L.buffers (i + 2) ++ reading.later)
        workers :=
          Function.update L.workers i
            { pc :=
                if reading.returned then .returned
                else .outer
              state := reading.state
              handled :=
                if hd.round msg = i then
                  (L.workers i).handled ++ [msg]
                else (L.workers i).handled } }

/- One statement of a worker. -/
def act
    (hd : Handler α σ) (L : Lane α σ) (i : Nat) :
    Act → Option (Lane α σ)
| .check =>
    match (L.workers i).pc with
    | .outer =>
        some
          (L.setPc i (if L.ended i then .returned else .inner))
    | _ => none
| .stop =>
    match (L.workers i).pc with
    | .inner =>
        if L.ended i then some (L.setPc i .returned) else none
    | _ => none
| .receive source =>
    match (L.workers i).pc, L.offers i source with
    | .inner, msg :: rest =>
        some ((L.taken i rest source).setPc i (.holding msg))
    | _, _ => none
| .work =>
    match (L.workers i).pc with
    | .holding msg => L.work hd i msg
    | _ => none

/- One step of the lane. -/
def exec
    (hd : Handler α σ) (L : Lane α σ) :
    LaneAction α → Option (Lane α σ)
| .arrive msg => some (L.arrive hd msg)
| .measure => L.measure hd
| .drain => L.drain hd
| .start => L.start hd
| .close => L.close
| .next => L.next
| .worker i act => L.act hd i act

end Lane

/- The lane of one kind of message. -/
def lane (hd : Handler α σ) : Machine (Lane α σ) (LaneAction α)
    where
  init := Lane.init hd
  exec := Lane.exec hd

end Relay

end Protocol

------------------------------------------------------------
-- What Is Kept
------------------------------------------------------------

namespace Protocol

namespace Relay

variable {α σ : Type*}

/- How a worker tells messages of its round from others. -/
structure Lawful (hd : Handler α σ) : Prop where
  later_of_lt :
    ∀ {i state msg reading},
      hd.read false i state msg = some reading →
        i < hd.round msg → reading.later = [msg]
  later_of_le :
    ∀ {stop i state msg reading},
      hd.read stop i state msg = some reading →
        hd.round msg ≤ i → reading.later = []

namespace Lane

/- Where a message of a round that is not over may be. -/
def pending (L : Lane α σ) : List α :=
  match L.stage with
  | .before =>
      L.incoming ++
        (L.buffers L.round ++ L.buffers (L.round + 1))
  | .draining _ carried =>
      L.incoming ++
        (carried.toList ++
          (L.buffers L.round ++ L.buffers (L.round + 1)))
  | .working =>
      L.incoming ++
        ((L.workers L.round).pc.held ++
          (L.buffers (L.round + 1) ++
            L.buffers (L.round + 2)))
  | .closed =>
      L.incoming ++
        (L.buffers (L.round + 1) ++ L.buffers (L.round + 2))

/- The worker of the round is not started yet. -/
def Unstarted (L : Lane α σ) (i : Nat) : Prop :=
  match L.stage with
  | .before => L.round ≤ i
  | .draining _ _ => L.round ≤ i
  | _ => L.round < i

/- Whether a buffer is being drained. -/
def drained (L : Lane α σ) (i : Nat) : Bool :=
  match L.stage with
  | .draining _ _ => decide (i = L.round)
  | _ => false

/-
  The condition on the steps. A worker that has been told to
  stop takes no message of a later round and none of a buffer
  that is being drained. When a worker is told to stop it has
  no message of a later round, and if nobody drains its
  buffer, neither has the buffer.
-/
def orderly
    (hd : Handler α σ) (L : Lane α σ) :
    LaneAction α → Bool
| .worker i (.receive source) =>
    !L.ended i ||
      ((L.offers i source).head?.all
          (fun msg => decide (hd.round msg ≤ i)) &&
        !(decide (source = .buffer) && L.drained (i + 1)))
| .close =>
    (L.workers L.round).pc.held.all
        (fun msg => decide (hd.round msg ≤ L.round)) &&
      (hd.drains ||
        (L.buffers (L.round + 1)).all
          fun msg => decide (hd.round msg ≤ L.round))
| _ => true

/-
  The worker of a round is done with what has come: it has
  returned, the process ends, or each message of the round
  has been handled, and once.
-/
def Served
    [DecidableEq α] (hd : Handler α σ) (L : Lane α σ)
    (i : Nat) : Prop :=
  (L.workers i).pc = .returned ∨
    (∃ msg, (L.workers i).pc = .holding msg ∧
      hd.read false i (L.workers i).state msg = none) ∨
      ∀ msg, hd.round msg = i →
        L.arrived.count msg =
          (L.workers i).handled.count msg

/-
  Every message that came before its round was over is where
  it will be found, or its worker has handled it.
-/
def Balanced
    [DecidableEq α] (hd : Handler α σ) (L : Lane α σ) :
    Prop :=
  ∀ msg (i : Nat), hd.round msg = i → L.low ≤ i →
    L.arrived.count msg =
      L.pending.count msg + (L.workers i).handled.count msg

/- The counted loop has as many messages as it counts. -/
structure Sound
    [DecidableEq α] (hd : Handler α σ) (L : Lane α σ) :
    Prop where
  balanced : L.Balanced hd
  fresh :
    ∀ i, L.Unstarted i →
      (L.workers i).pc = .idle ∧ (L.workers i).handled = []
  clean :
    ∀ i, i < L.low → ∀ msg ∈ (L.workers i).pc.held,
      hd.round msg ≤ i
  running :
    L.stage = .working → (L.workers L.round).pc ≠ .idle
  measured :
    ∀ left carried, L.stage = .draining left carried →
      hd.drains = true ∧
        (L.buffers L.round).length = left
  future :
    L.stage = .working →
      ∀ msg ∈ L.buffers (L.round + 2),
        L.round < hd.round msg
  behind :
    hd.drains = false →
      (L.stage = .closed →
        ∀ msg ∈ L.buffers (L.round + 1),
          hd.round msg ≤ L.round) ∧
      (L.stage = .before →
        ∀ msg ∈ L.buffers L.round,
          hd.round msg < L.round)

end Lane

end Relay

end Protocol
