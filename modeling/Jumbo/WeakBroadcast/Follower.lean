import Jumbo.Lib.RelayProgress
import Jumbo.WeakBroadcast.Sequencing

/-
  How a follower of the weak reliable broadcast goes from
  round to round.

  `Start` drains the buffers of the round before with
  `check_rbcbuf`, starts the handlers of the round, waits for
  what they signal and tells them to stop. Its handlers, the
  router, and the goroutines that send READY run beside it.
  Channels are never full.

  Main declarations:
    * `BCF`
    * `bcf`
    * `BCF.orderly`
    * `BCF.Staged`
    * `BCF.Carried`
    * `BCF.carried`
    * `BCF.stuck_run`
-/

------------------------------------------------------------
-- Handlers
------------------------------------------------------------

namespace Jumbo

namespace WeakBroadcast

open Protocol
open Protocol.Relay
open ReliableBroadcast (Bytes)

variable {n : Nat}

/- What a handler has sent to `Start` for one message. -/
structure Signals where
  readysignal : List Bytes
  outputsignal : List Bytes
deriving DecidableEq

/- No signal. -/
def Signals.none : Signals := ⟨[], []⟩

/- `handle_echo`: a later message is dropped after the stop. -/
def echoHandler (n : Nat) :
    Handler (WRBCMsg n) (HandleEcho n × Signals) where
  new := (HandleEcho.new, Signals.none)
  round := WRBCMsg.round
  drains := true
  read stop height g msg :=
    let (g', fired) :=
      HandleEcho.read height { g.1 with futurebuf := [] } msg
    some
      { state := (g', ⟨fired.toList, []⟩)
        later := if stop then [] else g'.futurebuf
        returned := g'.returned }

/- `handle_ready`. -/
def readyHandler (n : Nat) :
    Handler (WRBCMsg n) (HandleReady n × Signals) where
  new := (HandleReady.new, Signals.none)
  round := WRBCMsg.round
  drains := true
  read _ height g msg :=
    let (g', fired) :=
      HandleReady.read height { g.1 with futurebuf := [] } msg
    some
      { state :=
          (g',
            { readysignal :=
                if fired.relay then [msg.content] else []
              outputsignal :=
                if fired.output then [msg.content] else [] })
        later := g'.futurebuf
        returned := g'.returned }

/- Only messages of later rounds are kept. -/
theorem HandleEcho.read_futurebuf
    (height : Int) (g : HandleEcho n) (msg : WRBCMsg n) :
    (HandleEcho.read height g msg).1.futurebuf =
      if height < msg.round then g.futurebuf ++ [msg]
      else g.futurebuf := by
  unfold HandleEcho.read
  split
  · rename_i hOwn
    rw [if_neg (by omega)]
  · rfl

/- Only messages of later rounds are kept. -/
theorem HandleReady.read_futurebuf
    (height : Int) (g : HandleReady n) (msg : WRBCMsg n) :
    (HandleReady.read height g msg).1.futurebuf =
      if height < msg.round then g.futurebuf ++ [msg]
      else g.futurebuf := by
  unfold HandleReady.read
  split
  · rfl
  · split
    · rfl
    · rfl

/- What the handler of ECHO hands on. -/
theorem echoHandler_later
    {stop : Bool} {height : Nat} {g : HandleEcho n × Signals}
    {msg : WRBCMsg n}
    {reading : Reading (WRBCMsg n) (HandleEcho n × Signals)}
    (hRead :
      (echoHandler n).read stop height g msg =
        some reading) :
    reading.later =
      if stop then []
      else if height < msg.round then [msg] else [] := by
  unfold echoHandler at hRead
  dsimp only at hRead
  cases hRead
  dsimp only
  rw [HandleEcho.read_futurebuf, List.nil_append]

/- What the handler of READY hands on. -/
theorem readyHandler_later
    {stop : Bool} {height : Nat}
    {g : HandleReady n × Signals} {msg : WRBCMsg n}
    {reading : Reading (WRBCMsg n) (HandleReady n × Signals)}
    (hRead :
      (readyHandler n).read stop height g msg =
        some reading) :
    reading.later =
      if height < msg.round then [msg] else [] := by
  unfold readyHandler at hRead
  dsimp only at hRead
  cases hRead
  dsimp only
  rw [HandleReady.read_futurebuf, List.nil_append]

/- The handler of ECHO hands on what is too early. -/
theorem echoHandler_lawful : Lawful (echoHandler n) where
  later_of_lt := by
    intro height g msg reading hRead hLater
    rw [echoHandler_later hRead]
    exact if_pos hLater
  later_of_le := by
    intro stop height g msg reading hRead hLe
    rw [echoHandler_later hRead]
    cases stop with
    | true => rfl
    | false => exact if_neg (Int.not_lt.mpr hLe)

/- So does the handler of READY. -/
theorem readyHandler_lawful : Lawful (readyHandler n) where
  later_of_lt := by
    intro height g msg reading hRead hLater
    rw [readyHandler_later hRead]
    exact if_pos hLater
  later_of_le := by
    intro stop height g msg reading hRead hLe
    rw [readyHandler_later hRead]
    exact if_neg (Int.not_lt.mpr hLe)

end WeakBroadcast

end Jumbo

------------------------------------------------------------
-- Start and Its Goroutines
------------------------------------------------------------

namespace Jumbo

namespace WeakBroadcast

open Protocol
open Protocol.Relay
open ReliableBroadcast (Bytes)

variable {n : Nat}

/- What `Start` does next. -/
inductive Pc
| echo
| ready
| readysignal
| outputsignal
| close
| next
deriving DecidableEq, Repr

/-
  `readying` are the goroutines that `send_ready`; the
  signals are those of the round.
-/
structure BCF (n : Nat) where
  height : Nat
  pc : Pc
  echo : Lane (WRBCMsg n) (HandleEcho n × Signals)
  ready : Lane (WRBCMsg n) (HandleReady n × Signals)
  readysignal : List Bytes
  outputsignal : List Bytes
  readying : List (Nat × Bytes)
  roundinfoCH : List Roundinfo

/- A message comes, or a goroutine of the follower steps. -/
inductive BCFAction (n : Nat)
| readyIn (msg : WRBCMsg n)
| echoIn (msg : WRBCMsg n)
| sendEcho (round : Int) (hash : Bytes)
| sendReady (k : Nat)
| start
| echo (i : Nat) (act : Act)
| ready (i : Nat) (act : Act)
deriving DecidableEq

namespace BCF

/- The follower before its first round. -/
def init (n : Nat) : BCF n where
  height := 0
  pc := .echo
  echo := Lane.init (echoHandler n)
  ready := Lane.init (readyHandler n)
  readysignal := []
  outputsignal := []
  readying := []
  roundinfoCH := []

/- One step of `Start`; a new round has new channels. -/
def start (s : BCF n) : Option (BCF n) :=
  match s.pc with
  | .echo => do
      let echo ← s.echo.prepare (echoHandler n)
      some { s with
        echo := echo
        pc := if echo.running then .ready else .echo }
  | .ready => do
      let ready ← s.ready.prepare (readyHandler n)
      some { s with
        ready := ready
        pc := if ready.running then .readysignal else .ready }
  | .readysignal =>
      match s.readysignal with
      | [] => none
      | hash :: rest =>
          some { s with
            readysignal := rest
            readying := s.readying ++ [(s.height, hash)]
            pc := .outputsignal }
  | .outputsignal =>
      match s.outputsignal with
      | [] => none
      | hash :: rest =>
          some { s with
            outputsignal := rest
            roundinfoCH := s.roundinfoCH ++ [⟨s.height, hash⟩]
            pc := .close }
  | .close => do
      let echo ← s.echo.close
      let ready ← s.ready.close
      some { s with echo := echo, ready := ready, pc := .next }
  | .next => do
      let echo ← s.echo.next
      let ready ← s.ready.next
      some { s with
        height := s.height + 1
        pc := .echo
        echo := echo
        ready := ready
        readysignal := []
        outputsignal := [] }

/- What comes on the channels of this round. -/
def signalled
    (s : BCF n) (i : Nat) (act : Act)
    (signals : Signals) : BCF n :=
  if act = .work ∧ i = s.height then
    { s with
      readysignal := s.readysignal ++ signals.readysignal
      outputsignal := s.outputsignal ++ signals.outputsignal }
  else s

/-
  `handle_msgin` looks at the height. A party's own ECHO
  comes when `handle_val` has sent it, its own READY from
  one of the goroutines.
-/
def exec (nid : Fin n) (s : BCF n) :
    BCFAction n → Option (BCF n)
| .readyIn msg =>
    if s.height ≤ msg.round then
      some { s with
        ready := s.ready.arrive (readyHandler n) msg }
    else some s
| .echoIn msg =>
    if s.height ≤ msg.round then
      some { s with
        echo := s.echo.arrive (echoHandler n) msg }
    else some s
| .sendEcho round hash =>
    some { s with
      echo := s.echo.arrive (echoHandler n) ⟨nid, round, hash⟩ }
| .sendReady k => do
    let (height, hash) ← s.readying[k]?
    some { s with
      readying := s.readying.eraseIdx k
      ready :=
        s.ready.arrive (readyHandler n) ⟨nid, height, hash⟩ }
| .start => s.start
| .echo i act => do
    let echo ← s.echo.act (echoHandler n) i act
    some
      ({ s with echo := echo }.signalled i act
        (echo.workers i).state.2)
| .ready i act => do
    let ready ← s.ready.act (readyHandler n) i act
    some
      ({ s with ready := ready }.signalled i act
        (ready.workers i).state.2)

end BCF

/- The follower as a machine. -/
def bcf (nid : Fin n) :
    Machine (BCF n) (BCFAction n) where
  init := BCF.init n
  exec := BCF.exec nid

end WeakBroadcast

end Jumbo

------------------------------------------------------------
-- Its Lanes
------------------------------------------------------------

namespace Jumbo

namespace WeakBroadcast

open Protocol
open Protocol.Relay
open ReliableBroadcast (Bytes)

variable {n : Nat} {nid : Fin n}

namespace BCF

/-
  The condition on the steps: that of both lanes, for the
  handlers and where `Start` tells them to stop.
-/
def orderly (s : BCF n) : BCFAction n → Bool
| .echo i act => s.echo.orderly (echoHandler n) (.worker i act)
| .ready i act =>
    s.ready.orderly (readyHandler n) (.worker i act)
| .start =>
    decide (s.pc ≠ .close) ||
      (s.echo.orderly (echoHandler n) .close &&
        s.ready.orderly (readyHandler n) .close)
| _ => true

/- Where `Start` is says what the lanes do. -/
def Stages (s : BCF n) : Prop :=
  match s.pc with
  | .echo => s.echo.Preparing ∧ s.ready.stage = .before
  | .ready => s.echo.stage = .working ∧ s.ready.Preparing
  | .next => s.echo.stage = .closed ∧ s.ready.stage = .closed
  | _ => s.echo.stage = .working ∧ s.ready.stage = .working

/- Both handlers are in the round of the main loop. -/
structure Staged (s : BCF n) : Prop where
  echoRound : s.echo.round = s.height
  readyRound : s.ready.round = s.height
  stages : s.Stages

section Lanes

variable {s s' : BCF n}

/- Signals change nothing in the lanes. -/
theorem signalled_lanes
    (s : BCF n) (i : Nat) (act : Act) (signals : Signals) :
    (s.signalled i act signals).echo = s.echo ∧
      (s.signalled i act signals).ready = s.ready ∧
        (s.signalled i act signals).pc = s.pc ∧
          (s.signalled i act signals).height = s.height := by
  unfold signalled
  split
  · exact ⟨rfl, rfl, rfl, rfl⟩
  · exact ⟨rfl, rfl, rfl, rfl⟩

/- The main loop moves both lanes alike. -/
theorem start_moves
    (hOk : s.orderly .start = true)
    (hExec : s.start = some s') :
    s.echo.Moves (echoHandler n) s'.echo ∧
      s.ready.Moves (readyHandler n) s'.ready := by
  unfold start at hExec
  split at hExec
  · rcases Option.bind_eq_some_iff.mp hExec with
      ⟨echo, hEcho, hEq⟩
    cases hEq
    exact ⟨Lane.prepare_moves hEcho, .inl rfl⟩
  · rcases Option.bind_eq_some_iff.mp hExec with
      ⟨ready, hReady, hEq⟩
    cases hEq
    exact ⟨.inl rfl, Lane.prepare_moves hReady⟩
  · split at hExec
    · cases hExec
    · cases hExec
      exact ⟨.inl rfl, .inl rfl⟩
  · split at hExec
    · cases hExec
    · cases hExec
      exact ⟨.inl rfl, .inl rfl⟩
  · rename_i hPc
    rcases Option.bind_eq_some_iff.mp hExec with
      ⟨echo, hEcho, hRest⟩
    rcases Option.bind_eq_some_iff.mp hRest with
      ⟨ready, hReady, hEq⟩
    cases hEq
    dsimp only [orderly] at hOk
    rw [hPc] at hOk
    rcases Bool.and_eq_true_iff.mp hOk with
      ⟨hEchoOk, hReadyOk⟩
    exact
      ⟨.inr ⟨.close, hEchoOk, hEcho⟩,
        .inr ⟨.close, hReadyOk, hReady⟩⟩
  · rcases Option.bind_eq_some_iff.mp hExec with
      ⟨echo, hEcho, hRest⟩
    rcases Option.bind_eq_some_iff.mp hRest with
      ⟨ready, hReady, hEq⟩
    cases hEq
    exact
      ⟨.inr ⟨.next, rfl, hEcho⟩, .inr ⟨.next, rfl, hReady⟩⟩

/- A step does at most one thing to each lane. -/
theorem exec_moves
    {action : BCFAction n}
    (hOk : s.orderly action = true)
    (hExec : s.exec nid action = some s') :
    s.echo.Moves (echoHandler n) s'.echo ∧
      s.ready.Moves (readyHandler n) s'.ready := by
  cases action with
  | readyIn msg =>
      dsimp only [exec] at hExec
      split at hExec
      · cases hExec
        exact ⟨.inl rfl, .inr ⟨.arrive msg, rfl, rfl⟩⟩
      · cases hExec
        exact ⟨.inl rfl, .inl rfl⟩
  | echoIn msg =>
      dsimp only [exec] at hExec
      split at hExec
      · cases hExec
        exact ⟨.inr ⟨.arrive msg, rfl, rfl⟩, .inl rfl⟩
      · cases hExec
        exact ⟨.inl rfl, .inl rfl⟩
  | sendEcho round hash =>
      cases hExec
      exact
        ⟨.inr ⟨.arrive ⟨nid, round, hash⟩, rfl, rfl⟩,
          .inl rfl⟩
  | sendReady k =>
      rcases Option.bind_eq_some_iff.mp hExec with
        ⟨⟨height, hash⟩, _, hEq⟩
      cases hEq
      exact
        ⟨.inl rfl,
          .inr ⟨.arrive ⟨nid, height, hash⟩, rfl, rfl⟩⟩
  | start => exact start_moves hOk hExec
  | echo i act =>
      rcases Option.bind_eq_some_iff.mp hExec with
        ⟨echo, hEcho, hEq⟩
      have hEq := Option.some.inj hEq
      rcases signalled_lanes { s with echo := echo } i act
          (echo.workers i).state.2 with
        ⟨hSame, hOther, _, _⟩
      rw [hEq] at hSame hOther
      refine ⟨.inr ⟨.worker i act, hOk, ?_⟩, .inl hOther⟩
      rw [hSame]
      exact hEcho
  | ready i act =>
      rcases Option.bind_eq_some_iff.mp hExec with
        ⟨ready, hReady, hEq⟩
      have hEq := Option.some.inj hEq
      rcases signalled_lanes { s with ready := ready } i act
          (ready.workers i).state.2 with
        ⟨hOther, hSame, _, _⟩
      rw [hEq] at hSame hOther
      refine ⟨.inl hOther, .inr ⟨.worker i act, hOk, ?_⟩⟩
      rw [hSame]
      exact hReady

/- In every run under the condition the lanes are sound. -/
theorem lanes_reachable
    (hReach :
      (bcf nid).ReachableBy
        (fun s a => s.orderly a = true) s) :
    (lane (echoHandler n)).ReachableBy
        (fun L a => L.orderly (echoHandler n) a = true)
        s.echo ∧
      (lane (readyHandler n)).ReachableBy
        (fun L a => L.orderly (readyHandler n) a = true)
        s.ready := by
  refine
    hReach.invariant
      (fun s =>
        (lane (echoHandler n)).ReachableBy
            (fun L a => L.orderly (echoHandler n) a = true)
            s.echo ∧
          (lane (readyHandler n)).ReachableBy
            (fun L a => L.orderly (readyHandler n) a = true)
            s.ready)
      ⟨.init, .init⟩ ?_
  intro s action s' _ hLanes hOk hExec
  rcases exec_moves hOk hExec with ⟨hEcho, hReady⟩
  exact ⟨hEcho.reachable hLanes.1, hReady.reachable hLanes.2⟩

/- Whoever is not `Start` leaves the stages as they are. -/
theorem Staged.same
    (hStaged : s.Staged)
    (hPc : s'.pc = s.pc) (hHeight : s'.height = s.height)
    (hEcho :
      s'.echo.stage = s.echo.stage ∧
        s'.echo.round = s.echo.round)
    (hReady :
      s'.ready.stage = s.ready.stage ∧
        s'.ready.round = s.ready.round) :
    s'.Staged := by
  refine ⟨?_, ?_, ?_⟩
  · rw [hEcho.2, hHeight, hStaged.echoRound]
  · rw [hReady.2, hHeight, hStaged.readyRound]
  · have hStages := hStaged.stages
    unfold Stages at hStages ⊢
    rw [hPc, hEcho.1, hReady.1, Lane.preparing_congr hEcho.1,
      Lane.preparing_congr hReady.1]
    exact hStages

/- It takes both handlers to the next round. -/
theorem Staged.start
    (hStaged : s.Staged) (hExec : s.start = some s') :
    s'.Staged := by
  have hStages := hStaged.stages
  unfold Stages at hStages
  unfold BCF.start at hExec
  split at hExec
  · rename_i hPc
    rw [hPc] at hStages
    rcases Option.bind_eq_some_iff.mp hExec with
      ⟨echo, hEcho, hEq⟩
    cases hEq
    rcases Lane.prepare_stage hEcho with ⟨hStage, hRound⟩
    refine
      ⟨hRound.trans hStaged.echoRound, hStaged.readyRound, ?_⟩
    unfold Stages
    dsimp only
    rcases hStage with hPreparing | hWorking
    · rw [hPreparing.not_running]
      exact ⟨hPreparing, hStages.2⟩
    · rw [Lane.running_of_working hWorking]
      exact ⟨hWorking, Lane.preparing_of_before hStages.2⟩
  · rename_i hPc
    rw [hPc] at hStages
    rcases Option.bind_eq_some_iff.mp hExec with
      ⟨ready, hReady, hEq⟩
    cases hEq
    rcases Lane.prepare_stage hReady with ⟨hStage, hRound⟩
    refine
      ⟨hStaged.echoRound, hRound.trans hStaged.readyRound, ?_⟩
    unfold Stages
    dsimp only
    rcases hStage with hPreparing | hWorking
    · rw [hPreparing.not_running]
      exact ⟨hStages.1, hPreparing⟩
    · rw [Lane.running_of_working hWorking]
      exact ⟨hStages.1, hWorking⟩
  · rename_i hPc
    rw [hPc] at hStages
    split at hExec
    · cases hExec
    · cases hExec
      exact ⟨hStaged.echoRound, hStaged.readyRound, hStages⟩
  · rename_i hPc
    rw [hPc] at hStages
    split at hExec
    · cases hExec
    · cases hExec
      exact ⟨hStaged.echoRound, hStaged.readyRound, hStages⟩
  · rcases Option.bind_eq_some_iff.mp hExec with
      ⟨echo, hEcho, hRest⟩
    rcases Option.bind_eq_some_iff.mp hRest with
      ⟨ready, hReady, hEq⟩
    cases hEq
    rcases Lane.close_stage hEcho with ⟨hStage, hRound⟩
    rcases Lane.close_stage hReady with ⟨hStage', hRound'⟩
    exact
      ⟨hRound.trans hStaged.echoRound,
        hRound'.trans hStaged.readyRound, hStage, hStage'⟩
  · rcases Option.bind_eq_some_iff.mp hExec with
      ⟨echo, hEcho, hRest⟩
    rcases Option.bind_eq_some_iff.mp hRest with
      ⟨ready, hReady, hEq⟩
    cases hEq
    rcases Lane.next_stage hEcho with ⟨hStage, hRound⟩
    rcases Lane.next_stage hReady with ⟨hStage', hRound'⟩
    refine ⟨?_, ?_, Lane.preparing_of_before hStage, hStage'⟩
    · rw [hRound, hStaged.echoRound]
    · rw [hRound', hStaged.readyRound]

/- No other step starts a round. -/
theorem Staged.exec
    (hStaged : s.Staged) {action : BCFAction n}
    (hExec : s.exec nid action = some s') : s'.Staged := by
  cases action with
  | readyIn msg =>
      dsimp only [BCF.exec] at hExec
      split at hExec
      · cases hExec
        exact hStaged.same rfl rfl ⟨rfl, rfl⟩ ⟨rfl, rfl⟩
      · cases hExec
        exact hStaged
  | echoIn msg =>
      dsimp only [BCF.exec] at hExec
      split at hExec
      · cases hExec
        exact hStaged.same rfl rfl ⟨rfl, rfl⟩ ⟨rfl, rfl⟩
      · cases hExec
        exact hStaged
  | sendEcho round hash =>
      cases hExec
      exact hStaged.same rfl rfl ⟨rfl, rfl⟩ ⟨rfl, rfl⟩
  | sendReady k =>
      rcases Option.bind_eq_some_iff.mp hExec with
        ⟨⟨height, hash⟩, _, hEq⟩
      cases hEq
      exact hStaged.same rfl rfl ⟨rfl, rfl⟩ ⟨rfl, rfl⟩
  | start => exact hStaged.start hExec
  | echo i act =>
      rcases Option.bind_eq_some_iff.mp hExec with
        ⟨echo, hEcho, hEq⟩
      have hEq := Option.some.inj hEq
      rcases signalled_lanes { s with echo := echo } i act
          (echo.workers i).state.2 with
        ⟨hSame, hOther, hPc, hHeight⟩
      rw [hEq] at hSame hOther hPc hHeight
      refine hStaged.same hPc hHeight ?_ ?_
      · rw [hSame]
        exact Lane.act_stage hEcho
      · rw [hOther]
        exact ⟨rfl, rfl⟩
  | ready i act =>
      rcases Option.bind_eq_some_iff.mp hExec with
        ⟨ready, hReady, hEq⟩
      have hEq := Option.some.inj hEq
      rcases signalled_lanes { s with ready := ready } i act
          (ready.workers i).state.2 with
        ⟨hOther, hSame, hPc, hHeight⟩
      rw [hEq] at hSame hOther hPc hHeight
      refine hStaged.same hPc hHeight ?_ ?_
      · rw [hOther]
        exact ⟨rfl, rfl⟩
      · rw [hSame]
        exact Lane.act_stage hReady

theorem staged_init : (init n).Staged :=
  ⟨rfl, rfl, Lane.preparing_of_before rfl, rfl⟩

/- In every run the handlers are in one round. -/
theorem staged (hReach : (bcf nid).Reachable s) : s.Staged :=
  hReach.invariant Staged staged_init
    fun _ _ _ _ hStaged hExec => hStaged.exec hExec

/- Handlers alone do to their lane what they do in it. -/
theorem drive_echo (s : BCF n) (i : Nat) (acts : List Act) :
    ((bcf nid).drive (fun s a => s.orderly a) s
        (acts.map (.echo i))).echo =
      (lane (echoHandler n)).drive
        (fun L a => L.orderly (echoHandler n) a) s.echo
        (acts.map (.worker i)) := by
  refine
    Machine.drive_map BCF.echo (BCFAction.echo i)
      (LaneAction.worker i) (fun _ _ => rfl) ?_ s acts
  intro s act
  dsimp only [bcf, BCF.exec, lane, Lane.exec]
  cases s.echo.act (echoHandler n) i act with
  | none => rfl
  | some echo =>
      exact
        congrArg some
          (signalled_lanes { s with echo := echo } i act
            (echo.workers i).state.2).1

/- Steps of the READY handler happen in its lane. -/
theorem drive_ready (s : BCF n) (i : Nat) (acts : List Act) :
    ((bcf nid).drive (fun s a => s.orderly a) s
        (acts.map (.ready i))).ready =
      (lane (readyHandler n)).drive
        (fun L a => L.orderly (readyHandler n) a) s.ready
        (acts.map (.worker i)) := by
  refine
    Machine.drive_map BCF.ready (BCFAction.ready i)
      (LaneAction.worker i) (fun _ _ => rfl) ?_ s acts
  intro s act
  dsimp only [bcf, BCF.exec, lane, Lane.exec]
  cases s.ready.act (readyHandler n) i act with
  | none => rfl
  | some ready =>
      exact
        congrArg some
          (signalled_lanes { s with ready := ready } i act
            (ready.workers i).state.2).2.1

end Lanes

/-
  The rounds lose nothing: what came for a round that is not
  over is where it will be found or has been handled, once,
  by the handler of its round. The handlers of the round that
  runs handle all that has come, unless they have returned.
  `check_rbcbuf` never waits.
-/
structure Carried (nid : Fin n) (s : BCF n) : Prop where
  echo : s.echo.Balanced (echoHandler n)
  ready : s.ready.Balanced (readyHandler n)
  echoServed :
    s.echo.stage = .working →
      ∃ acts : List Act,
        ((bcf nid).drive (fun s a => s.orderly a) s
          (acts.map (.echo s.height))).echo.Served
            (echoHandler n) s.height
  readyServed :
    s.ready.stage = .working →
      ∃ acts : List Act,
        ((bcf nid).drive (fun s a => s.orderly a) s
          (acts.map (.ready s.height))).ready.Served
            (readyHandler n) s.height
  unblocked :
    s.pc = .echo ∨ s.pc = .ready →
      (s.exec nid .start).isSome

/- In every orderly run no early message is lost. -/
theorem carried
    {s : BCF n}
    (hReach :
      (bcf nid).ReachableBy
        (fun s a => s.orderly a = true) s) :
    s.Carried nid := by
  rcases lanes_reachable hReach with ⟨hEchoes, hReadies⟩
  have hEcho := Lane.sound echoHandler_lawful hEchoes
  have hReady := Lane.sound readyHandler_lawful hReadies
  have hStaged := staged hReach.reachable
  refine ⟨hEcho.balanced, hReady.balanced, ?_, ?_, ?_⟩
  · intro hStage
    rcases hEcho.exists_served echoHandler_lawful hStage with
      ⟨acts, hServed⟩
    rw [hStaged.echoRound] at hServed
    refine ⟨acts, ?_⟩
    rw [drive_echo]
    exact hServed
  · intro hStage
    rcases hReady.exists_served readyHandler_lawful hStage with
      ⟨acts, hServed⟩
    rw [hStaged.readyRound] at hServed
    refine ⟨acts, ?_⟩
    rw [drive_ready]
    exact hServed
  · have hStages := hStaged.stages
    unfold Stages at hStages
    rintro (hPc | hPc)
    · rw [hPc] at hStages
      rcases Option.isSome_iff_exists.mp
          (hEcho.unblocked hStages.1) with
        ⟨echo, hPrepare⟩
      dsimp only [BCF.exec, BCF.start]
      rw [hPc]
      dsimp only
      rw [hPrepare]
      rfl
    · rw [hPc] at hStages
      rcases Option.isSome_iff_exists.mp
          (hReady.unblocked hStages.2) with
        ⟨ready, hPrepare⟩
      dsimp only [BCF.exec, BCF.start]
      rw [hPc]
      dsimp only
      rw [hPrepare]
      rfl

section Stuck

variable {s s' : BCF n}

/- Nobody helps `Start` out of a drain that waits. -/
theorem stuck_exec
    (hPc : s.pc = .echo) (hStuck : s.echo.Stuck)
    {action : BCFAction n}
    (hExec : s.exec nid action = some s') :
    s'.pc = .echo ∧ s'.echo.Stuck := by
  have hArrive (msg : WRBCMsg n) :
      (s.echo.arrive (echoHandler n) msg).Stuck :=
    @Lane.Stuck.exec _ _ (echoHandler n) _ _ hStuck
      (.arrive msg) rfl
  cases action with
  | readyIn msg =>
      dsimp only [BCF.exec] at hExec
      split at hExec
      · cases hExec
        exact ⟨hPc, hStuck⟩
      · cases hExec
        exact ⟨hPc, hStuck⟩
  | echoIn msg =>
      dsimp only [BCF.exec] at hExec
      split at hExec
      · cases hExec
        exact ⟨hPc, hArrive msg⟩
      · cases hExec
        exact ⟨hPc, hStuck⟩
  | sendEcho round hash =>
      cases hExec
      exact ⟨hPc, hArrive _⟩
  | sendReady k =>
      rcases Option.bind_eq_some_iff.mp hExec with
        ⟨⟨height, hash⟩, _, hEq⟩
      cases hEq
      exact ⟨hPc, hStuck⟩
  | start =>
      dsimp only [BCF.exec, BCF.start] at hExec
      rw [hPc] at hExec
      dsimp only at hExec
      rw [hStuck.prepare] at hExec
      cases hExec
  | echo i act =>
      rcases Option.bind_eq_some_iff.mp hExec with
        ⟨echo, hEcho, hEq⟩
      have hEq := Option.some.inj hEq
      rcases signalled_lanes { s with echo := echo } i act
          (echo.workers i).state.2 with
        ⟨hSame, _, hAt, _⟩
      rw [hEq] at hSame hAt
      refine ⟨hAt.trans hPc, ?_⟩
      rw [hSame]
      exact
        @Lane.Stuck.exec _ _ (echoHandler n) _ _ hStuck
          (.worker i act) hEcho
  | ready i act =>
      rcases Option.bind_eq_some_iff.mp hExec with
        ⟨ready, hReady, hEq⟩
      have hEq := Option.some.inj hEq
      rcases signalled_lanes { s with ready := ready } i act
          (ready.workers i).state.2 with
        ⟨hSame, _, hAt, _⟩
      rw [hEq] at hSame hAt
      refine ⟨hAt.trans hPc, ?_⟩
      rw [hSame]
      exact hStuck

/- From then on `Start` has no step. -/
theorem stuck_run
    (hPc : s.pc = .echo) (hStuck : s.echo.Stuck)
    (hReach :
      (⟨s, BCF.exec nid⟩ :
        Machine (BCF n) (BCFAction n)).Reachable s') :
    s'.exec nid .start = none := by
  have hStill : s'.pc = .echo ∧ s'.echo.Stuck :=
    hReach.invariant
      (fun s => s.pc = .echo ∧ s.echo.Stuck) ⟨hPc, hStuck⟩
      fun _ _ _ _ hStill hExec =>
        stuck_exec hStill.1 hStill.2 hExec
  dsimp only [BCF.exec, BCF.start]
  rw [hStill.1]
  dsimp only
  rw [hStill.2.prepare]
  rfl

end Stuck

end BCF

end WeakBroadcast

end Jumbo
