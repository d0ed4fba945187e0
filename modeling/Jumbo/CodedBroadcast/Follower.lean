import Jumbo.Lib.RelayProgress
import Jumbo.CodedBroadcast.Basic

/-
  How a follower of the coded reliable broadcast goes from
  round to round.

  The handlers of ECHO and READY read buffers that `Start`
  drains with `check_rbcbuf` before. The handler of VAL runs
  until the end of its round, and the buffer it reads is not
  drained by anybody. Its handlers, the router, and the
  goroutines that send READY run beside `Start`. Channels are
  never full.

  Main declarations:
    * `BCF`
    * `bcf`
    * `BCF.orderly`
    * `BCF.Staged`
    * `BCF.Carried`
    * `BCF.carried`
-/

------------------------------------------------------------
-- Handlers
------------------------------------------------------------

namespace Jumbo

namespace CodedBroadcast

open Crypto (Bytes)
open Protocol
open Protocol.Relay

variable {n : Nat}

/- `handle_val`: a VAL is one round behind its round. -/
def valHandler (cfg : Config n) (nid : Fin n) :
    Handler RBCMsg HandleVal where
  new := HandleVal.new
  round msg := msg.round + 1
  drains := false
  read _ height _ msg :=
    (HandleVal.read cfg nid height HandleVal.new msg).map
      fun g' =>
        { state := g'
          later := g'.futurebuf
          returned := false }

/- `handle_echo`; a state keeps what was sent last. -/
def echoHandler (cfg : Config n) :
    Handler RBCMsg (HandleEcho n) where
  new := HandleEcho.new
  round := RBCMsg.round
  drains := true
  read _ height g msg :=
    (HandleEcho.read cfg height
        { g with
          futurebuf := []
          candidates := []
          readysignal := [] }
        msg).map
      fun g' =>
        { state := g'
          later := g'.futurebuf
          returned := g'.returned }

/- `handle_ready`. -/
def readyHandler (n : Nat) : Handler RBCMsg HandleReady where
  new := HandleReady.new
  round := RBCMsg.round
  drains := true
  read _ height g msg :=
    let g' :=
      HandleReady.read n height
        { g with
          futurebuf := []
          readysignal := []
          outputsignal := [] }
        msg
    some
      { state := g'
        later := g'.futurebuf
        returned := g'.returned }

/- Only messages of later rounds are kept. -/
theorem HandleVal.read_futurebuf
    {cfg : Config n} {nid : Fin n} {height : Int}
    {g g' : HandleVal} {msg : RBCMsg}
    (hRead : g.read cfg nid height msg = some g') :
    g'.futurebuf =
      if height - 1 < msg.round then g.futurebuf ++ [msg]
      else g.futurebuf := by
  unfold HandleVal.read at hRead
  split at hRead
  · rename_i hOwn
    rw [if_neg (by omega)]
    split at hRead
    · cases hRead
    · split at hRead
      · cases hRead
        rfl
      · cases hRead
  · split at hRead
    · rename_i hLater
      cases hRead
      rw [if_pos hLater]
    · rename_i hNot
      cases hRead
      rw [if_neg hNot]

/- A message of this round is not kept. -/
theorem HandleEcho.readOwn_futurebuf
    {cfg : Config n} {g g' : HandleEcho n} {msg : RBCMsg}
    (hRead : g.readOwn cfg msg = some g') :
    g'.futurebuf = g.futurebuf := by
  unfold HandleEcho.readOwn at hRead
  split at hRead
  · cases hRead
  · split at hRead
    · rcases Option.bind_eq_some_iff.mp hRead with
        ⟨i, _, hRead⟩
      rcases Option.bind_eq_some_iff.mp hRead with
        ⟨⟨buf, candidates⟩, _, hRead⟩
      rcases Option.bind_eq_some_iff.mp hRead with
        ⟨signalled, _, hRead⟩
      cases hRead
      rfl
    · cases hRead

/- Only messages of later rounds are kept. -/
theorem HandleEcho.read_futurebuf
    {cfg : Config n} {height : Int} {g g' : HandleEcho n}
    {msg : RBCMsg}
    (hRead : g.read cfg height msg = some g') :
    g'.futurebuf =
      if height < msg.round then g.futurebuf ++ [msg]
      else g.futurebuf := by
  unfold HandleEcho.read at hRead
  split at hRead
  · rename_i hOwn
    rw [if_neg (by omega)]
    exact HandleEcho.readOwn_futurebuf hRead
  · cases hRead
    rfl

/- Only messages of later rounds are kept. -/
theorem HandleReady.read_futurebuf
    (n : Nat) (height : Int) (g : HandleReady)
    (msg : RBCMsg) :
    (g.read n height msg).futurebuf =
      if height < msg.round then g.futurebuf ++ [msg]
      else g.futurebuf := by
  unfold HandleReady.read
  split
  · rfl
  · split
    · rfl
    · rfl

/- The handler of VAL hands on what is too early. -/
theorem valHandler_lawful
    {cfg : Config n} {nid : Fin n} :
    Lawful (valHandler cfg nid) where
  later_of_lt := by
    intro height g msg reading hRead hLater
    have hLater : (height : Int) < msg.round + 1 := hLater
    rcases Option.map_eq_some_iff.mp hRead with
      ⟨g', hVal, hEq⟩
    rw [← hEq]
    dsimp only
    rw [HandleVal.read_futurebuf hVal, if_pos (by omega)]
    rfl
  later_of_le := by
    intro stop height g msg reading hRead hLe
    have hLe : msg.round + 1 ≤ height := hLe
    rcases Option.map_eq_some_iff.mp hRead with
      ⟨g', hVal, hEq⟩
    rw [← hEq]
    dsimp only
    rw [HandleVal.read_futurebuf hVal, if_neg (by omega)]
    rfl

/- So does the handler of ECHO. -/
theorem echoHandler_lawful {cfg : Config n} :
    Lawful (echoHandler cfg) where
  later_of_lt := by
    intro height g msg reading hRead hLater
    rcases Option.map_eq_some_iff.mp hRead with
      ⟨g', hEcho, hEq⟩
    rw [← hEq]
    dsimp only
    rw [HandleEcho.read_futurebuf hEcho]
    exact if_pos hLater
  later_of_le := by
    intro stop height g msg reading hRead hLe
    rcases Option.map_eq_some_iff.mp hRead with
      ⟨g', hEcho, hEq⟩
    rw [← hEq]
    dsimp only
    rw [HandleEcho.read_futurebuf hEcho]
    exact if_neg (Int.not_lt.mpr hLe)

/- What the handler of READY hands on. -/
theorem readyHandler_later
    {stop : Bool} {height : Nat} {g : HandleReady}
    {msg : RBCMsg} {reading : Reading RBCMsg HandleReady}
    (hRead :
      (readyHandler n).read stop height g msg =
        some reading) :
    reading.later =
      if height < msg.round then [msg] else [] := by
  unfold readyHandler at hRead
  dsimp only at hRead
  cases hRead
  dsimp only
  rw [HandleReady.read_futurebuf, List.nil_append]

/- The handler of READY hands on what is too early. -/
theorem readyHandler_lawful : Lawful (readyHandler n) where
  later_of_lt := by
    intro height g msg reading hRead hLater
    rw [readyHandler_later hRead]
    exact if_pos hLater
  later_of_le := by
    intro stop height g msg reading hRead hLe
    rw [readyHandler_later hRead]
    exact if_neg (Int.not_lt.mpr hLe)

end CodedBroadcast

end Jumbo

------------------------------------------------------------
-- Start and Its Goroutines
------------------------------------------------------------

namespace Jumbo

namespace CodedBroadcast

open Crypto (Bytes)
open Protocol
open Protocol.Relay

variable {n : Nat}

/- What `Start` does next. -/
inductive Pc
| val
| echo
| ready
| readysignal
| outputsignal
| candidate (outroot : Bytes)
| close
| next
deriving DecidableEq

/-
  `readying` are the goroutines that `send_ready`; the
  signals are those of the round, the output is what is
  stored under a height.
-/
structure BCF (n : Nat) where
  height : Nat
  pc : Pc
  val : Lane RBCMsg HandleVal
  echo : Lane RBCMsg (HandleEcho n)
  ready : Lane RBCMsg HandleReady
  readysignal : List Bytes
  outputsignal : List Bytes
  candidateCH : List Candidate
  readying : List (Nat × Bytes)
  output : List (Nat × Bytes)

/- A message comes, or a goroutine of the follower steps. -/
inductive BCFAction
| readyIn (msg : RBCMsg)
| echoIn (msg : RBCMsg)
| sendReady (k : Nat)
| start
| val (i : Nat) (act : Act)
| echo (i : Nat) (act : Act)
| ready (i : Nat) (act : Act)
deriving DecidableEq

/- What `send_ready` puts into the party's own channel. -/
def readyMsg (nid : Fin n) (height : Nat) (root : Bytes) :
    RBCMsg where
  id := DumboMVBA.number nid
  round := height
  msglen := 0
  values := []
  root := root

namespace BCF

/- The follower before its first round. -/
def init (cfg : Config n) (nid : Fin n) : BCF n where
  height := 0
  pc := .val
  val := Lane.init (valHandler cfg nid)
  echo := Lane.init (echoHandler cfg)
  ready := Lane.init (readyHandler n)
  readysignal := []
  outputsignal := []
  candidateCH := []
  readying := []
  output := []

/-
  One step of `Start`; a new round has new channels. Another
  root than the one to output ends the process.
-/
def start (cfg : Config n) (nid : Fin n) (s : BCF n) :
    Option (BCF n) :=
  match s.pc with
  | .val => do
      let val ← s.val.prepare (valHandler cfg nid)
      some { s with
        val := val
        pc := if val.running then .echo else .val }
  | .echo => do
      let echo ← s.echo.prepare (echoHandler cfg)
      some { s with
        echo := echo
        pc := if echo.running then .ready else .echo }
  | .ready => do
      let ready ← s.ready.prepare (readyHandler n)
      some { s with
        ready := ready
        pc := if ready.running then .readysignal else .ready }
  | .readysignal =>
      match s.readysignal with
      | [] => none
      | root :: rest =>
          some { s with
            readysignal := rest
            readying := s.readying ++ [(s.height, root)]
            pc := .outputsignal }
  | .outputsignal =>
      match s.outputsignal with
      | [] => none
      | root :: rest =>
          some { s with
            outputsignal := rest
            pc := .candidate root }
  | .candidate outroot =>
      match s.candidateCH with
      | [] => none
      | cand :: rest =>
          if cand.root = outroot then
            some { s with
              candidateCH := rest
              output := s.output ++ [(s.height, cand.output)]
              pc := .close }
          else none
  | .close => do
      let val ← s.val.close
      let echo ← s.echo.close
      let ready ← s.ready.close
      some { s with
        val := val
        echo := echo
        ready := ready
        pc := .next }
  | .next => do
      let val ← s.val.next
      let echo ← s.echo.next
      let ready ← s.ready.next
      some { s with
        height := s.height + 1
        pc := .val
        val := val
        echo := echo
        ready := ready
        readysignal := []
        outputsignal := []
        candidateCH := [] }

/- What comes on the channels of this round. -/
def signalled
    (s : BCF n) (i : Nat) (act : Act)
    (readysignal outputsignal : List Bytes)
    (candidates : List Candidate) : BCF n :=
  if act = .work ∧ i = s.height then
    { s with
      readysignal := s.readysignal ++ readysignal
      outputsignal := s.outputsignal ++ outputsignal
      candidateCH := s.candidateCH ++ candidates }
  else s

/- The ECHOs that `handle_val` has just sent. -/
def sentEchoes (act : Act) (g : HandleVal) : List RBCMsg :=
  if act = .work then g.echoes else []

/-
  `handle_msgin` looks at the height, but what comes from the
  broadcaster goes on, and is a VAL, too.
-/
def exec
    (cfg : Config n) (nid : Fin n) (lid : Int32)
    (s : BCF n) : BCFAction → Option (BCF n)
| .readyIn msg =>
    if s.height ≤ msg.round ∨ msg.id = lid then
      some { s with
        ready := s.ready.arrive (readyHandler n) msg
        val :=
          if msg.id = lid then
            s.val.arrive (valHandler cfg nid) msg
          else s.val }
    else some s
| .echoIn msg =>
    if s.height ≤ msg.round then
      some { s with
        echo := s.echo.arrive (echoHandler cfg) msg }
    else some s
| .sendReady k => do
    let (height, root) ← s.readying[k]?
    some { s with
      readying := s.readying.eraseIdx k
      ready :=
        s.ready.arrive (readyHandler n)
          (readyMsg nid height root) }
| .start => s.start cfg nid
| .val i act => do
    let val ← s.val.act (valHandler cfg nid) i act
    some { s with
      val := val
      echo :=
        (sentEchoes act (val.workers i).state).foldl
          (Lane.arrive (echoHandler cfg)) s.echo }
| .echo i act => do
    let echo ← s.echo.act (echoHandler cfg) i act
    let g := (echo.workers i).state
    some
      ({ s with echo := echo }.signalled i act g.readysignal
        [] g.candidates)
| .ready i act => do
    let ready ← s.ready.act (readyHandler n) i act
    let g := (ready.workers i).state
    some
      ({ s with ready := ready }.signalled i act g.readysignal
        g.outputsignal [])

end BCF

/- The follower as a machine. -/
def bcf (cfg : Config n) (nid : Fin n) (lid : Int32) :
    Machine (BCF n) BCFAction where
  init := BCF.init cfg nid
  exec := BCF.exec cfg nid lid

end CodedBroadcast

end Jumbo

------------------------------------------------------------
-- Its Lanes
------------------------------------------------------------

namespace Jumbo

namespace CodedBroadcast

open Crypto (Bytes)
open Protocol
open Protocol.Relay

variable {n : Nat} {cfg : Config n} {nid : Fin n}
variable {lid : Int32}

namespace BCF

/-
  The condition on the steps: that of the three lanes, for
  the handlers and where `Start` tells them to stop.
-/
def orderly (cfg : Config n) (nid : Fin n) (s : BCF n) :
    BCFAction → Bool
| .val i act =>
    s.val.orderly (valHandler cfg nid) (.worker i act)
| .echo i act =>
    s.echo.orderly (echoHandler cfg) (.worker i act)
| .ready i act =>
    s.ready.orderly (readyHandler n) (.worker i act)
| .start =>
    decide (s.pc ≠ .close) ||
      (s.val.orderly (valHandler cfg nid) .close &&
        (s.echo.orderly (echoHandler cfg) .close &&
          s.ready.orderly (readyHandler n) .close))
| _ => true

/- Where `Start` is says what the lanes do. -/
def Stages (s : BCF n) : Prop :=
  match s.pc with
  | .val =>
      s.val.Preparing ∧ s.echo.stage = .before ∧
        s.ready.stage = .before
  | .echo =>
      s.val.stage = .working ∧ s.echo.Preparing ∧
        s.ready.stage = .before
  | .ready =>
      s.val.stage = .working ∧ s.echo.stage = .working ∧
        s.ready.Preparing
  | .next =>
      s.val.stage = .closed ∧ s.echo.stage = .closed ∧
        s.ready.stage = .closed
  | _ =>
      s.val.stage = .working ∧ s.echo.stage = .working ∧
        s.ready.stage = .working

/- All handlers are in the round of the main loop. -/
structure Staged (s : BCF n) : Prop where
  valRound : s.val.round = s.height
  echoRound : s.echo.round = s.height
  readyRound : s.ready.round = s.height
  stages : s.Stages

/- Each lane has run under its condition. -/
structure Orderly
    (cfg : Config n) (nid : Fin n) (s : BCF n) : Prop where
  val :
    (lane (valHandler cfg nid)).ReachableBy
      (fun L a => L.orderly (valHandler cfg nid) a = true)
      s.val
  echo :
    (lane (echoHandler cfg)).ReachableBy
      (fun L a => L.orderly (echoHandler cfg) a = true)
      s.echo
  ready :
    (lane (readyHandler n)).ReachableBy
      (fun L a => L.orderly (readyHandler n) a = true)
      s.ready

section Lanes

variable {s s' : BCF n}

/- Signals change nothing in the lanes. -/
theorem signalled_lanes
    (s : BCF n) (i : Nat) (act : Act)
    (readysignal outputsignal : List Bytes)
    (candidates : List Candidate) :
    (s.signalled i act readysignal outputsignal
        candidates).val = s.val ∧
      (s.signalled i act readysignal outputsignal
        candidates).echo = s.echo ∧
      (s.signalled i act readysignal outputsignal
        candidates).ready = s.ready ∧
      (s.signalled i act readysignal outputsignal
        candidates).pc = s.pc ∧
      (s.signalled i act readysignal outputsignal
        candidates).height = s.height := by
  unfold signalled
  split
  · exact ⟨rfl, rfl, rfl, rfl, rfl⟩
  · exact ⟨rfl, rfl, rfl, rfl, rfl⟩

/- An orderly step of the main loop keeps the lanes in order. -/
theorem Orderly.start
    (hOrderly : s.Orderly cfg nid)
    (hOk : s.orderly cfg nid .start = true)
    (hExec : s.start cfg nid = some s') :
    s'.Orderly cfg nid := by
  unfold BCF.start at hExec
  split at hExec
  · rcases Option.bind_eq_some_iff.mp hExec with
      ⟨val, hVal, hEq⟩
    cases hEq
    exact
      { hOrderly with
        val := (Lane.prepare_moves hVal).reachable
          hOrderly.val }
  · rcases Option.bind_eq_some_iff.mp hExec with
      ⟨echo, hEcho, hEq⟩
    cases hEq
    exact
      { hOrderly with
        echo := (Lane.prepare_moves hEcho).reachable
          hOrderly.echo }
  · rcases Option.bind_eq_some_iff.mp hExec with
      ⟨ready, hReady, hEq⟩
    cases hEq
    exact
      { hOrderly with
        ready := (Lane.prepare_moves hReady).reachable
          hOrderly.ready }
  · split at hExec
    · cases hExec
    · cases hExec
      exact { hOrderly with }
  · split at hExec
    · cases hExec
    · cases hExec
      exact { hOrderly with }
  · split at hExec
    · cases hExec
    · split at hExec
      · cases hExec
        exact { hOrderly with }
      · cases hExec
  · rename_i hPc
    rcases Option.bind_eq_some_iff.mp hExec with
      ⟨val, hVal, hRest⟩
    rcases Option.bind_eq_some_iff.mp hRest with
      ⟨echo, hEcho, hRest⟩
    rcases Option.bind_eq_some_iff.mp hRest with
      ⟨ready, hReady, hEq⟩
    cases hEq
    dsimp only [orderly] at hOk
    rw [hPc] at hOk
    rcases Bool.and_eq_true_iff.mp hOk with ⟨hValOk, hOk⟩
    rcases Bool.and_eq_true_iff.mp hOk with
      ⟨hEchoOk, hReadyOk⟩
    exact
      { val := .step hOrderly.val hValOk hVal
        echo := .step hOrderly.echo hEchoOk hEcho
        ready := .step hOrderly.ready hReadyOk hReady }
  · rcases Option.bind_eq_some_iff.mp hExec with
      ⟨val, hVal, hRest⟩
    rcases Option.bind_eq_some_iff.mp hRest with
      ⟨echo, hEcho, hRest⟩
    rcases Option.bind_eq_some_iff.mp hRest with
      ⟨ready, hReady, hEq⟩
    cases hEq
    have hNext {α σ : Type} {hd : Handler α σ}
        {L : Lane α σ} : L.orderly hd .next = true := rfl
    exact
      { val := .step hOrderly.val hNext hVal
        echo := .step hOrderly.echo hNext hEcho
        ready := .step hOrderly.ready hNext hReady }

/- A step under the condition is one of each lane, or none. -/
theorem Orderly.exec
    (hOrderly : s.Orderly cfg nid) {action : BCFAction}
    (hOk : s.orderly cfg nid action = true)
    (hExec : s.exec cfg nid lid action = some s') :
    s'.Orderly cfg nid := by
  have hArrive {α σ : Type} {hd : Handler α σ}
      {L : Lane α σ} (msg : α) :
      L.orderly hd (.arrive msg) = true := rfl
  cases action with
  | readyIn msg =>
      dsimp only [BCF.exec] at hExec
      split at hExec
      · cases hExec
        refine
          { hOrderly with
            val := ?_
            ready := .step hOrderly.ready (hArrive msg) rfl }
        dsimp only
        split
        · exact .step hOrderly.val (hArrive msg) rfl
        · exact hOrderly.val
      · cases hExec
        exact hOrderly
  | echoIn msg =>
      dsimp only [BCF.exec] at hExec
      split at hExec
      · cases hExec
        exact
          { hOrderly with
            echo := .step hOrderly.echo (hArrive msg) rfl }
      · cases hExec
        exact hOrderly
  | sendReady k =>
      rcases Option.bind_eq_some_iff.mp hExec with
        ⟨⟨height, root⟩, _, hEq⟩
      cases hEq
      exact
        { hOrderly with
          ready :=
            .step hOrderly.ready
              (hArrive (readyMsg nid height root)) rfl }
  | start => exact hOrderly.start hOk hExec
  | val i act =>
      rcases Option.bind_eq_some_iff.mp hExec with
        ⟨val, hVal, hEq⟩
      cases hEq
      exact
        { hOrderly with
          val := .step hOrderly.val hOk hVal
          echo := Lane.reachable_arrivals hOrderly.echo _ }
  | echo i act =>
      rcases Option.bind_eq_some_iff.mp hExec with
        ⟨echo, hEcho, hEq⟩
      have hEq := Option.some.inj hEq
      rcases signalled_lanes { s with echo := echo } i act
          (echo.workers i).state.readysignal []
          (echo.workers i).state.candidates with
        ⟨hValSame, hEchoSame, hReadySame, _, _⟩
      rw [hEq] at hValSame hEchoSame hReadySame
      refine ⟨?_, ?_, ?_⟩
      · rw [hValSame]
        exact hOrderly.val
      · rw [hEchoSame]
        exact .step hOrderly.echo hOk hEcho
      · rw [hReadySame]
        exact hOrderly.ready
  | ready i act =>
      rcases Option.bind_eq_some_iff.mp hExec with
        ⟨ready, hReady, hEq⟩
      have hEq := Option.some.inj hEq
      rcases signalled_lanes { s with ready := ready } i act
          (ready.workers i).state.readysignal
          (ready.workers i).state.outputsignal [] with
        ⟨hValSame, hEchoSame, hReadySame, _, _⟩
      rw [hEq] at hValSame hEchoSame hReadySame
      refine ⟨?_, ?_, ?_⟩
      · rw [hValSame]
        exact hOrderly.val
      · rw [hEchoSame]
        exact hOrderly.echo
      · rw [hReadySame]
        exact .step hOrderly.ready hOk hReady

/- In every orderly run the lanes are in order. -/
theorem orderly_of_reachable
    (hReach :
      (bcf cfg nid lid).ReachableBy
        (fun s a => s.orderly cfg nid a = true) s) :
    s.Orderly cfg nid :=
  hReach.invariant (Orderly cfg nid) ⟨.init, .init, .init⟩
    fun _ _ _ _ hOrderly hOk hExec =>
      hOrderly.exec hOk hExec

/- Whoever is not `Start` leaves the stages as they are. -/
theorem Staged.same
    (hStaged : s.Staged)
    (hPc : s'.pc = s.pc) (hHeight : s'.height = s.height)
    (hVal :
      s'.val.stage = s.val.stage ∧
        s'.val.round = s.val.round)
    (hEcho :
      s'.echo.stage = s.echo.stage ∧
        s'.echo.round = s.echo.round)
    (hReady :
      s'.ready.stage = s.ready.stage ∧
        s'.ready.round = s.ready.round) :
    s'.Staged := by
  refine ⟨?_, ?_, ?_, ?_⟩
  · rw [hVal.2, hHeight, hStaged.valRound]
  · rw [hEcho.2, hHeight, hStaged.echoRound]
  · rw [hReady.2, hHeight, hStaged.readyRound]
  · have hStages := hStaged.stages
    unfold Stages at hStages ⊢
    rw [hPc, hVal.1, hEcho.1, hReady.1,
      Lane.preparing_congr hVal.1,
      Lane.preparing_congr hEcho.1,
      Lane.preparing_congr hReady.1]
    exact hStages

/- The main loop takes all handlers to the next round. -/
theorem Staged.start
    (hStaged : s.Staged)
    (hExec : s.start cfg nid = some s') : s'.Staged := by
  have hStages := hStaged.stages
  unfold Stages at hStages
  unfold BCF.start at hExec
  split at hExec
  · rename_i hPc
    rw [hPc] at hStages
    rcases Option.bind_eq_some_iff.mp hExec with
      ⟨val, hVal, hEq⟩
    cases hEq
    rcases Lane.prepare_stage hVal with ⟨hStage, hRound⟩
    refine
      ⟨hRound.trans hStaged.valRound, hStaged.echoRound,
        hStaged.readyRound, ?_⟩
    unfold Stages
    dsimp only
    rcases hStage with hPreparing | hWorking
    · rw [hPreparing.not_running]
      exact ⟨hPreparing, hStages.2⟩
    · rw [Lane.running_of_working hWorking]
      exact
        ⟨hWorking, Lane.preparing_of_before hStages.2.1,
          hStages.2.2⟩
  · rename_i hPc
    rw [hPc] at hStages
    rcases Option.bind_eq_some_iff.mp hExec with
      ⟨echo, hEcho, hEq⟩
    cases hEq
    rcases Lane.prepare_stage hEcho with ⟨hStage, hRound⟩
    refine
      ⟨hStaged.valRound, hRound.trans hStaged.echoRound,
        hStaged.readyRound, ?_⟩
    unfold Stages
    dsimp only
    rcases hStage with hPreparing | hWorking
    · rw [hPreparing.not_running]
      exact ⟨hStages.1, hPreparing, hStages.2.2⟩
    · rw [Lane.running_of_working hWorking]
      exact
        ⟨hStages.1, hWorking,
          Lane.preparing_of_before hStages.2.2⟩
  · rename_i hPc
    rw [hPc] at hStages
    rcases Option.bind_eq_some_iff.mp hExec with
      ⟨ready, hReady, hEq⟩
    cases hEq
    rcases Lane.prepare_stage hReady with ⟨hStage, hRound⟩
    refine
      ⟨hStaged.valRound, hStaged.echoRound,
        hRound.trans hStaged.readyRound, ?_⟩
    unfold Stages
    dsimp only
    rcases hStage with hPreparing | hWorking
    · rw [hPreparing.not_running]
      exact ⟨hStages.1, hStages.2.1, hPreparing⟩
    · rw [Lane.running_of_working hWorking]
      exact ⟨hStages.1, hStages.2.1, hWorking⟩
  · rename_i hPc
    rw [hPc] at hStages
    split at hExec
    · cases hExec
    · cases hExec
      exact { hStaged with stages := hStages }
  · rename_i hPc
    rw [hPc] at hStages
    split at hExec
    · cases hExec
    · cases hExec
      exact { hStaged with stages := hStages }
  · rename_i hPc
    rw [hPc] at hStages
    split at hExec
    · cases hExec
    · split at hExec
      · cases hExec
        exact { hStaged with stages := hStages }
      · cases hExec
  · rcases Option.bind_eq_some_iff.mp hExec with
      ⟨val, hVal, hRest⟩
    rcases Option.bind_eq_some_iff.mp hRest with
      ⟨echo, hEcho, hRest⟩
    rcases Option.bind_eq_some_iff.mp hRest with
      ⟨ready, hReady, hEq⟩
    cases hEq
    rcases Lane.close_stage hVal with ⟨hStage, hRound⟩
    rcases Lane.close_stage hEcho with ⟨hStage', hRound'⟩
    rcases Lane.close_stage hReady with ⟨hStage'', hRound''⟩
    exact
      ⟨hRound.trans hStaged.valRound,
        hRound'.trans hStaged.echoRound,
        hRound''.trans hStaged.readyRound,
        hStage, hStage', hStage''⟩
  · rcases Option.bind_eq_some_iff.mp hExec with
      ⟨val, hVal, hRest⟩
    rcases Option.bind_eq_some_iff.mp hRest with
      ⟨echo, hEcho, hRest⟩
    rcases Option.bind_eq_some_iff.mp hRest with
      ⟨ready, hReady, hEq⟩
    cases hEq
    rcases Lane.next_stage hVal with ⟨hStage, hRound⟩
    rcases Lane.next_stage hEcho with ⟨hStage', hRound'⟩
    rcases Lane.next_stage hReady with ⟨hStage'', hRound''⟩
    refine
      ⟨?_, ?_, ?_, Lane.preparing_of_before hStage, hStage',
        hStage''⟩
    · rw [hRound, hStaged.valRound]
    · rw [hRound', hStaged.echoRound]
    · rw [hRound'', hStaged.readyRound]

/- Messages that come start no round. -/
theorem arrivals_stage
    {α σ : Type} {hd : Handler α σ} {L : Lane α σ}
    (msgs : List α) :
    (msgs.foldl (Lane.arrive hd) L).stage = L.stage ∧
      (msgs.foldl (Lane.arrive hd) L).round = L.round := by
  induction msgs generalizing L with
  | nil => exact ⟨rfl, rfl⟩
  | cons msg msgs ih => exact @ih (L.arrive hd msg)

/- No other step starts a round. -/
theorem Staged.exec
    (hStaged : s.Staged) {action : BCFAction}
    (hExec : s.exec cfg nid lid action = some s') :
    s'.Staged := by
  cases action with
  | readyIn msg =>
      dsimp only [BCF.exec] at hExec
      split at hExec
      · cases hExec
        refine
          hStaged.same rfl rfl ?_ ⟨rfl, rfl⟩ ⟨rfl, rfl⟩
        dsimp only
        split
        · exact ⟨rfl, rfl⟩
        · exact ⟨rfl, rfl⟩
      · cases hExec
        exact hStaged
  | echoIn msg =>
      dsimp only [BCF.exec] at hExec
      split at hExec
      · cases hExec
        exact
          hStaged.same rfl rfl ⟨rfl, rfl⟩ ⟨rfl, rfl⟩
            ⟨rfl, rfl⟩
      · cases hExec
        exact hStaged
  | sendReady k =>
      rcases Option.bind_eq_some_iff.mp hExec with
        ⟨⟨height, root⟩, _, hEq⟩
      cases hEq
      exact
        hStaged.same rfl rfl ⟨rfl, rfl⟩ ⟨rfl, rfl⟩
          ⟨rfl, rfl⟩
  | start => exact hStaged.start hExec
  | val i act =>
      rcases Option.bind_eq_some_iff.mp hExec with
        ⟨val, hVal, hEq⟩
      cases hEq
      exact
        hStaged.same rfl rfl (Lane.act_stage hVal)
          (arrivals_stage _) ⟨rfl, rfl⟩
  | echo i act =>
      rcases Option.bind_eq_some_iff.mp hExec with
        ⟨echo, hEcho, hEq⟩
      have hEq := Option.some.inj hEq
      rcases signalled_lanes { s with echo := echo } i act
          (echo.workers i).state.readysignal []
          (echo.workers i).state.candidates with
        ⟨hValSame, hEchoSame, hReadySame, hPc, hHeight⟩
      rw [hEq] at hValSame hEchoSame hReadySame hPc hHeight
      refine hStaged.same hPc hHeight ?_ ?_ ?_
      · rw [hValSame]
        exact ⟨rfl, rfl⟩
      · rw [hEchoSame]
        exact Lane.act_stage hEcho
      · rw [hReadySame]
        exact ⟨rfl, rfl⟩
  | ready i act =>
      rcases Option.bind_eq_some_iff.mp hExec with
        ⟨ready, hReady, hEq⟩
      have hEq := Option.some.inj hEq
      rcases signalled_lanes { s with ready := ready } i act
          (ready.workers i).state.readysignal
          (ready.workers i).state.outputsignal [] with
        ⟨hValSame, hEchoSame, hReadySame, hPc, hHeight⟩
      rw [hEq] at hValSame hEchoSame hReadySame hPc hHeight
      refine hStaged.same hPc hHeight ?_ ?_ ?_
      · rw [hValSame]
        exact ⟨rfl, rfl⟩
      · rw [hEchoSame]
        exact ⟨rfl, rfl⟩
      · rw [hReadySame]
        exact Lane.act_stage hReady

theorem staged_init : (init cfg nid).Staged :=
  ⟨rfl, rfl, rfl, Lane.preparing_of_before rfl, rfl, rfl⟩

/- In every run the handlers are in one round. -/
theorem staged (hReach : (bcf cfg nid lid).Reachable s) :
    s.Staged :=
  hReach.invariant Staged staged_init
    fun _ _ _ _ hStaged hExec => hStaged.exec hExec

/- Handlers alone do to their lane what they do in it. -/
theorem drive_val (s : BCF n) (i : Nat) (acts : List Act) :
    ((bcf cfg nid lid).drive
        (fun s a => s.orderly cfg nid a) s
        (acts.map (.val i))).val =
      (lane (valHandler cfg nid)).drive
        (fun L a => L.orderly (valHandler cfg nid) a) s.val
        (acts.map (.worker i)) := by
  refine
    Machine.drive_map BCF.val (BCFAction.val i)
      (LaneAction.worker i) (fun _ _ => rfl) ?_ s acts
  intro s act
  dsimp only [bcf, BCF.exec, lane, Lane.exec]
  cases s.val.act (valHandler cfg nid) i act with
  | none => rfl
  | some val => rfl

/- Steps of the ECHO handler happen in its lane. -/
theorem drive_echo (s : BCF n) (i : Nat) (acts : List Act) :
    ((bcf cfg nid lid).drive
        (fun s a => s.orderly cfg nid a) s
        (acts.map (.echo i))).echo =
      (lane (echoHandler cfg)).drive
        (fun L a => L.orderly (echoHandler cfg) a) s.echo
        (acts.map (.worker i)) := by
  refine
    Machine.drive_map BCF.echo (BCFAction.echo i)
      (LaneAction.worker i) (fun _ _ => rfl) ?_ s acts
  intro s act
  dsimp only [bcf, BCF.exec, lane, Lane.exec]
  cases s.echo.act (echoHandler cfg) i act with
  | none => rfl
  | some echo =>
      exact
        congrArg some
          (signalled_lanes { s with echo := echo } i act
            (echo.workers i).state.readysignal []
            (echo.workers i).state.candidates).2.1

/- Steps of the READY handler happen in its lane. -/
theorem drive_ready (s : BCF n) (i : Nat) (acts : List Act) :
    ((bcf cfg nid lid).drive
        (fun s a => s.orderly cfg nid a) s
        (acts.map (.ready i))).ready =
      (lane (readyHandler n)).drive
        (fun L a => L.orderly (readyHandler n) a) s.ready
        (acts.map (.worker i)) := by
  refine
    Machine.drive_map BCF.ready (BCFAction.ready i)
      (LaneAction.worker i) (fun _ _ => rfl) ?_ s acts
  intro s act
  dsimp only [bcf, BCF.exec, lane, Lane.exec]
  cases s.ready.act (readyHandler n) i act with
  | none => rfl
  | some ready =>
      exact
        congrArg some
          (signalled_lanes { s with ready := ready } i act
            (ready.workers i).state.readysignal
            (ready.workers i).state.outputsignal []).2.2.1

end Lanes

/-
  The rounds lose nothing: what came for a round that is not
  over is where it will be found or has been handled, once,
  by the handler of its round. The handlers of the round that
  runs handle all that has come, unless they have returned or
  the process ends. `check_rbcbuf` never waits.
-/
structure Carried
    (cfg : Config n) (nid : Fin n) (lid : Int32)
    (s : BCF n) : Prop where
  val : s.val.Balanced (valHandler cfg nid)
  echo : s.echo.Balanced (echoHandler cfg)
  ready : s.ready.Balanced (readyHandler n)
  valServed :
    s.val.stage = .working →
      ∃ acts : List Act,
        ((bcf cfg nid lid).drive
          (fun s a => s.orderly cfg nid a) s
          (acts.map (.val s.height))).val.Served
            (valHandler cfg nid) s.height
  echoServed :
    s.echo.stage = .working →
      ∃ acts : List Act,
        ((bcf cfg nid lid).drive
          (fun s a => s.orderly cfg nid a) s
          (acts.map (.echo s.height))).echo.Served
            (echoHandler cfg) s.height
  readyServed :
    s.ready.stage = .working →
      ∃ acts : List Act,
        ((bcf cfg nid lid).drive
          (fun s a => s.orderly cfg nid a) s
          (acts.map (.ready s.height))).ready.Served
            (readyHandler n) s.height
  unblocked :
    s.pc = .echo ∨ s.pc = .ready →
      (s.exec cfg nid lid .start).isSome

/- In every orderly run no early message is lost. -/
theorem carried
    {s : BCF n}
    (hReach :
      (bcf cfg nid lid).ReachableBy
        (fun s a => s.orderly cfg nid a = true) s) :
    s.Carried cfg nid lid := by
  have hOrderly := orderly_of_reachable hReach
  have hVal := Lane.sound valHandler_lawful hOrderly.val
  have hEcho := Lane.sound echoHandler_lawful hOrderly.echo
  have hReady :=
    Lane.sound readyHandler_lawful hOrderly.ready
  have hStaged := staged hReach.reachable
  refine
    ⟨hVal.balanced, hEcho.balanced, hReady.balanced,
      ?_, ?_, ?_, ?_⟩
  · intro hStage
    rcases hVal.exists_served valHandler_lawful hStage with
      ⟨acts, hServed⟩
    rw [hStaged.valRound] at hServed
    refine ⟨acts, ?_⟩
    rw [drive_val]
    exact hServed
  · intro hStage
    rcases hEcho.exists_served echoHandler_lawful hStage with
      ⟨acts, hServed⟩
    rw [hStaged.echoRound] at hServed
    refine ⟨acts, ?_⟩
    rw [drive_echo]
    exact hServed
  · intro hStage
    rcases hReady.exists_served readyHandler_lawful hStage with
      ⟨acts, hServed⟩
    rw [hStaged.readyRound] at hServed
    refine ⟨acts, ?_⟩
    rw [drive_ready]
    exact hServed
  · have hStages := hStaged.stages
    unfold Stages at hStages
    rintro (hPc | hPc)
    · rw [hPc] at hStages
      rcases Option.isSome_iff_exists.mp
          (hEcho.unblocked hStages.2.1) with
        ⟨echo, hPrepare⟩
      dsimp only [BCF.exec, BCF.start]
      rw [hPc]
      dsimp only
      rw [hPrepare]
      rfl
    · rw [hPc] at hStages
      rcases Option.isSome_iff_exists.mp
          (hReady.unblocked hStages.2.2) with
        ⟨ready, hPrepare⟩
      dsimp only [BCF.exec, BCF.start]
      rw [hPc]
      dsimp only
      rw [hPrepare]
      rfl

end BCF

end CodedBroadcast

end Jumbo
