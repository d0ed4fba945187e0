import Jumbo.BinaryAgreement.Agreement
import Jumbo.BinaryAgreement.Interleaving

/-
  CONF messages of the first loop, with the goroutines of all
  parties run statement by statement.

  With `f + 1` inputs true the first loop is meant to exclude
  a quorum of CONF messages for false alone. `sendconf` reads
  `values` while another goroutine, `sendval`, sets the flag
  of the party's own input, and the main goroutine reads them
  while `handle_val` has put its signal but not yet written
  the flag. Where both flags are written first, what a party
  counts for false alone comes from parties that started with
  false.

  Main declarations:
    * `Net` and `net`
    * `BiasedValid`
    * `flaggedFirst`
    * `ConfOk`
    * `confOk`
-/

------------------------------------------------------------
-- All Parties, Statement by Statement
------------------------------------------------------------

namespace Jumbo

namespace BinaryAgreement

open Protocol

/-
  The parties of one instance, what they have broadcast, and
  the positions of the messages that each of them has taken.
-/
structure Net (n : Nat) where
  party : Fin n → Interleaved
  sent : List (BAMsg n)
  taken : Fin n → List Nat

/-
  A message may reach its handler at a party at any time at
  which its loop has started there, once or never; the
  network and the routers only choose the time.
-/
inductive Net.Action (n : Nat) where
| launch (p : Fin n) (input : Bool)
| second (p : Fin n)
| take (p : Fin n) (i : Nat)
| go (p : Fin n) (statement : Statement)
deriving DecidableEq, Repr

variable {n : Nat}

namespace Net

/- Nobody has started and nothing was sent. -/
def init : Net n where
  party := fun _ => Interleaved.new
  sent := []
  taken := fun _ => []

/- A party, without where its goroutines stand. -/
abbrev ba (s : Net n) (p : Fin n) : BA :=
  (s.party p).ba

/- What one party has changed. -/
def setParty
    (s : Net n) (p : Fin n) (party : Interleaved) : Net n :=
  { s with party := Function.update s.party p party }

@[simp] theorem setParty_self
    (s : Net n) (p : Fin n) (party : Interleaved) :
    (s.setParty p party).party p = party := by
  simp [setParty]

theorem setParty_of_ne
    (s : Net n) {p q : Fin n} (party : Interleaved)
    (hNe : q ≠ p) :
    (s.setParty p party).party q = s.party q := by
  simp [setParty, Function.update_of_ne hNe]

/- A step of one party, or a message comes to its handler. -/
def exec
    (cfg : Config) (s : Net n) : Net.Action n → Option (Net n)
| .launch p input =>
    if !(s.ba p).launched then
      some (s.setParty p
        { s.party p with ba := (s.ba p).startLoop 0 input })
    else none
| .second p =>
    some (s.setParty p
      { s.party p with
        ba := { s.ba p with
          secondInput := (s.ba p).secondInput + 1 } })
| .take p i =>
    (s.sent[i]?).bind fun m =>
      if (s.ba p).launched ∧ i ∉ s.taken p then
        ((s.party p).receive p m).map fun party =>
          { s.setParty p party with
            taken := Function.update s.taken p
              (i :: s.taken p) }
      else none
| .go p statement =>
    if (s.ba p).launched then
      ((s.party p).step cfg p statement).map
        fun (party, ms) =>
          { s.setParty p party with sent := s.sent ++ ms }
    else none

end Net

/- All parties as a machine. -/
def net (n : Nat) (cfg : Config) :
    Machine (Net n) (Net.Action n) where
  init := Net.init
  exec := Net.exec cfg

/- What a step does, case by case. -/
inductive NetMove
    (cfg : Config) (s : Net n) :
    Net.Action n → Net n → Prop
| launch
    (p : Fin n) (input : Bool)
    (hIdle : (s.ba p).launched = false) :
    NetMove cfg s (.launch p input)
      (s.setParty p
        { s.party p with ba := (s.ba p).startLoop 0 input })
| second (p : Fin n) :
    NetMove cfg s (.second p)
      (s.setParty p
        { s.party p with
          ba := { s.ba p with
            secondInput := (s.ba p).secondInput + 1 } })
| take
    (p : Fin n) (i : Nat) (m : BAMsg n)
    (party : Interleaved)
    (hMsg : s.sent[i]? = some m)
    (hLaunched : (s.ba p).launched = true)
    (hNew : i ∉ s.taken p)
    (hReceived : Received p (s.party p) m party) :
    NetMove cfg s (.take p i)
      { s.setParty p party with
        taken := Function.update s.taken p
          (i :: s.taken p) }
| go
    (p : Fin n) (statement : Statement)
    (party : Interleaved) (ms : List (BAMsg n))
    (hLaunched : (s.ba p).launched = true)
    (hStep :
      StatementStep cfg p (s.party p) statement party ms) :
    NetMove cfg s (.go p statement)
      { s.setParty p party with sent := s.sent ++ ms }

/- Every action makes one of the moves. -/
theorem netMove_of_exec
    {cfg : Config} {s s' : Net n} {a : Net.Action n}
    (hExec : Net.exec cfg s a = some s') :
    NetMove cfg s a s' := by
  cases a with
  | launch p input =>
      rcases Option.ite_none_right_eq_some.mp hExec with
        ⟨hIdle, hEq⟩
      cases hEq
      exact .launch p input (by simpa using hIdle)
  | second p =>
      cases hExec
      exact .second p
  | take p i =>
      rcases Option.bind_eq_some_iff.mp hExec with
        ⟨m, hMsg, hRun⟩
      rcases Option.ite_none_right_eq_some.mp hRun with
        ⟨⟨hLaunched, hNew⟩, hRest⟩
      rcases Option.map_eq_some_iff.mp hRest with
        ⟨party, hReceive, rfl⟩
      exact .take p i m party hMsg hLaunched hNew
        (received_of_receive hReceive)
  | go p statement =>
      rcases Option.ite_none_right_eq_some.mp hExec with
        ⟨hLaunched, hRun⟩
      rcases Option.map_eq_some_iff.mp hRun with
        ⟨⟨party, ms⟩, hStep, rfl⟩
      exact .go p statement party ms hLaunched
        (statementStep_of_step hStep)

end BinaryAgreement

end Jumbo

------------------------------------------------------------
-- Parties That Start with True
------------------------------------------------------------

namespace Jumbo

namespace BinaryAgreement

open Protocol

variable {n : Nat}

/- The parties that started with true. -/
def startedTrue (s : Net n) : Finset (Fin n) :=
  Finset.univ.filter fun p =>
    (s.ba p).launched = true ∧
      ((s.ba p).loops 0).input = true

/- The parties that started with false. -/
def startedFalse (s : Net n) : Finset (Fin n) :=
  Finset.univ.filter fun p =>
    (s.ba p).launched = true ∧
      ((s.ba p).loops 0).input = false

/- No false output once `f + 1` parties started with true. -/
def BiasedValid (f : Nat) (s : Net n) : Prop :=
  f + 1 ≤ (startedTrue s).card →
    ∀ p, (s.ba p).output ≠ some false

/-
  A party with input true sends its CONF of the first loop
  after `sendval` has written the flag of true.
-/
def confFlagged (s : Net n) : Net.Action n → Bool
| .go p (.whole (.sendConf 0)) =>
    !((s.ba p).loops 0).input ||
      ((s.ba p).loops 0).values.one
| _ => true

/-
  The main goroutine does not read `values` while
  `handle_val` has put its signals for true but not yet
  written the flag.
-/
def electFlagged (s : Net n) : Net.Action n → Bool
| .go p (.whole .mainElect) =>
    decide (((s.party p).stage (s.ba p).loop).handleVal ≠
      .readyConf true)
| _ => true

/- The flag of true is written before it is read. -/
def flaggedFirst (s : Net n) (a : Net.Action n) : Bool :=
  confFlagged s a && electFlagged s a

/- No loop changes the input it was entered with. -/
theorem LoopStep.input_eq
    {id : Fin n} {loop : Nat} {info info' : LoopInfo}
    {event : Event} {ms : List (BAMsg n)}
    (hStep : LoopStep id loop info event info' ms) :
    info'.input = info.input := by
  cases hStep <;> rfl

/- A message changes no input. -/
theorem loopReceive_input
    (id : Fin n) (info : LoopInfo) (m : BAMsg n) :
    (loopReceive id info m).input = info.input := by
  unfold loopReceive
  split
  · unfold handleVal
    dsimp only
    split
    · rfl
    · split
      · split <;> rfl
      · rfl
  · rw [handleAux_eq]
  · rcases handleConf_frame (faults n) info
      (confValueAt id info m) with ⟨_, _, _, _, hEq⟩
    rw [hEq]
  · rfl

end BinaryAgreement

end Jumbo

------------------------------------------------------------
-- CONF Messages of the First Loop
------------------------------------------------------------

namespace Jumbo

namespace BinaryAgreement

open Protocol

variable {n : Nat}

/- The first loop after a step, as far as CONF needs it. -/
structure FirstKept (ba ba' : BA) : Prop where
  launched : ba'.launched = true
  input : (ba'.loops 0).input = (ba.loops 0).input
  sendConf :
    (ba.loops 0).sendConf = .done →
      (ba'.loops 0).sendConf = .done
  one :
    (ba.loops 0).values.one = true →
      (ba'.loops 0).values.one = true

/- Only changes of the first loop matter. -/
theorem FirstKept.setLoop
    {ba : BA} (hLaunched : ba.launched = true)
    {loop : Nat} {info : LoopInfo}
    (hInput : info.input = (ba.loops loop).input)
    (hConf :
      (ba.loops loop).sendConf = .done →
        info.sendConf = .done)
    (hOne :
      (ba.loops loop).values.one = true →
        info.values.one = true) :
    FirstKept ba (ba.setLoop loop info) := by
  by_cases hZero : 0 = loop
  · subst hZero
    refine ⟨hLaunched, ?_, ?_, ?_⟩
    · rw [BA.setLoop_self]
      exact hInput
    · rw [BA.setLoop_self]
      exact hConf
    · rw [BA.setLoop_self]
      exact hOne
  · refine ⟨hLaunched, ?_, ?_, ?_⟩
    · rw [BA.setLoop_of_ne _ _ hZero]
    · rw [BA.setLoop_of_ne _ _ hZero]
      exact id
    · rw [BA.setLoop_of_ne _ _ hZero]
      exact id

/- A CONF that was sent is not asked for again. -/
theorem LoopStep.sendConf_done
    {id : Fin n} {loop : Nat} {info info' : LoopInfo}
    {event : Event} {ms : List (BAMsg n)}
    (hStep : LoopStep id loop info event info' ms)
    (hDone : info.sendConf = .done) :
    info'.sendConf = .done := by
  cases hStep with
  | conf => rfl
  | _ => exact hDone

/- A step takes back no flag of the first loop. -/
theorem PartyStep.first_kept
    {cfg : Config} {id : Fin n} {ba ba' : BA}
    {event : Event} {ms : List (BAMsg n)}
    (hStep : PartyStep cfg id ba event ba' ms)
    (hNone :
      ∀ flags, ba.main = .conf flags →
        ba.info.sendConf = .none)
    (hLaunched : ba.launched = true) :
    FirstKept ba ba' := by
  have hAfter := hStep.launched hLaunched
  cases hStep with
  | loop loop event info ms second hLoop hLoopStep =>
      have hKept : FirstKept ba (ba.setLoop loop info) :=
        .setLoop hLaunched hLoopStep.input_eq
          hLoopStep.sendConf_done (hLoopStep.values_le true)
      exact ⟨hAfter, hKept.input, hKept.sendConf, hKept.one⟩
  | finish => exact ⟨hAfter, rfl, fun h => h, fun h => h⟩
  | mainConf flags signal info hMain hTake =>
      rcases takeConf_same hTake with
        ⟨hValues, hConf, hInput, _⟩
      have hKept : FirstKept ba (ba.setLoop ba.loop info) :=
        .setLoop hLaunched hInput (fun h => hConf.trans h)
          (fun h => (congrArg Values.one hValues).trans h)
      exact ⟨hAfter, hKept.input, hKept.sendConf, hKept.one⟩
  | mainConfReady flags signal info hMain hTake =>
      rcases takeConf_same hTake with
        ⟨hValues, hConf, hInput, _⟩
      have hKept :
          FirstKept ba
            (ba.setLoop ba.loop
              { info with sendConf := .pending }) :=
        .setLoop hLaunched hInput
          (fun h => by
            have hBefore := hNone flags hMain
            rw [BA.info, h] at hBefore
            cases hBefore)
          (fun h => (congrArg Values.one hValues).trans h)
      exact ⟨hAfter, hKept.input, hKept.sendConf, hKept.one⟩
  | mainCoin flags signal info hMain hTake
  | mainCoinReady flags signal info hMain hTake =>
      rcases takeCoin_same hTake with
        ⟨hValues, hConf, hInput, _⟩
      have hKept : FirstKept ba (ba.setLoop ba.loop info) :=
        .setLoop hLaunched hInput (fun h => hConf.trans h)
          (fun h => (congrArg Values.one hValues).trans h)
      exact ⟨hAfter, hKept.input, hKept.sendConf, hKept.one⟩
  | elect hMain =>
      rcases elect_cases cfg ba with
        ⟨value, hEq⟩ | ⟨input, hEq⟩
      · rw [hEq]
        exact ⟨rfl, rfl, fun h => h, fun h => h⟩
      · rw [hEq]
        refine ⟨rfl, ?_, ?_, ?_⟩ <;> simp [BA.startLoop]

/- The statements told apart take back no flag. -/
theorem LoopPart.kept
    {loop : Nat} {info info' : LoopInfo}
    {stage stage' : Stage} {statement : Statement}
    (hPart :
      LoopPart loop info stage statement info' stage') :
    info'.input = info.input ∧
      info'.sendConf = info.sendConf ∧
        (info.values.one = true →
          info'.values.one = true) := by
  cases hPart with
  | flag value hStage =>
      refine ⟨rfl, rfl, fun h => ?_⟩
      have hGet := Values.get_set info.values value true
      change info.values.get true = true at h
      rw [h, Bool.true_or] at hGet
      exact hGet
  | valFlag | secondFlag => exact ⟨rfl, rfl, fun _ => rfl⟩
  | _ => exact ⟨rfl, rfl, id⟩

/- What a received message leaves of the first loop. -/
theorem Received.first_kept
    {id : Fin n} {party party' : Interleaved} {m : BAMsg n}
    (hReceived : Received id party m party')
    (hLaunched : party.ba.launched = true) :
    FirstKept party.ba party'.ba := by
  cases hReceived with
  | val info stage hType hLoop hIdle hStep =>
      apply FirstKept.setLoop hLaunched
      · cases hStep <;> rfl
      · cases hStep <;> exact fun h => h
      · cases hStep <;> exact fun h => h
  | other ba hType hRun =>
      have hAfter := receive_launched hRun
      rcases receive_cases hRun with
        ⟨_, _, rfl⟩ | ⟨_, _, rfl⟩
      · apply FirstKept.setLoop hLaunched
        · exact loopReceive_input _ _ _
        · rw [loopReceive_sendConf]
          exact fun h => h
        · exact loopReceive_values_le _ _ _ true
      · refine ⟨hAfter.trans hLaunched, ?_, ?_, ?_⟩ <;>
          dsimp only <;>
          rw [handleFinish_loops]
        · exact fun h => h
        · exact fun h => h

/- While the main goroutine waits no CONF is on its way. -/
def ConfAhead (ba : BA) : Prop :=
  ∀ flags, ba.main = .conf flags → ba.info.sendConf = .none

/- The change of a loop that sends no CONF keeps order. -/
theorem ConfAhead.setLoop
    {ba : BA} (hAhead : ConfAhead ba)
    {loop : Nat} {info : LoopInfo}
    (hConf :
      (ba.loops loop).sendConf = .none →
        info.sendConf = .none) :
    ConfAhead (ba.setLoop loop info) := by
  intro flags hMain
  have hBefore := hAhead flags hMain
  change ((ba.setLoop loop info).loops ba.loop).sendConf = _
  by_cases hEq : ba.loop = loop
  · rw [BA.info, hEq] at hBefore
    rw [hEq, BA.setLoop_self]
    exact hConf hBefore
  · rw [BA.setLoop_of_ne _ _ hEq]
    exact hBefore

/- No loop sends its CONF before the main goroutine asks. -/
theorem PartyStep.confAhead
    {cfg : Config} {id : Fin n} {ba ba' : BA}
    {event : Event} {ms : List (BAMsg n)}
    (hStep : PartyStep cfg id ba event ba' ms)
    (hAhead : ConfAhead ba) :
    ConfAhead ba' := by
  cases hStep with
  | loop loop event info ms second hLoop hLoopStep =>
      exact hAhead.setLoop hLoopStep.sendConf_none
  | finish => exact hAhead
  | mainConf flags signal info hMain hTake =>
      have hSame := (takeConf_same hTake).2.1
      intro _ _
      have hInfo :
          ((ba.setLoop ba.loop info).loops ba.loop).sendConf =
            .none := by
        rw [BA.setLoop_self, hSame]
        exact hAhead flags hMain
      exact hInfo
  | mainConfReady => exact fun _ hMain => by cases hMain
  | mainCoin => exact fun _ hMain => by cases hMain
  | mainCoinReady => exact fun _ hMain => by cases hMain
  | elect hMain =>
      intro flags hConf
      rcases elect_cases cfg ba with
        ⟨value, hEq⟩ | ⟨input, hEq⟩
      · rw [hEq] at hConf
        cases hConf
      · rw [hEq]
        simp [BA.info, BA.startLoop, LoopInfo.new]

/- A message that is read asks for no CONF. -/
theorem Received.confAhead
    {id : Fin n} {party party' : Interleaved} {m : BAMsg n}
    (hReceived : Received id party m party')
    (hAhead : ConfAhead party.ba) :
    ConfAhead party'.ba := by
  cases hReceived with
  | val info stage hType hLoop hIdle hStep =>
      apply hAhead.setLoop
      cases hStep <;> exact fun h => h
  | other ba hType hRun =>
      rcases receive_cases hRun with
        ⟨_, _, rfl⟩ | ⟨_, _, rfl⟩
      · apply hAhead.setLoop
        rw [loopReceive_sendConf]
        exact fun h => h
      · intro flags hMain
        dsimp only at hMain ⊢
        rw [handleFinish_main] at hMain
        rw [BA.info, handleFinish_loops, handleFinish_loop]
        exact hAhead flags hMain

/- No statement asks for a CONF ahead of time. -/
theorem StatementStep.confAhead
    {cfg : Config} {id : Fin n} {party party' : Interleaved}
    {statement : Statement} {ms : List (BAMsg n)}
    (hStep : StatementStep cfg id party statement party' ms)
    (hAhead : ConfAhead party.ba) :
    ConfAhead party'.ba := by
  cases hStep with
  | whole event ba ms hWhole hRun =>
      exact (partyStep_of_step hRun).confAhead hAhead
  | part statement loop info stage hLoop hPart =>
      apply hAhead.setLoop
      rw [hPart.kept.2.1]
      exact fun h => h

/- No statement takes back a flag of the first loop. -/
theorem StatementStep.first_kept
    {cfg : Config} {id : Fin n} {party party' : Interleaved}
    {statement : Statement} {ms : List (BAMsg n)}
    (hStep : StatementStep cfg id party statement party' ms)
    (hAhead : ConfAhead party.ba)
    (hLaunched : party.ba.launched = true) :
    FirstKept party.ba party'.ba := by
  cases hStep with
  | whole event ba ms hWhole hRun =>
      exact (partyStep_of_step hRun).first_kept hAhead
        hLaunched
  | part statement loop info stage hLoop hPart =>
      rcases hPart.kept with ⟨hInput, hConf, hOne⟩
      exact FirstKept.setLoop hLaunched hInput
        (fun h => hConf.trans h) hOne

/- A CONF message of the first loop. -/
def FirstConf (m : BAMsg n) : Prop :=
  m.type = .conf ∧ m.loop = 0

/- No step of the party's own changes what it has counted. -/
theorem StatementStep.first_confCount
    {cfg : Config} {id : Fin n} {party party' : Interleaved}
    {statement : Statement} {ms : List (BAMsg n)}
    (hStep :
      StatementStep cfg id party statement party' ms) :
    (party'.ba.loops 0).confCount =
      (party.ba.loops 0).confCount := by
  have hSet :
      ∀ loop info,
        info.confCount = (party.ba.loops loop).confCount →
          ((party.ba.setLoop loop info).loops 0).confCount =
            (party.ba.loops 0).confCount := by
    intro loop info hCount
    by_cases hZero : 0 = loop
    · subst hZero
      rw [BA.setLoop_self]
      exact hCount
    · rw [BA.setLoop_of_ne _ _ hZero]
  cases hStep with
  | part statement loop info stage hLoop hPart =>
      apply hSet
      cases hPart <;> rfl
  | whole event ba ms hWhole hRun =>
      cases partyStep_of_step hRun with
      | loop loop event info ms second hLoop hLoopStep =>
          apply hSet
          cases hLoopStep <;> rfl
      | finish => rfl
      | mainConf flags signal info hMain hTake
      | mainConfReady flags signal info hMain hTake =>
          have hCounts := takeConf_counts hTake
          exact hSet _ _ (congrArg Counts.confCount hCounts)
      | mainCoin flags signal info hMain hTake
      | mainCoinReady flags signal info hMain hTake =>
          have hCounts := takeCoin_counts hTake
          exact hSet _ _ (congrArg Counts.confCount hCounts)
      | elect hMain =>
          dsimp only
          rcases elect_cases cfg party.ba with
            ⟨value, hEq⟩ | ⟨input, hEq⟩
          · rw [hEq]
          · rw [hEq]
            simp [BA.startLoop]

/- A CONF that shows false alone counts for false. -/
theorem Received.first_confCount
    {id : Fin n} {party party' : Interleaved} {m : BAMsg n}
    (hReceived : Received id party m party') :
    (party'.ba.loops 0).confCount false =
        (party.ba.loops 0).confCount false ∨
      FirstConf m ∧
        confValueAt id (party.ba.loops 0) m =
            Values.only false ∧
          (party'.ba.loops 0).confCount false =
            (party.ba.loops 0).confCount false + 1 := by
  cases hReceived with
  | val info stage hType hLoop hIdle hStep =>
      left
      change ((party.ba.setLoop m.loop info).loops
        0).confCount false = _
      by_cases hZero : 0 = m.loop
      · rw [← hZero] at hStep ⊢
        rw [BA.setLoop_self]
        cases hStep <;> rfl
      · rw [BA.setLoop_of_ne _ _ hZero]
  | other ba hType hRun =>
      rcases receive_cases hRun with
        ⟨hKind, _, rfl⟩ | ⟨_, _, rfl⟩
      · dsimp only
        by_cases hZero : 0 = m.loop
        · rw [← hZero, BA.setLoop_self]
          cases hConf : m.type with
          | val => exact absurd hConf hType
          | finish => exact absurd hConf hKind
          | aux =>
              left
              simp only [loopReceive, hConf]
              rw [handleAux_eq]
          | conf =>
              have hCount :=
                handleConf_confCount (faults n)
                  (party.ba.loops 0)
                  (confValueAt id (party.ba.loops 0) m) false
              simp only [loopReceive, hConf]
              change (handleConf (faults n) (party.ba.loops 0)
                (confValueAt id (party.ba.loops 0)
                  m)).confCount false = _ at hCount
              by_cases hShown :
                  confValueAt id (party.ba.loops 0) m =
                    Values.only false
              · rw [if_pos hShown] at hCount
                exact .inr
                  ⟨⟨hConf, hZero.symm⟩, hShown, hCount⟩
              · rw [if_neg hShown] at hCount
                exact .inl hCount
        · left
          rw [BA.setLoop_of_ne _ _ hZero]
      · left
        dsimp only
        rw [handleFinish_loops]

/- Only `sendconf` of the first loop broadcasts one. -/
theorem StatementStep.first_conf
    {cfg : Config} {id : Fin n} {party party' : Interleaved}
    {statement : Statement} {ms : List (BAMsg n)}
    (hStep : StatementStep cfg id party statement party' ms)
    {m : BAMsg n} (hMem : m ∈ ms) (hFirst : FirstConf m) :
    statement = .whole (.sendConf 0) ∧
      m = BA.confMsg id 0 (party.ba.loops 0).values ∧
        ms = [m] ∧
          (party.ba.loops 0).sendConf = .pending ∧
            (party'.ba.loops 0).sendConf = .done := by
  cases hStep with
  | part => cases hMem
  | whole event ba ms hWhole hRun =>
      cases partyStep_of_step hRun with
      | loop loop event info ms second hLoop hLoopStep =>
          cases hLoopStep with
          | conf hPending =>
              have hEq := List.mem_singleton.mp hMem
              have hZero : loop = 0 := by
                have hLoop := hFirst.2
                rw [hEq] at hLoop
                exact hLoop
              subst hZero
              refine ⟨rfl, hEq, by rw [hEq], hPending, ?_⟩
              exact congrArg LoopInfo.sendConf
                (BA.setLoop_self party.ba 0 _)
          | valNew | second | auxNew =>
              rw [List.mem_singleton] at hMem
              rw [hMem] at hFirst
              cases hFirst.1
          | _ => cases hMem
      | finish =>
          rw [List.mem_singleton] at hMem
          rw [hMem] at hFirst
          cases hFirst.1
      | _ => cases hMem

/- A party sends under its own number. -/
theorem StatementStep.id_eq
    {cfg : Config} {id : Fin n} {party party' : Interleaved}
    {statement : Statement} {ms : List (BAMsg n)}
    (hStep :
      StatementStep cfg id party statement party' ms) :
    ∀ m ∈ ms, m.id = id := by
  cases hStep with
  | part => exact fun m hm => by cases hm
  | whole event ba ms hWhole hRun =>
      exact (partyStep_of_step hRun).id_eq

/- What the sender of a CONF of the first loop keeps to. -/
structure ConfFrom (ba : BA) (m : BAMsg n) : Prop where
  launched : ba.launched = true
  done : (ba.loops 0).sendConf = .done
  biased :
    m.confValue.one = false → (ba.loops 0).input = false
  values :
    m.confValue.one = true → (ba.loops 0).values.one = true

/- A CONF for false keeps coming from a party with false. -/
theorem ConfFrom.mono
    {ba ba' : BA} {m : BAMsg n}
    (hFrom : ConfFrom ba m) (hKept : FirstKept ba ba') :
    ConfFrom ba' m where
  launched := hKept.launched
  done := hKept.sendConf hFrom.done
  biased := fun h => hKept.input.trans (hFrom.biased h)
  values := fun h => hKept.one (hFrom.values h)

/-
  Each party sends one CONF in the first loop, and those that
  a party has counted for false alone are from as many
  parties that started with false.
-/
structure ConfOk (s : Net n) : Prop where
  ahead : ∀ p, ConfAhead (s.ba p)
  sent :
    ∀ m ∈ s.sent, FirstConf m → ConfFrom (s.ba m.id) m
  once :
    ∀ (i j : Nat) (m m' : BAMsg n),
      s.sent[i]? = some m → s.sent[j]? = some m' →
        FirstConf m → FirstConf m' → m.id = m'.id → i = j
  counted :
    ∀ p, ∃ qs : Finset (Fin n),
      ((s.ba p).loops 0).confCount false = qs.card ∧
        ∀ q ∈ qs, q ∈ startedFalse s ∧
          ∃ i ∈ s.taken p, ∃ m, s.sent[i]? = some m ∧
            FirstConf m ∧ m.id = q

section Run

variable {cfg : Config} {s s' : Net n} {a : Net.Action n}

/- A party that has been launched keeps its input. -/
theorem NetMove.first_kept
    (hMove : NetMove cfg s a s')
    (hAhead : ∀ p, ConfAhead (s.ba p)) (q : Fin n)
    (hLaunched : (s.ba q).launched = true) :
    FirstKept (s.ba q) (s'.ba q) := by
  have hSet :
      ∀ (p : Fin n) (party : Interleaved),
        (q = p → FirstKept (s.ba q) party.ba) →
          FirstKept (s.ba q) ((s.setParty p party).ba q) := by
    intro p party hKept
    by_cases hq : q = p
    · subst hq
      simpa [Net.ba] using hKept rfl
    · unfold Net.ba
      rw [Net.setParty_of_ne _ _ hq]
      exact ⟨hLaunched, rfl, fun h => h, fun h => h⟩
  cases hMove with
  | launch p input hIdle =>
      apply hSet
      rintro rfl
      rw [hIdle] at hLaunched
      cases hLaunched
  | second p =>
      apply hSet
      rintro rfl
      exact ⟨hLaunched, rfl, fun h => h, fun h => h⟩
  | take p i m party hMsg hBefore hNew hReceived =>
      apply hSet
      rintro rfl
      exact hReceived.first_kept hLaunched
  | go p statement party ms hBefore hStep =>
      apply hSet
      rintro rfl
      exact hStep.first_kept (hAhead q) hLaunched

/- Every move keeps the CONF messages in order. -/
theorem NetMove.confAhead
    (hMove : NetMove cfg s a s')
    (hAhead : ∀ p, ConfAhead (s.ba p)) (q : Fin n) :
    ConfAhead (s'.ba q) := by
  have hSet :
      ∀ (p : Fin n) (party : Interleaved),
        (q = p → ConfAhead party.ba) →
          ConfAhead ((s.setParty p party).ba q) := by
    intro p party hParty
    by_cases hq : q = p
    · subst hq
      simpa [Net.ba] using hParty rfl
    · unfold Net.ba
      rw [Net.setParty_of_ne _ _ hq]
      exact hAhead q
  cases hMove with
  | launch p input hIdle =>
      apply hSet
      rintro rfl _ _
      simp [BA.info, BA.startLoop, LoopInfo.new]
  | second p =>
      apply hSet
      rintro rfl
      exact hAhead q
  | take p i m party hMsg hBefore hNew hReceived =>
      apply hSet
      rintro rfl
      exact hReceived.confAhead (hAhead q)
  | go p statement party ms hBefore hStep =>
      apply hSet
      rintro rfl
      exact hStep.confAhead (hAhead q)

/- A party that started with false stays one. -/
theorem startedFalse_mono
    (hMove : NetMove cfg s a s')
    (hAhead : ∀ p, ConfAhead (s.ba p)) :
    startedFalse s ⊆ startedFalse s' := by
  intro q hq
  rcases Finset.mem_filter.mp hq with ⟨_, hLaunched, hInput⟩
  have hKept := hMove.first_kept hAhead q hLaunched
  exact Finset.mem_filter.mpr
    ⟨Finset.mem_univ q, hKept.launched,
      hKept.input.trans hInput⟩

/- What has been sent keeps its place. -/
theorem NetMove.sent_append
    (hMove : NetMove cfg s a s') :
    ∃ ms, s'.sent = s.sent ++ ms := by
  cases hMove with
  | go p statement party ms => exact ⟨ms, rfl⟩
  | _ => exact ⟨[], (List.append_nil _).symm⟩

/- A message that was taken stays taken. -/
theorem NetMove.taken_subset
    (hMove : NetMove cfg s a s') (q : Fin n) :
    ∀ i ∈ s.taken q, i ∈ s'.taken q := by
  intro j hj
  cases hMove with
  | take p i m party =>
      by_cases hq : q = p
      · subst hq
        simp [hj]
      · simpa [Function.update_of_ne hq] using hj
  | _ => exact hj

/- A set of counted senders serves the next state as well. -/
theorem counted_mono
    (hMove : NetMove cfg s a s')
    (hAhead : ∀ p, ConfAhead (s.ba p)) {p q : Fin n}
    (hCounted :
      q ∈ startedFalse s ∧
        ∃ i ∈ s.taken p, ∃ m, s.sent[i]? = some m ∧
          FirstConf m ∧ m.id = q) :
    q ∈ startedFalse s' ∧
      ∃ i ∈ s'.taken p, ∃ m, s'.sent[i]? = some m ∧
        FirstConf m ∧ m.id = q := by
  rcases hCounted with ⟨hFalse, i, hi, m, hMsg, hFirst, hId⟩
  rcases hMove.sent_append with ⟨ms, hSent⟩
  refine ⟨startedFalse_mono hMove hAhead hFalse, i,
    hMove.taken_subset p i hi, m, ?_, hFirst, hId⟩
  rw [hSent, List.getElem?_append_left
    (List.getElem?_eq_some_iff.mp hMsg).1]
  exact hMsg

/- At the start no CONF has been sent. -/
theorem ConfOk.init : ConfOk (net n cfg).init := by
  constructor
  · intro p flags hMain
    cases hMain
  · intro m hm
    cases hm
  · intro i j m m' hMsg
    cases hMsg
  · intro p
    exact ⟨∅, rfl, fun q hq => absurd hq (Finset.notMem_empty q)⟩

/- A CONF that is new and one that was sent before. -/
theorem ConfOk.not_again
    (hConf : ConfOk s) {p : Fin n} {statement : Statement}
    {party : Interleaved} {ms : List (BAMsg n)}
    (hStep :
      StatementStep cfg p (s.party p) statement party ms)
    {m m' : BAMsg n} (hOld : m ∈ s.sent) (hNew : m' ∈ ms)
    (hFirst : FirstConf m) (hFirst' : FirstConf m') :
    m.id ≠ m'.id := by
  intro hId
  rw [hStep.id_eq m' hNew] at hId
  have hDone := (hConf.sent m hOld hFirst).done
  have hPending := (hStep.first_conf hNew hFirst').2.2.2.1
  rw [hId, hPending] at hDone
  cases hDone

/- A party still has one CONF of the first loop. -/
theorem ConfOk.once_append
    (hConf : ConfOk s) {p : Fin n} {statement : Statement}
    {party : Interleaved} {ms : List (BAMsg n)}
    (hStep :
      StatementStep cfg p (s.party p) statement party ms)
    {i j : Nat} {m m' : BAMsg n}
    (hMsg : (s.sent ++ ms)[i]? = some m)
    (hMsg' : (s.sent ++ ms)[j]? = some m')
    (hFirst : FirstConf m) (hFirst' : FirstConf m')
    (hId : m.id = m'.id) : i = j := by
  by_cases hi : i < s.sent.length
  · rw [List.getElem?_append_left hi] at hMsg
    by_cases hj : j < s.sent.length
    · rw [List.getElem?_append_left hj] at hMsg'
      exact hConf.once i j m m' hMsg hMsg' hFirst hFirst' hId
    · rw [List.getElem?_append_right (by omega)] at hMsg'
      exact absurd hId
        (hConf.not_again hStep (List.mem_of_getElem? hMsg)
          (List.mem_of_getElem? hMsg') hFirst hFirst')
  · rw [List.getElem?_append_right (by omega)] at hMsg
    by_cases hj : j < s.sent.length
    · rw [List.getElem?_append_left hj] at hMsg'
      exact absurd hId.symm
        (hConf.not_again hStep (List.mem_of_getElem? hMsg')
          (List.mem_of_getElem? hMsg) hFirst' hFirst)
    · rw [List.getElem?_append_right (by omega)] at hMsg'
      -- a step broadcasts at most one
      have hOne :=
        (hStep.first_conf (List.mem_of_getElem? hMsg)
          hFirst).2.2.1
      have hLt := (List.getElem?_eq_some_iff.mp hMsg).1
      have hLt' := (List.getElem?_eq_some_iff.mp hMsg').1
      rw [hOne, List.length_singleton] at hLt hLt'
      omega

/- A new CONF is as its sender has it. -/
theorem StatementStep.conf_from
    {p : Fin n} {statement : Statement}
    {party : Interleaved} {ms : List (BAMsg n)}
    (hStep :
      StatementStep cfg p (s.party p) statement party ms)
    (hAhead : ConfAhead (s.ba p))
    (hLaunched : (s.ba p).launched = true)
    (hOk : flaggedFirst s (.go p statement) = true)
    {m : BAMsg n} (hMem : m ∈ ms) (hFirst : FirstConf m) :
    ConfFrom party.ba m := by
  have hKept := hStep.first_kept hAhead hLaunched
  rcases hStep.first_conf hMem hFirst with
    ⟨rfl, hMsg, _, _, hDone⟩
  refine ⟨hKept.launched, hDone, fun h => ?_, fun h => ?_⟩
  · rw [hMsg] at h
    have h : ((s.ba p).loops 0).values.one = false := h
    rw [hKept.input]
    have hFlag := (Bool.and_eq_true_iff.mp hOk).1
    simpa [confFlagged, h] using hFlag
  · rw [hMsg] at h
    exact hKept.one h

/- What a party counts for false alone started with false. -/
theorem ConfOk.shown_false
    (hConf : ConfOk s) {p : Fin n} {m : BAMsg n}
    (hMem : m ∈ s.sent) (hFirst : FirstConf m)
    (hShown :
      confValueAt p ((s.ba p).loops 0) m =
        Values.only false) :
    m.id ∈ startedFalse s := by
  have hFrom := hConf.sent m hMem hFirst
  refine Finset.mem_filter.mpr
    ⟨Finset.mem_univ _, hFrom.launched, hFrom.biased ?_⟩
  unfold confValueAt at hShown
  split at hShown
  · rename_i hId
    by_contra hOne
    rw [Bool.not_eq_false] at hOne
    have hValues := hFrom.values hOne
    rw [hId, hShown] at hValues
    cases hValues
  · rw [hShown]
    rfl

/- A CONF for false alone is counted with its sender. -/
theorem ConfOk.counted_take
    (hConf : ConfOk s) {p : Fin n} {i : Nat} {m : BAMsg n}
    {party : Interleaved}
    (hMsg : s.sent[i]? = some m)
    (hNew : i ∉ s.taken p)
    (hReceived : Received p (s.party p) m party) :
    ∃ qs : Finset (Fin n),
      (party.ba.loops 0).confCount false = qs.card ∧
        ∀ q ∈ qs, q ∈ startedFalse s ∧
          ∃ j ∈ i :: s.taken p, ∃ m, s.sent[j]? = some m ∧
            FirstConf m ∧ m.id = q := by
  rcases hConf.counted p with ⟨qs, hCard, hAll⟩
  have hOld :
      ∀ q ∈ qs, q ∈ startedFalse s ∧
        ∃ j ∈ i :: s.taken p, ∃ m, s.sent[j]? = some m ∧
          FirstConf m ∧ m.id = q := by
    intro q hq
    rcases hAll q hq with ⟨hFalse, j, hj, hRest⟩
    exact ⟨hFalse, j, List.mem_cons_of_mem i hj, hRest⟩
  rcases hReceived.first_confCount with
    hSame | ⟨hFirst, hShown, hMore⟩
  · exact ⟨qs, hSame.trans hCard, hOld⟩
  · have hFresh : m.id ∉ qs := by
      intro hMem
      rcases (hAll m.id hMem).2 with
        ⟨j, hj, m', hMsg', hFirst', hId⟩
      apply hNew
      rw [hConf.once i j m m' hMsg hMsg' hFirst hFirst'
        hId.symm]
      exact hj
    refine ⟨insert m.id qs, ?_, ?_⟩
    · rw [Finset.card_insert_of_notMem hFresh, hMore, hCard]
    · intro q hq
      rcases Finset.mem_insert.mp hq with rfl | hq
      · exact
          ⟨hConf.shown_false (List.mem_of_getElem? hMsg)
              hFirst hShown,
            i, List.mem_cons_self, m, hMsg, hFirst, rfl⟩
      · exact hOld q hq

/- Every move with the flags written first keeps this. -/
theorem ConfOk.move
    (hConf : ConfOk s) (hMove : NetMove cfg s a s')
    (hOk : flaggedFirst s a = true) :
    ConfOk s' := by
  have hMono :
      ∀ (p : Fin n) (qs : Finset (Fin n)),
        (∀ q ∈ qs, q ∈ startedFalse s ∧
          ∃ i ∈ s.taken p, ∃ m, s.sent[i]? = some m ∧
            FirstConf m ∧ m.id = q) →
          ∀ q ∈ qs, q ∈ startedFalse s' ∧
            ∃ i ∈ s'.taken p, ∃ m, s'.sent[i]? = some m ∧
              FirstConf m ∧ m.id = q :=
    fun p qs hAll q hq =>
      counted_mono hMove hConf.ahead (hAll q hq)
  have hFrom :
      ∀ m ∈ s.sent, FirstConf m → ConfFrom (s'.ba m.id) m :=
    fun m hm hFirst =>
      have hBefore := hConf.sent m hm hFirst
      hBefore.mono
        (hMove.first_kept hConf.ahead m.id hBefore.launched)
  constructor
  · exact hMove.confAhead hConf.ahead
  · cases hMove with
    | go p statement party ms hLaunched hStep =>
        intro m hm hFirst
        rcases List.mem_append.mp hm with hm | hm
        · exact hFrom m hm hFirst
        · rw [hStep.id_eq m hm]
          change ConfFrom
            (Function.update s.party p party p).ba m
          rw [Function.update_self]
          exact hStep.conf_from (hConf.ahead p) hLaunched hOk
            hm hFirst
    | _ => exact hFrom
  · cases hMove with
    | go p statement party ms hLaunched hStep =>
        exact fun i j m m' hMsg hMsg' hFirst hFirst' hId =>
          hConf.once_append hStep hMsg hMsg' hFirst hFirst' hId
    | _ => exact hConf.once
  · intro q
    rcases hConf.counted q with ⟨qs, hCard, hAll⟩
    have hOther :
        (s'.ba q).loops 0 = (s.ba q).loops 0 →
          ∃ qs : Finset (Fin n),
            ((s'.ba q).loops 0).confCount false = qs.card ∧
              ∀ q' ∈ qs, q' ∈ startedFalse s' ∧
                ∃ i ∈ s'.taken q, ∃ m,
                  s'.sent[i]? = some m ∧
                    FirstConf m ∧ m.id = q' := by
      intro hSame
      rw [hSame]
      exact ⟨qs, hCard, hMono q qs hAll⟩
    cases hMove with
    | launch p input hIdle =>
        by_cases hq : q = p
        · refine ⟨∅, ?_,
            fun r hr => absurd hr (Finset.notMem_empty r)⟩
          simp [Net.ba, Net.setParty, hq, BA.startLoop,
            LoopInfo.new]
        · exact hOther (by
            simp [Net.ba, Net.setParty,
              Function.update_of_ne hq])
    | second p =>
        apply hOther
        by_cases hq : q = p
        · simp [Net.ba, Net.setParty, hq]
        · simp [Net.ba, Net.setParty, Function.update_of_ne hq]
    | take p i m party hMsg hLaunched hNew hReceived =>
        by_cases hq : q = p
        · subst hq
          rcases hConf.counted_take hMsg hNew hReceived with
            ⟨rs, hCard', hAll'⟩
          refine ⟨rs, ?_, ?_⟩
          · simpa [Net.ba, Net.setParty] using hCard'
          · intro r hr
            rcases hAll' r hr with ⟨hFalse, j, hj, hRest⟩
            exact
              ⟨startedFalse_mono
                  (NetMove.take q i m party hMsg hLaunched
                    hNew hReceived : NetMove cfg s _ _)
                  hConf.ahead hFalse,
                j, by simpa using hj, hRest⟩
        · exact hOther (by
            simp [Net.ba, Net.setParty,
              Function.update_of_ne hq])
    | go p statement party ms hLaunched hStep =>
        by_cases hq : q = p
        · subst hq
          refine ⟨qs, ?_, hMono q qs hAll⟩
          have hSame := hStep.first_confCount
          rw [← hCard]
          simpa [Net.ba, Net.setParty]
            using congrFun hSame false
        · exact hOther (by
            simp [Net.ba, Net.setParty,
              Function.update_of_ne hq])

/- It holds in every run with the flags written first. -/
theorem confOk
    (hReach :
      (net n cfg).ReachableBy
        (fun s a => flaggedFirst s a = true) s) :
    ConfOk s := by
  refine Machine.ReachableBy.invariant ConfOk .init ?_ hReach
  intro s a s' _ hConf hOk hExec
  exact hConf.move (netMove_of_exec hExec) hOk

end Run

end BinaryAgreement

end Jumbo
