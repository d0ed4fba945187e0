import Jumbo.Lib.RelaySteps

/-
  What a lane gets done.

  Under the condition the counted loop never waits and the
  worker of a round, left alone, handles all that has come.
  A counted loop that waits for a message somebody else has
  taken waits for ever.

  Main declarations:
    * `Lane.Sound.exists_served`
    * `Lane.Moves`
    * `Lane.Sound.unblocked`
    * `Lane.Stuck.exec`
-/

------------------------------------------------------------
-- Being Served
------------------------------------------------------------

namespace Protocol

namespace Relay

variable {α σ : Type*} [DecidableEq α]
variable {hd : Handler α σ} {L L' : Lane α σ}

namespace Lane

/- How far the worker of the round is from being done. -/
def effort (L : Lane α σ) : Nat :=
  3 * (L.incoming.length +
      (L.buffers (L.round + 1)).length) +
    match (L.workers L.round).pc with
    | .holding _ => 2
    | .outer => 1
    | _ => 0

/- With nothing to read all that came has been handled. -/
theorem Sound.served_of_nil
    (hSound : L.Sound hd) (hStage : L.stage = .working)
    (hPc : (L.workers L.round).pc = .inner)
    (hIncoming : L.incoming = [])
    (hBuffer : L.buffers (L.round + 1) = []) :
    L.Served hd L.round := by
  refine .inr (.inr fun msg hRound => ?_)
  have hLow : L.low = L.round :=
    low_eq (by rw [hStage]; nofun)
  have hOld :=
    hSound.balanced msg L.round hRound
      (Nat.le_of_eq hLow)
  have hNone : msg ∉ L.buffers (L.round + 2) := by
    intro hMem
    have hLt := hSound.future hStage msg hMem
    omega
  rw [pending_working hStage, hPc, hIncoming, hBuffer] at hOld
  simp only [Pc.held, List.nil_append] at hOld
  rw [List.count_eq_zero.mpr hNone, Nat.zero_add] at hOld
  exact hOld

/-
  One step nearer: the worker of the round is done, or it
  has a step, under the condition, that takes effort.
-/
theorem Sound.served_step
    (hSound : L.Sound hd) (hStage : L.stage = .working) :
    L.Served hd L.round ∨
      ∃ act L',
        L.exec hd (.worker L.round act) = some L' ∧
          L.orderly hd (.worker L.round act) = true ∧
            L'.stage = .working ∧ L'.round = L.round ∧
              (L'.effort < L.effort ∨
                L'.Served hd L.round) := by
  have hOpen : L.ended L.round = false := by
    unfold ended
    rw [low_eq (by rw [hStage]; nofun)]
    exact decide_eq_false (Nat.lt_irrefl _)
  have hReceive (source : Source) (msg : α) (rest : List α)
      (hPc : (L.workers L.round).pc = .inner)
      (hOffers : L.offers L.round source = msg :: rest) :
      L.exec hd (.worker L.round (.receive source)) =
          some ((L.taken L.round rest source).setPc L.round
            (.holding msg)) ∧
        L.orderly hd (.worker L.round (.receive source)) =
          true := by
    constructor
    · dsimp only [Lane.exec, Lane.act]
      rw [hPc, hOffers]
    · dsimp only [orderly]
      rw [hOpen]
      rfl
  cases hPc : (L.workers L.round).pc with
  | idle => exact absurd hPc (hSound.running hStage)
  | returned => exact .inl (.inl hPc)
  | outer =>
      refine
        .inr
          ⟨.check, L.setPc L.round .inner, ?_, rfl, hStage,
            rfl, .inl ?_⟩
      · dsimp only [Lane.exec, Lane.act]
        rw [hPc]
        dsimp only
        rw [hOpen]
        rfl
      · unfold effort Lane.setPc
        dsimp only
        rw [Function.update_self, hPc]
        exact Nat.lt_succ_self _
  | inner =>
      cases hIncoming : L.incoming with
      | cons msg rest =>
          rcases hReceive .incoming msg rest hPc hIncoming with
            ⟨hExec, hOk⟩
          refine
            .inr ⟨_, _, hExec, hOk, hStage, rfl, .inl ?_⟩
          unfold effort Lane.setPc taken
          dsimp only
          rw [Function.update_self, hPc, hIncoming,
            List.length_cons]
          dsimp only
          omega
      | nil =>
          cases hBuffer : L.buffers (L.round + 1) with
          | cons msg rest =>
              rcases hReceive .buffer msg rest hPc hBuffer with
                ⟨hExec, hOk⟩
              refine
                .inr ⟨_, _, hExec, hOk, hStage, rfl, .inl ?_⟩
              unfold effort Lane.setPc taken
              dsimp only
              rw [Function.update_self,
                Function.update_self, hPc, hBuffer,
                List.length_cons]
              dsimp only
              omega
          | nil =>
              exact
                .inl
                  (hSound.served_of_nil hStage hPc hIncoming
                    hBuffer)
  | holding msg =>
      cases hRead :
          hd.read false L.round (L.workers L.round).state
            msg with
      | none => exact .inl (.inr (.inl ⟨msg, hPc, hRead⟩))
      | some reading =>
          have hExec :
              L.exec hd (.worker L.round .work) =
                L.work hd L.round msg := by
            dsimp only [Lane.exec, Lane.act]
            rw [hPc]
          unfold work at hExec
          rw [hOpen, hRead, Option.map_some] at hExec
          refine
            .inr ⟨_, _, hExec, rfl, hStage, rfl, ?_⟩
          cases hReturned : reading.returned with
          | true =>
              refine .inr (.inl ?_)
              dsimp only
              rw [Function.update_self]
              rfl
          | false =>
              refine .inl ?_
              have hApart : L.round + 1 ≠ L.round + 2 := by
                omega
              unfold effort
              dsimp only
              rw [Function.update_self,
                Function.update_of_ne hApart, hPc]
              exact Nat.lt_succ_self _

/- Steps of its worker alone serve a round. -/
theorem Sound.exists_served
    (hLawful : Lawful hd) (hSound : L.Sound hd)
    (hStage : L.stage = .working) :
    ∃ acts : List Act,
      ((lane hd).drive (fun L a => L.orderly hd a) L
        (acts.map (.worker L.round))).Served hd
          L.round := by
  induction hEffort : L.effort using Nat.strongRecOn
    generalizing L with
  | _ effort ih =>
      rcases hSound.served_step hStage with
        hServed | ⟨act, L', hExec, hOk, hStage', hRound, hLess⟩
      · exact ⟨[], hServed⟩
      · have hDrive (acts : List Act) :
            (lane hd).drive (fun L a => L.orderly hd a) L
                ((act :: acts).map (.worker L.round)) =
              (lane hd).drive (fun L a => L.orderly hd a) L'
                (acts.map (.worker L.round)) :=
          Machine.drive_cons hOk hExec _
        rcases hLess with hLess | hServed
        · have hSound' := hSound.exec hLawful hOk hExec
          rcases ih L'.effort (hEffort ▸ hLess) hSound'
              hStage' rfl with
            ⟨acts, hServed⟩
          refine ⟨act :: acts, ?_⟩
          rw [hDrive, ← hRound]
          exact hServed
        · refine ⟨[act], ?_⟩
          rw [hDrive]
          exact hServed

end Lane

end Relay

end Protocol

------------------------------------------------------------
-- From Round to Round
------------------------------------------------------------

namespace Protocol

namespace Relay

variable {α σ : Type*}
variable {hd : Handler α σ} {L L' : Lane α σ}

namespace Lane

/- The worker of the round does not run yet. -/
def Preparing (L : Lane α σ) : Prop :=
  match L.stage with
  | .before => True
  | .draining _ _ => True
  | _ => False

/- Preparing is about the stage alone. -/
theorem preparing_congr (hStage : L'.stage = L.stage) :
    L'.Preparing ↔ L.Preparing := by
  unfold Preparing
  rw [hStage]

theorem running_of_working (hStage : L.stage = .working) :
    L.running = true := by
  unfold running
  rw [hStage]

/- While a round is prepared no worker runs. -/
theorem Preparing.not_running (hPreparing : L.Preparing) :
    L.running = false := by
  unfold running
  split
  · rename_i hStage
    unfold Preparing at hPreparing
    rw [hStage] at hPreparing
    exact hPreparing.elim
  · rfl

theorem preparing_of_before (hStage : L.stage = .before) :
    L.Preparing := by
  unfold Preparing
  rw [hStage]
  trivial

/- What a part of a system does to a lane. -/
def Moves (hd : Handler α σ) (L L' : Lane α σ) : Prop :=
  L' = L ∨
    ∃ action, L.orderly hd action = true ∧
      L.exec hd action = some L'

/- Moves of the main loop are orderly steps. -/
theorem Moves.reachable
    (hMoves : L.Moves hd L')
    (hReach :
      (lane hd).ReachableBy
        (fun L a => L.orderly hd a = true) L) :
    (lane hd).ReachableBy
      (fun L a => L.orderly hd a = true) L' := by
  rcases hMoves with rfl | ⟨action, hOk, hExec⟩
  · exact hReach
  · exact .step hReach hOk hExec

/- Several messages that arrive at once. -/
theorem reachable_arrivals
    (hReach :
      (lane hd).ReachableBy
        (fun L a => L.orderly hd a = true) L)
    (msgs : List α) :
    (lane hd).ReachableBy
      (fun L a => L.orderly hd a = true)
      (msgs.foldl (Lane.arrive hd) L) := by
  induction msgs generalizing L with
  | nil => exact hReach
  | cons msg msgs ih =>
      have hOk : L.orderly hd (.arrive msg) = true := rfl
      exact ih (.step hReach hOk rfl)

/- To prepare a round is a move. -/
theorem prepare_moves (hExec : L.prepare hd = some L') :
    L.Moves hd L' := by
  unfold prepare at hExec
  split at hExec
  · split at hExec
    · exact .inr ⟨.measure, rfl, hExec⟩
    · exact .inr ⟨.start, rfl, hExec⟩
  · exact .inr ⟨.start, rfl, hExec⟩
  · exact .inr ⟨.drain, rfl, hExec⟩

/- After the launch the worker of the round runs. -/
theorem launch_stage :
    (L.launch hd).stage = .working ∧
      (L.launch hd).round = L.round :=
  ⟨rfl, rfl⟩

theorem start_stage (hExec : L.start hd = some L') :
    L'.stage = .working ∧ L'.round = L.round := by
  unfold start at hExec
  split at hExec
  · split at hExec
    · cases hExec
    · cases hExec
      exact launch_stage
  · cases hExec
    exact launch_stage
  · cases hExec

theorem drain_stage (hExec : L.drain hd = some L') :
    L'.Preparing ∧ L'.round = L.round := by
  unfold drain at hExec
  split at hExec
  · split at hExec
    · cases hExec
    · cases hExec
      exact ⟨trivial, rfl⟩
  · cases hExec
    exact ⟨trivial, rfl⟩
  · cases hExec

theorem measure_stage (hExec : L.measure hd = some L') :
    L'.Preparing ∧ L'.round = L.round := by
  unfold measure at hExec
  split at hExec
  · rcases Option.ite_none_right_eq_some.mp hExec with
      ⟨_, hEq⟩
    cases hEq
    exact ⟨trivial, rfl⟩
  · cases hExec

/- Preparing ends with the worker or goes on. -/
theorem prepare_stage (hExec : L.prepare hd = some L') :
    (L'.Preparing ∨ L'.stage = .working) ∧
      L'.round = L.round := by
  unfold prepare at hExec
  split at hExec
  · split at hExec
    · rcases measure_stage hExec with ⟨hPreparing, hRound⟩
      exact ⟨.inl hPreparing, hRound⟩
    · rcases start_stage hExec with ⟨hStage, hRound⟩
      exact ⟨.inr hStage, hRound⟩
  · rcases start_stage hExec with ⟨hStage, hRound⟩
    exact ⟨.inr hStage, hRound⟩
  · rcases drain_stage hExec with ⟨hPreparing, hRound⟩
    exact ⟨.inl hPreparing, hRound⟩

/- A step of a worker is none of the others. -/
theorem act_stage
    {i : Nat} {act : Act} (hExec : L.act hd i act = some L') :
    L'.stage = L.stage ∧ L'.round = L.round := by
  cases act with
  | check =>
      dsimp only [Lane.act] at hExec
      split at hExec
      · cases hExec
        exact ⟨rfl, rfl⟩
      · cases hExec
  | stop =>
      dsimp only [Lane.act] at hExec
      split at hExec
      · split at hExec
        · cases hExec
          exact ⟨rfl, rfl⟩
        · cases hExec
      · cases hExec
  | receive source =>
      dsimp only [Lane.act] at hExec
      split at hExec
      · rename_i msg rest _ _
        cases hExec
        rcases L.taken_eq i rest source with
          ⟨hRound, hStage, _, _⟩
        exact ⟨hStage, hRound⟩
      · cases hExec
  | work =>
      dsimp only [Lane.act] at hExec
      split at hExec
      · rcases Option.map_eq_some_iff.mp hExec with
          ⟨reading, _, hEq⟩
        cases hEq
        exact ⟨rfl, rfl⟩
      · cases hExec

theorem close_stage (hExec : L.close = some L') :
    L'.stage = .closed ∧ L'.round = L.round := by
  unfold close at hExec
  split at hExec
  · cases hExec
    exact ⟨rfl, rfl⟩
  · cases hExec

theorem next_stage (hExec : L.next = some L') :
    L'.stage = .before ∧ L'.round = L.round + 1 := by
  unfold next at hExec
  split at hExec
  · cases hExec
    exact ⟨rfl, rfl⟩
  · cases hExec

/- The counted loop never waits. -/
theorem Sound.unblocked
    [DecidableEq α]
    (hSound : L.Sound hd) (hPreparing : L.Preparing) :
    (L.prepare hd).isSome := by
  unfold prepare
  split
  · rename_i hStage
    split
    · rename_i hDrains
      unfold Lane.measure
      rw [hStage]
      dsimp only
      rw [if_pos hDrains]
      rfl
    · rename_i hDrains
      unfold Lane.start
      rw [hStage]
      dsimp only
      rw [if_neg hDrains]
      rfl
  · rename_i hStage
    unfold Lane.start
    rw [hStage]
    rfl
  · rename_i hBefore hStart
    cases hStage : L.stage with
    | before => exact absurd hStage hBefore
    | working =>
        unfold Preparing at hPreparing
        rw [hStage] at hPreparing
        cases hPreparing
    | closed =>
        unfold Preparing at hPreparing
        rw [hStage] at hPreparing
        cases hPreparing
    | draining left carried =>
        unfold Lane.drain
        rw [hStage]
        cases carried with
        | some msg =>
            cases left with
            | zero => rfl
            | succ left => rfl
        | none =>
            cases left with
            | zero => exact absurd hStage hStart
            | succ left =>
                have hLength :=
                  (hSound.measured _ _ hStage).2
                cases hBuffer : L.buffers L.round with
                | nil =>
                    rw [hBuffer] at hLength
                    cases hLength
                | cons msg rest => rfl

end Lane

end Relay

end Protocol

------------------------------------------------------------
-- A Blocked Drain
------------------------------------------------------------

namespace Protocol

namespace Relay

variable {α σ : Type*}
variable {hd : Handler α σ} {L L' : Lane α σ}

namespace Lane

/-
  The counted loop waits for a message of a buffer that is
  empty, and who could write it has returned.
-/
structure Stuck (L : Lane α σ) : Prop where
  draining : ∃ left, L.stage = .draining (left + 1) none
  empty : L.buffers L.round = []
  returned :
    ∀ i, i + 2 = L.round → (L.workers i).pc = .returned

/- A stuck lane does not drain. -/
theorem Stuck.drain (hStuck : L.Stuck) :
    L.drain hd = none := by
  rcases hStuck.draining with ⟨left, hStage⟩
  unfold Lane.drain
  rw [hStage, hStuck.empty]

/- A stuck lane does not prepare a round. -/
theorem Stuck.prepare (hStuck : L.Stuck) :
    L.prepare hd = none := by
  rcases hStuck.draining with ⟨left, hStage⟩
  unfold Lane.prepare
  rw [hStage]
  exact hStuck.drain

/- No step of anybody helps. -/
theorem Stuck.exec
    (hStuck : L.Stuck) {action : LaneAction α}
    (hExec : L.exec hd action = some L') : L'.Stuck := by
  rcases hStuck.draining with ⟨left, hStage⟩
  cases action with
  | arrive msg =>
      cases hExec
      exact ⟨⟨left, hStage⟩, hStuck.empty, hStuck.returned⟩
  | measure =>
      dsimp only [Lane.exec, Lane.measure] at hExec
      rw [hStage] at hExec
      cases hExec
  | drain =>
      dsimp only [Lane.exec] at hExec
      rw [hStuck.drain] at hExec
      cases hExec
  | start =>
      dsimp only [Lane.exec, Lane.start] at hExec
      rw [hStage] at hExec
      cases hExec
  | close =>
      dsimp only [Lane.exec, Lane.close] at hExec
      rw [hStage] at hExec
      cases hExec
  | next =>
      dsimp only [Lane.exec, Lane.next] at hExec
      rw [hStage] at hExec
      cases hExec
  | worker i act =>
      have hReturned (hAt : i + 2 = L.round) :=
        hStuck.returned i hAt
      have hSet (T : Lane α σ) (pc : Pc α)
          (hStage' : T.stage = L.stage)
          (hRound' : T.round = L.round)
          (hWorkers' : T.workers = L.workers)
          (hEmpty' : T.buffers L.round = [])
          (hPc : (L.workers i).pc ≠ .returned) :
          (T.setPc i pc).Stuck := by
        refine ⟨⟨left, hStage'.trans hStage⟩, ?_, ?_⟩
        · have hAt : (T.setPc i pc).round = L.round := hRound'
          rw [hAt]
          exact hEmpty'
        · intro j hj
          have hAt : j + 2 = T.round := hj
          rw [hRound'] at hAt
          have hNe : j ≠ i := by
            rintro rfl
            exact hPc (hStuck.returned j hAt)
          unfold setPc
          dsimp only
          rw [Function.update_of_ne hNe, hWorkers']
          exact hStuck.returned j hAt
      cases act with
      | check =>
          dsimp only [Lane.exec, Lane.act] at hExec
          split at hExec
          · rename_i hPc
            cases hExec
            refine hSet L _ rfl rfl rfl hStuck.empty ?_
            rw [hPc]
            nofun
          · cases hExec
      | stop =>
          dsimp only [Lane.exec, Lane.act] at hExec
          split at hExec
          · rename_i hPc
            split at hExec
            · cases hExec
              refine hSet L _ rfl rfl rfl hStuck.empty ?_
              rw [hPc]
              nofun
            · cases hExec
          · cases hExec
      | receive source =>
          dsimp only [Lane.exec, Lane.act] at hExec
          split at hExec
          · rename_i msg rest hPc hOffers
            cases hExec
            rcases L.taken_eq i rest source with
              ⟨hRound, hStage', hWorkers, _⟩
            refine hSet _ _ hStage' hRound hWorkers ?_ ?_
            · apply List.eq_nil_iff_forall_not_mem.mpr
              intro other hMem
              have hOld := mem_of_mem_taken hOffers hMem
              rw [hStuck.empty] at hOld
              cases hOld
            · rw [hPc]
              nofun
          · cases hExec
      | work =>
          dsimp only [Lane.exec, Lane.act] at hExec
          split at hExec
          · rename_i msg hPc
            have hNe : i + 2 ≠ L.round := by
              intro hAt
              rw [hReturned hAt] at hPc
              cases hPc
            rcases Option.map_eq_some_iff.mp hExec with
              ⟨reading, _, hEq⟩
            cases hEq
            refine ⟨⟨left, hStage⟩, ?_, ?_⟩
            · dsimp only
              rw [Function.update_of_ne hNe.symm]
              exact hStuck.empty
            · intro j hj
              have hApart : j ≠ i := by
                rintro rfl
                exact hNe hj
              dsimp only
              rw [Function.update_of_ne hApart]
              exact hStuck.returned j hj
          · cases hExec

end Lane

end Relay

end Protocol
