import Jumbo.BinaryAgreement.Network

/-
  What the steps of a binary agreement instance can do.

  `LoopStep` lists the effects of the goroutines of one loop,
  `PartyStep` those of one party, and `Change` those of the
  whole system. Later invariants are proved by cases on these
  relations and never unfold the goroutines again.

  Main declarations:
    * `LoopStep`
    * `PartyStep`
    * `Change`
    * `exec_change`
    * `LocalRule.holds`
    * `counter_rule`
-/

------------------------------------------------------------
-- Goroutines of One Loop
------------------------------------------------------------

namespace Jumbo

namespace BinaryAgreement

variable {n : Nat}

/-
  One iteration of `sendval`, `sendsencondval`, `sendaux` or
  `sendconf` of loop `loop`, with what it broadcasts.
-/
inductive LoopStep
    (id : Fin n) (loop : Nat) (info : LoopInfo) :
    Event → LoopInfo → List (BAMsg n) → Prop
| valSkip
    (value : Bool) (rest : List Bool)
    (hSignal : info.sendValSignal = value :: rest)
    (hSent : info.valSent value = true) :
    LoopStep id loop info (.sendVal loop)
      { info with sendValSignal := rest } []
| valNew
    (value : Bool) (rest : List Bool) (second : SecondVal)
    (hSignal : info.sendValSignal = value :: rest)
    (hNow : info.sendValNow = none)
    (hFresh : info.valSent value = false) :
    LoopStep id loop info (.sendVal loop)
      { info with
        sendValSignal := rest
        sendValNow := some value
        secondVal := second }
      [BA.valMsg id loop value]
| valDone
    (value : Bool)
    (hNow : info.sendValNow = some value)
    (hLater : value = false ∨ loop ≠ 0) :
    LoopStep id loop info (.sendValDone loop)
      { info with
        valSent := mark info.valSent value
        sendValNow := none } []
| valDoneFirst
    (hNow : info.sendValNow = some true)
    (hLoop : loop = 0) :
    LoopStep id loop info (.sendValDone loop)
      { info with
        sendAuxSignal := info.sendAuxSignal ++ [true]
        values := info.values.set true
        valSent := mark info.valSent true
        sendValNow := none } []
| second
    (hLoop : loop = 0)
    (hSecond : info.secondVal = .waiting) :
    LoopStep id loop info .sendSencondVal
      { info with secondVal := .sent }
      [BA.valMsg id loop true]
| secondDone
    (hLoop : loop = 0)
    (hSecond : info.secondVal = .sent) :
    LoopStep id loop info .sendSencondValDone
      { info with
        secondVal := .done
        sendAuxSignal := info.sendAuxSignal ++ [true]
        values := info.values.set true } []
| auxSkip
    (value : Bool) (rest : List Bool)
    (hSignal : info.sendAuxSignal = value :: rest)
    (hSent : info.auxSent value = true) :
    LoopStep id loop info (.sendAux loop)
      { info with sendAuxSignal := rest } []
| auxNew
    (value : Bool) (rest : List Bool)
    (hSignal : info.sendAuxSignal = value :: rest)
    (hFresh : info.auxSent value = false) :
    LoopStep id loop info (.sendAux loop)
      { info with
        sendAuxSignal := rest
        auxSent := mark info.auxSent value }
      [BA.auxMsg id loop value]
| conf
    (hPending : info.sendConf = .pending) :
    LoopStep id loop info (.sendConf loop)
      { info with sendConf := .done }
      [BA.confMsg id loop info.values]

end BinaryAgreement

end Jumbo

------------------------------------------------------------
-- Goroutines of One Party
------------------------------------------------------------

namespace Jumbo

namespace BinaryAgreement

variable {n : Nat}

/- One iteration of a goroutine of party `id`. -/
inductive PartyStep
    (cfg : Config) (id : Fin n) (ba : BA) :
    Event → BA → List (BAMsg n) → Prop
| loop
    (loop : Nat) (event : Event) (info : LoopInfo)
    (ms : List (BAMsg n)) (second : Nat)
    (hLoop : loop ≤ ba.loop)
    (hStep :
      LoopStep id loop (ba.loops loop) event info ms) :
    PartyStep cfg id ba event
      { ba.setLoop loop info with secondInput := second } ms
| finish
    (value : Bool) (rest : List Bool)
    (hSignal : ba.sendFinishSignal = value :: rest) :
    PartyStep cfg id ba .sendFinish
      { ba with
        sendFinishSignal := rest
        sendFinish := ba.sendFinish - 1 }
      [BA.finishMsg id value]
| mainConf
    (flags : Flags) (signal : Signal) (info : LoopInfo)
    (hMain : ba.main = .conf flags)
    (hTake : ba.info.takeConf signal = some info)
    (hWait : (flags.select signal).2 = false) :
    PartyStep cfg id ba (.mainConf signal)
      { ba.setLoop ba.loop info with
        main := .conf (flags.select signal).1 } []
| mainConfReady
    (flags : Flags) (signal : Signal) (info : LoopInfo)
    (hMain : ba.main = .conf flags)
    (hTake : ba.info.takeConf signal = some info)
    (hReady : (flags.select signal).2 = true) :
    PartyStep cfg id ba (.mainConf signal)
      { ba.setLoop ba.loop
          { info with sendConf := .pending } with
        main := .coin Flags.new } []
| mainCoin
    (flags : Flags) (signal : Signal) (info : LoopInfo)
    (hMain : ba.main = .coin flags)
    (hTake : ba.info.takeCoin signal = some info)
    (hWait : (flags.select signal).2 = false) :
    PartyStep cfg id ba (.mainCoin signal)
      { ba.setLoop ba.loop info with
        main := .coin (flags.select signal).1 } []
| mainCoinReady
    (flags : Flags) (signal : Signal) (info : LoopInfo)
    (hMain : ba.main = .coin flags)
    (hTake : ba.info.takeCoin signal = some info)
    (hReady : (flags.select signal).2 = true) :
    PartyStep cfg id ba (.mainCoin signal)
      { ba.setLoop ba.loop info with main := .elect } []
| elect
    (hMain : ba.main = .elect) :
    PartyStep cfg id ba .mainElect (ba.elect cfg) []

theorem partyStep_sendVal
    {cfg : Config} {id : Fin n} {ba ba' : BA}
    {loop : Nat} {ms : List (BAMsg n)}
    (hLoop : loop ≤ ba.loop)
    (hStep : ba.sendVal id loop = some (ba', ms)) :
    PartyStep cfg id ba (.sendVal loop) ba' ms := by
  unfold BA.sendVal at hStep
  dsimp only at hStep
  split at hStep
  · cases hStep
  · split at hStep
    · rename_i value rest hNow hSignal
      split at hStep
      · rename_i hSent
        cases hStep
        exact .loop loop _ _ _ ba.secondInput hLoop
          (.valSkip value rest hSignal hSent)
      · rename_i hFresh
        cases hStep
        exact .loop loop _ _ _ ba.secondInput hLoop
          (.valNew value rest _ hSignal hNow
            (Bool.eq_false_iff.mpr hFresh))
    · cases hStep

theorem partyStep_sendValDone
    {cfg : Config} {id : Fin n} {ba ba' : BA}
    {loop : Nat} {ms : List (BAMsg n)}
    (hLoop : loop ≤ ba.loop)
    (hStep : ba.sendValDone loop = some (ba', ms)) :
    PartyStep cfg id ba (.sendValDone loop) ba' ms := by
  unfold BA.sendValDone at hStep
  dsimp only at hStep
  split at hStep
  · rename_i value hNow
    cases hStep
    refine .loop loop _ _ _ ba.secondInput hLoop ?_
    by_cases hFirst : (value && decide (loop = 0)) = true
    · have hBoth : value = true ∧ loop = 0 := by
        simpa using hFirst
      rcases hBoth with ⟨rfl, hZero⟩
      rw [if_pos hFirst]
      exact .valDoneFirst hNow hZero
    · rw [if_neg hFirst]
      refine .valDone value hNow ?_
      cases value with
      | false => exact Or.inl rfl
      | true => exact Or.inr (by simpa using hFirst)
  · cases hStep

theorem partyStep_sendSencondVal
    {cfg : Config} {id : Fin n} {ba ba' : BA}
    {ms : List (BAMsg n)}
    (hStep : ba.sendSencondVal id = some (ba', ms)) :
    PartyStep cfg id ba .sendSencondVal ba' ms := by
  unfold BA.sendSencondVal at hStep
  dsimp only at hStep
  split at hStep
  · rename_i hWaiting
    cases hStep
    exact .loop 0 _ _ _ _ (Nat.zero_le _)
      (.second rfl hWaiting.1)
  · cases hStep

theorem partyStep_sendSencondValDone
    {cfg : Config} {id : Fin n} {ba ba' : BA}
    {ms : List (BAMsg n)}
    (hStep : ba.sendSencondValDone = some (ba', ms)) :
    PartyStep cfg id ba .sendSencondValDone ba' ms := by
  unfold BA.sendSencondValDone at hStep
  dsimp only at hStep
  split at hStep
  · rename_i hSent
    cases hStep
    exact .loop 0 _ _ _ ba.secondInput (Nat.zero_le _)
      (.secondDone rfl hSent)
  · cases hStep

theorem partyStep_sendAux
    {cfg : Config} {id : Fin n} {ba ba' : BA}
    {loop : Nat} {ms : List (BAMsg n)}
    (hLoop : loop ≤ ba.loop)
    (hStep : ba.sendAux id loop = some (ba', ms)) :
    PartyStep cfg id ba (.sendAux loop) ba' ms := by
  unfold BA.sendAux at hStep
  dsimp only at hStep
  split at hStep
  · cases hStep
  · split at hStep
    · rename_i value rest hSignal
      split at hStep
      · rename_i hSent
        cases hStep
        exact .loop loop _ _ _ ba.secondInput hLoop
          (.auxSkip value rest hSignal hSent)
      · rename_i hFresh
        cases hStep
        exact .loop loop _ _ _ ba.secondInput hLoop
          (.auxNew value rest hSignal
            (Bool.eq_false_iff.mpr hFresh))
    · cases hStep

theorem partyStep_sendConf
    {cfg : Config} {id : Fin n} {ba ba' : BA}
    {loop : Nat} {ms : List (BAMsg n)}
    (hLoop : loop ≤ ba.loop)
    (hStep : ba.sendConf id loop = some (ba', ms)) :
    PartyStep cfg id ba (.sendConf loop) ba' ms := by
  unfold BA.sendConf at hStep
  dsimp only at hStep
  split at hStep
  · rename_i hPending
    cases hStep
    exact .loop loop _ _ _ ba.secondInput hLoop
      (.conf hPending)
  · cases hStep

theorem partyStep_sendFinishStep
    {cfg : Config} {id : Fin n} {ba ba' : BA}
    {ms : List (BAMsg n)}
    (hStep : ba.sendFinishStep id = some (ba', ms)) :
    PartyStep cfg id ba .sendFinish ba' ms := by
  unfold BA.sendFinishStep at hStep
  split at hStep
  · rename_i value rest hSignal
    split at hStep
    · cases hStep
      exact .finish value rest hSignal
    · cases hStep
  · cases hStep

theorem partyStep_mainConf
    {cfg : Config} {id : Fin n} {ba ba' : BA}
    {signal : Signal} {ms : List (BAMsg n)}
    (hStep : ba.mainConf signal = some (ba', ms)) :
    PartyStep cfg id ba (.mainConf signal) ba' ms := by
  unfold BA.mainConf at hStep
  split at hStep
  · rename_i flags info hMain hTake
    simp only at hStep
    split at hStep
    · rename_i hReady
      cases hStep
      exact .mainConfReady flags signal info hMain hTake
        hReady
    · rename_i hWait
      cases hStep
      exact .mainConf flags signal info hMain hTake
        (Bool.eq_false_iff.mpr hWait)
  · cases hStep

theorem partyStep_mainCoin
    {cfg : Config} {id : Fin n} {ba ba' : BA}
    {signal : Signal} {ms : List (BAMsg n)}
    (hStep : ba.mainCoin signal = some (ba', ms)) :
    PartyStep cfg id ba (.mainCoin signal) ba' ms := by
  unfold BA.mainCoin at hStep
  split at hStep
  · rename_i flags info hMain hTake
    simp only at hStep
    cases hStep
    cases hReady : (flags.select signal).2 with
    | true =>
        simp only [if_true]
        exact .mainCoinReady flags signal info hMain hTake
          hReady
    | false =>
        simp only [Bool.false_eq_true, if_false]
        exact .mainCoin flags signal info hMain hTake hReady
  · cases hStep

/- Every step of a party is one of the listed effects. -/
theorem partyStep_of_step
    {cfg : Config} {id : Fin n} {ba ba' : BA}
    {event : Event} {ms : List (BAMsg n)}
    (hStep : ba.step cfg id event = some (ba', ms)) :
    PartyStep cfg id ba event ba' ms := by
  cases event with
  | sendVal loop =>
      rcases Option.ite_none_right_eq_some.mp hStep with
        ⟨hLoop, hRun⟩
      exact partyStep_sendVal hLoop hRun
  | sendValDone loop =>
      rcases Option.ite_none_right_eq_some.mp hStep with
        ⟨hLoop, hRun⟩
      exact partyStep_sendValDone hLoop hRun
  | sendSencondVal => exact partyStep_sendSencondVal hStep
  | sendSencondValDone =>
      exact partyStep_sendSencondValDone hStep
  | sendAux loop =>
      rcases Option.ite_none_right_eq_some.mp hStep with
        ⟨hLoop, hRun⟩
      exact partyStep_sendAux hLoop hRun
  | sendConf loop =>
      rcases Option.ite_none_right_eq_some.mp hStep with
        ⟨hLoop, hRun⟩
      exact partyStep_sendConf hLoop hRun
  | sendFinish => exact partyStep_sendFinishStep hStep
  | mainConf signal => exact partyStep_mainConf hStep
  | mainCoin signal => exact partyStep_mainCoin hStep
  | mainElect =>
      simp only [BA.step, BA.mainElect] at hStep
      split at hStep
      · rename_i hMain
        cases hStep
        exact .elect hMain
      · cases hStep

end BinaryAgreement

end Jumbo

------------------------------------------------------------
-- Changes of the System
------------------------------------------------------------

namespace Jumbo

namespace BinaryAgreement

open Protocol

variable {n : Nat}

/-
  What an action does to the party it is about, and what that
  party broadcasts. Crashing and routing change no party.
-/
inductive Change
    (cfg : Config) (s : State n) :
    Action n → Fin n → BA → List (BAMsg n) → Prop
| launch
    (p : Fin n) (input : Bool)
    (hIdle : (s.party p).launched = false) :
    Change cfg s (.launch p input) p
      ((s.party p).startLoop 0 input) []
| second (p : Fin n) :
    Change cfg s (.second p) p
      { s.party p with
        secondInput := (s.party p).secondInput + 1 } []
| handle
    (p : Fin n) (i : Nat) (m : BAMsg n) (ba : BA)
    (hLaunched : (s.party p).launched = true)
    (hMsg : s.log.sent[i]? = some m)
    (hLoc : s.log.loc p i = .chan)
    (hReceive : (s.party p).receive p m = some ba) :
    Change cfg s (.handle p i) p ba []
| go
    (p : Fin n) (event : Event) (ba : BA)
    (ms : List (BAMsg n))
    (hLaunched : (s.party p).launched = true)
    (hStep : PartyStep cfg p (s.party p) event ba ms) :
    Change cfg s (.go p event) p ba ms

/- A broadcast is added behind the messages before it. -/
@[simp] theorem publish_sent
    (log : BroadcastLog n (BAMsg n) Loc)
    (p : Fin n) (before after : Nat)
    (ms : List (BAMsg n)) :
    (publish log p before after ms).sent =
      log.sent ++ ms := by
  unfold publish
  dsimp only
  split
  · simp [checkBuf]
  · simp

/- Every step of the system is one of the listed changes. -/
theorem exec_change
    {cfg : Config} {s s' : State n} {a : Action n}
    (hExec : exec cfg s a = some s') :
    (s'.party = s.party ∧ s'.log.sent = s.log.sent ∧
      ∀ p i, a ≠ .handle p i) ∨
      ∃ p ba ms, Change cfg s a p ba ms ∧
        s'.party = Function.update s.party p ba ∧
          s'.log.sent = s.log.sent ++ ms := by
  cases a with
  | launch p input =>
      rcases Option.ite_none_right_eq_some.mp hExec with
        ⟨hIdle, hEq⟩
      cases hEq
      have hNot : (s.party p).launched = false := by
        simp only [Bool.and_eq_true, Bool.not_eq_true']
          at hIdle
        exact hIdle.2
      exact Or.inr ⟨p, _, [], .launch p input hNot, rfl,
        (List.append_nil _).symm⟩
  | second p =>
      rcases Option.ite_none_right_eq_some.mp hExec with
        ⟨_, hEq⟩
      cases hEq
      exact Or.inr ⟨p, _, [], .second p, rfl,
        (List.append_nil _).symm⟩
  | crash p =>
      cases hExec
      exact Or.inl ⟨rfl, rfl, by simp⟩
  | route p i =>
      simp only [exec] at hExec
      split at hExec
      · split at hExec
        · cases hExec
          exact Or.inl ⟨rfl, rfl, by simp⟩
        · cases hExec
      · cases hExec
  | handle p i =>
      simp only [exec] at hExec
      split at hExec
      · rename_i m hMsg
        split at hExec
        · rename_i hReady
          split at hExec
          · rename_i ba hReceive
            cases hExec
            have hLaunched :
                (s.party p).launched = true := by
              have hRun := hReady.1
              simp only [State.running,
                Bool.and_eq_true] at hRun
              exact hRun.2
            exact Or.inr ⟨p, ba, [],
              .handle p i m ba hLaunched hMsg hReady.2
                hReceive,
              rfl, (List.append_nil _).symm⟩
          · cases hExec
        · cases hExec
      · cases hExec
  | go p event =>
      simp only [exec] at hExec
      split at hExec
      · rename_i hRun
        split at hExec
        · rename_i ba ms hStep
          cases hExec
          have hLaunched : (s.party p).launched = true := by
            simp only [State.running,
              Bool.and_eq_true] at hRun
            exact hRun.2
          exact Or.inr ⟨p, ba, ms,
            .go p event ba ms hLaunched
              (partyStep_of_step hStep),
            rfl, publish_sent _ _ _ _ _⟩
        · cases hExec
      · cases hExec

/- A loop sends under the number of its party. -/
theorem LoopStep.id_eq
    {id : Fin n} {loop : Nat} {info info' : LoopInfo}
    {event : Event} {ms : List (BAMsg n)}
    (hStep : LoopStep id loop info event info' ms) :
    ∀ m ∈ ms, m.id = id := by
  intro m hm
  cases hStep <;>
    simp only [List.not_mem_nil, List.mem_singleton] at hm
  all_goals
    rw [hm]
    rfl

/- A party sends under its own number. -/
theorem PartyStep.id_eq
    {cfg : Config} {id : Fin n} {ba ba' : BA}
    {event : Event} {ms : List (BAMsg n)}
    (hStep : PartyStep cfg id ba event ba' ms) :
    ∀ m ∈ ms, m.id = id := by
  intro m hm
  cases hStep with
  | loop _ _ _ _ _ _ hLoopStep =>
      exact hLoopStep.id_eq m hm
  | finish value =>
      rw [List.mem_singleton] at hm
      rw [hm]
      rfl
  | _ => cases hm

/- A party only broadcasts under its own identity. -/
theorem Change.id_eq
    {cfg : Config} {s : State n} {a : Action n}
    {p : Fin n} {ba : BA} {ms : List (BAMsg n)}
    (hChange : Change cfg s a p ba ms) :
    ∀ m ∈ ms, m.id = p := by
  cases hChange with
  | go _ _ _ _ _ hStep => exact hStep.id_eq
  | _ => exact fun m hm => absurd hm List.not_mem_nil

/-
  The rule for invariants of one party against everything
  that has been sent: other parties only append messages of
  their own.
-/
theorem local_rule
    {cfg : Config} {ok : State n → Action n → Prop}
    (I : List (BAMsg n) → Fin n → BA → Prop)
    (hInit : ∀ p, I [] p BA.new)
    (hOther :
      ∀ sent p ba ms, I sent p ba →
        (∀ m ∈ ms, m.id ≠ p) → I (sent ++ ms) p ba)
    (hChange :
      ∀ s a p ba ms, (machine n cfg).ReachableBy ok s →
        (∀ q, I s.log.sent q (s.party q)) → ok s a →
          Change cfg s a p ba ms →
            I (s.log.sent ++ ms) p ba)
    {s : State n}
    (hReach : (machine n cfg).ReachableBy ok s) :
    ∀ p, I s.log.sent p (s.party p) := by
  induction hReach with
  | init => exact hInit
  | step hBefore hOk hExec ih =>
      rcases exec_change hExec with
        ⟨hParty, hSent, _⟩ | ⟨p, ba, ms, hStep, hParty, hSent⟩
      · rw [hParty, hSent]
        exact ih
      · intro q
        rw [hParty, hSent]
        by_cases hq : q = p
        · subst hq
          rw [Function.update_self]
          exact hChange _ _ _ _ _ hBefore ih hOk hStep
        · rw [Function.update_of_ne hq]
          apply hOther _ _ _ _ (ih q)
          intro m hm
          rw [hStep.id_eq m hm]
          exact fun hEq => hq hEq.symm

end BinaryAgreement

end Jumbo
