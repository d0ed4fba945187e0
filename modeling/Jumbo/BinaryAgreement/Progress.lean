import Mathlib.Data.Finset.Max
import Jumbo.BinaryAgreement.BiasedValidity
import Jumbo.BinaryAgreement.Delivery

/-
  When the binary agreement does not get stuck.

  A goroutine handles one message, or one signal, in one
  step. In a quiescent state every live party has counted all
  messages of its loop, so it stays in a phase only if the
  messages sent are too few. They are enough in the lowest
  loop of `2f + 1` undecided parties, and `f + 1` FINISH
  messages are enough for everyone; a party that decides and
  stops, or a value flag of the first loop that no quorum
  stands behind, can leave the others short of both.

  Main declarations:
    * `ownConfFresh`
    * `NotLeft`
    * `progress`
    * `stuck_after_decision`
-/

------------------------------------------------------------
-- Exact Counts of CONF Messages
------------------------------------------------------------

namespace Jumbo

namespace BinaryAgreement

open Protocol

variable {n : Nat}

/-
  A party counts its own CONF of the first loop while it
  still shows the values that were sent.
-/
def ownConfFresh (s : State n) : Action n → Bool
| .handle p i =>
    (s.log.sent[i]?).all fun m =>
      !(m.type = .conf && m.id = p && m.loop = 0) ||
        ((s.party p).loops 0).values = m.confValue
| _ => true

section Reachable

variable {cfg : Config} {ok : State n → Action n → Prop}
variable {s : State n}

/- Every CONF was sent with a value its sender still has. -/
theorem conf_sent_values
    (hReach : (machine n cfg).ReachableBy ok s)
    {m : BAMsg n}
    (hMem : m ∈ s.log.sent) (hType : m.type = .conf) :
    (∃ b, m.confValue.get b = true) ∧
      ∀ b, m.confValue.get b = true →
        ((s.party m.id).loops m.loop).values.get b =
          true := by
  have hSent := mem_confMsg hReach hMem hType
  have hParty := partySignals hReach m.id
  rcases hParty.ahead _ _ hSent with ⟨hLaunched, hLoop⟩
  exact ((hParty.loops hLaunched _ hLoop).confSent _
    hSent).2

/- The CONF messages for both values that are counted. -/
theorem confMixCount_eq
    (hReach : (machine n cfg).ReachableBy ok s)
    (p : Fin n) (loop : Nat) :
    ((s.party p).loops loop).confMixCount =
      s.log.tally p .handled (isConfMix loop) := by
  refine loop_counter_rule p loop
    (fun counts => counts.confMixCount) (isConfMix loop)
    (fun x y => x = y) rfl ?_ ?_ hReach
  · rintro m (hLoop | hType)
    · simp [isConfMix, hLoop]
    · simp [isConfMix, hType]
  · intro s i m t hBefore _ hMsg hLoop _ hCount
    rw [← hCount]
    cases hType : m.type <;>
      simp only [loopReceive, hType, handleVal_counts,
        handleAux_counts, handleConf_counts]
    · simp [isConfMix, hType, LoopInfo.counts]
    · simp [isConfMix, hType, LoopInfo.counts]
    · rcases conf_sent_values hBefore
        (List.mem_of_getElem? hMsg) hType with
        ⟨⟨b, hb⟩, hSub⟩
      have hShown :
          confValueAt p ((s.party p).loops loop) m ≠
            ⟨false, false⟩ := by
        unfold confValueAt
        split
        · rename_i hId
          intro hEmpty
          have hOwn := hSub b hb
          rw [hId, hLoop, hEmpty] at hOwn
          cases b <;> cases hOwn
        · intro hEmpty
          rw [hEmpty] at hb
          cases b <;> cases hb
      rw [if_neg hShown]
      simp [isConfMix, hType, hLoop, LoopInfo.counts]
    · simp [isConfMix, hType, LoopInfo.counts]

/- In the first loop, under the condition on own copies. -/
theorem confCount_first
    (hReach :
      (machine n cfg).ReachableBy
        (fun s a => ownConfFresh s a = true) s)
    (p : Fin n) (b : Bool) :
    ((s.party p).loops 0).confCount b =
      s.log.tally p .handled (isConf 0 b) := by
  refine loop_counter_rule p 0
    (fun counts => counts.confCount b) (isConf 0 b)
    (fun x y => x = y) rfl ?_ ?_ hReach
  · rintro m (hLoop | hType)
    · simp [isConf, hLoop]
    · simp [isConf, hType]
  · intro s i m t hBefore hOk hMsg hLoop _ hCount
    rw [← hCount]
    cases hType : m.type <;>
      simp only [loopReceive, hType, handleVal_counts,
        handleAux_counts, handleConf_counts]
    · simp [isConf, hType, LoopInfo.counts]
    · simp [isConf, hType, LoopInfo.counts]
    · have hShown :
          confValueAt p ((s.party p).loops 0) m =
            m.confValue := by
        unfold confValueAt
        split
        · rename_i hId
          simpa [ownConfFresh, hMsg, hType, hId, hLoop]
            using hOk
        · rfl
      rw [hShown]
      simp [isConf, hType, hLoop, LoopInfo.counts]
    · simp [isConf, hType, LoopInfo.counts]

/- The start of a loop takes no value back. -/
theorem startLoop_values_le
    {ba : BA} (hUntouched : Untouched ba)
    (loop loop' : Nat) (input : Bool)
    (hNew : ba.launched = true → ba.loop < loop) :
    ValuesLe (ba.loops loop')
      ((ba.startLoop loop input).loops loop') := by
  by_cases hEq : loop' = loop
  · subst hEq
    rcases hUntouched loop' hNew with ⟨old, hOld⟩
    rw [hOld]
    intro b hb
    cases b <;> cases hb
  · simpa [BA.startLoop, Function.update_of_ne hEq]
      using ValuesLe.rfl

/- No step takes a value flag back. -/
theorem PartyStep.values_le
    {id : Fin n} {ba ba' : BA} {event : Event}
    {ms : List (BAMsg n)}
    (hStep : PartyStep cfg id ba event ba' ms)
    (hUntouched : Untouched ba) (loop : Nat) :
    ValuesLe (ba.loops loop) (ba'.loops loop) := by
  have hSet :
      ∀ loop' info, ValuesLe (ba.loops loop') info →
        ValuesLe (ba.loops loop)
          ((ba.setLoop loop' info).loops loop) := by
    intro loop' info hLe
    by_cases hEq : loop = loop'
    · subst hEq
      rw [BA.setLoop_self]
      exact hLe
    · rw [BA.setLoop_of_ne _ _ hEq]
      exact .rfl
  cases hStep with
  | loop loop' event info ms second hLoop hLoopStep =>
      exact hSet loop' info hLoopStep.values_le
  | finish value rest hSignal => exact .rfl
  | elect hMain =>
      rcases elect_cases cfg ba with
        ⟨value, hEq⟩ | ⟨input, hEq⟩
      · rw [hEq]
        exact .rfl
      · rw [hEq]
        exact startLoop_values_le hUntouched _ _ _
          fun _ => Nat.lt_succ_self _
  | mainConf flags signal info hMain hTake
  | mainConfReady flags signal info hMain hTake =>
      have hValues := (takeConf_same hTake).1
      apply hSet ba.loop
      intro b hb
      rw [hValues]
      exact hb
  | mainCoin flags signal info hMain hTake
  | mainCoinReady flags signal info hMain hTake =>
      have hValues := (takeCoin_same hTake).1
      apply hSet ba.loop
      intro b hb
      rw [hValues]
      exact hb

/- Nor does a message. -/
theorem receive_values_le
    {id : Fin n} {ba ba' : BA} {m : BAMsg n}
    (hReceive : ba.receive id m = some ba') (loop : Nat) :
    ValuesLe (ba.loops loop) (ba'.loops loop) := by
  rcases receive_cases hReceive with
    ⟨_, _, hEq⟩ | ⟨_, _, hEq⟩
  · rw [hEq]
    by_cases hLoop : loop = m.loop
    · subst hLoop
      rw [BA.setLoop_self]
      exact loopReceive_values_le _ _ _
    · rw [BA.setLoop_of_ne _ _ hLoop]
      exact .rfl
  · rw [hEq, handleFinish_loops]
    exact .rfl

/-
  A party with a single value has counted every CONF as it
  was sent: its own copy shows that value as well.
-/
theorem confCount_single
    (hReach : (machine n cfg).ReachableBy ok s)
    (p : Fin n) (loop : Nat) (b : Bool)
    (hSingle :
      ∃ c, ((s.party p).loops loop).values.get c = false) :
    s.log.tally p .handled (isConf loop b) ≤
      ((s.party p).loops loop).confCount b := by
  refine tally_rule p (isConf loop b)
    (fun ba t =>
      (∃ c, (ba.loops loop).values.get c = false) →
        t ≤ (ba.loops loop).counts.confCount b)
    (fun _ => Nat.zero_le _) ?_ ?_ hReach hSingle
  · intro s a ba ms t hBefore hChange hNot hOld hAfter
    have hUntouched := untouched hBefore p
    have hKeep :
        ValuesLe ((s.party p).loops loop) (ba.loops loop) →
          (ba.loops loop).counts =
            ((s.party p).loops loop).counts →
            t ≤ (ba.loops loop).counts.confCount b := by
      intro hLe hCounts
      rcases hAfter with ⟨c, hc⟩
      rw [hCounts]
      apply hOld
      refine ⟨c, Bool.eq_false_iff.mpr fun hSet => ?_⟩
      rw [hLe c hSet] at hc
      cases hc
    cases hChange with
    | launch _ input hIdle =>
        have hNew :
            (s.party p).launched = true →
              (s.party p).loop < 0 := by
          intro hLaunched
          rw [hIdle] at hLaunched
          cases hLaunched
        exact hKeep
          (startLoop_values_le hUntouched 0 loop input hNew)
          (startLoop_counts hUntouched 0 loop input hNew)
    | second => exact hKeep .rfl rfl
    | handle _ i => exact absurd rfl (hNot i)
    | go _ event _ _ _ hStep =>
        exact hKeep (hStep.values_le hUntouched loop)
          (hStep.counts_eq hUntouched loop)
  · intro s i m ba t hBefore _ hMsg _ hReceive hOld hAfter
    rcases hAfter with ⟨c, hc⟩
    have hSingle :
        ((s.party p).loops loop).values.get c = false := by
      refine Bool.eq_false_iff.mpr fun hSet => ?_
      rw [receive_values_le hReceive loop c hSet] at hc
      cases hc
    have hCount := hOld ⟨c, hSingle⟩
    rcases receive_cases hReceive with
      ⟨hType, _, hEq⟩ | ⟨hType, _, hEq⟩
    · by_cases hLoop : m.loop = loop
      · subst hLoop
        rw [hEq, BA.setLoop_self]
        cases hKind : m.type with
        | val =>
            simp only [loopReceive, hKind, handleVal_counts]
            simpa [isConf, hKind] using hCount
        | aux =>
            simp only [loopReceive, hKind, handleAux_counts]
            simpa [isConf, hKind] using hCount
        | finish => exact absurd hKind hType
        | conf =>
            have hMem := List.mem_of_getElem? hMsg
            have hShown :
                m.confValue = Values.only b →
                  confValueAt p
                      ((s.party p).loops m.loop) m =
                    Values.only b := by
              intro hSent
              unfold confValueAt
              split
              · rename_i hId
                have hOwn :=
                  (conf_sent_values hBefore hMem hKind).2 b
                    (by rw [hSent]; simp)
                rw [hId] at hOwn
                apply Values.ext_get
                intro d
                rw [Values.get_only]
                by_cases hd : d = c
                · subst hd
                  rw [hSingle]
                  have hNe : b ≠ d := by
                    intro hbd
                    rw [hbd, hSingle] at hOwn
                    cases hOwn
                  simp [hNe]
                · have hbd : b = d := by
                    have hbc : b ≠ c := by
                      intro hEqbc
                      rw [hEqbc, hSingle] at hOwn
                      cases hOwn
                    rw [Bool.eq_not_of_ne hbc,
                      Bool.eq_not_of_ne hd]
                  rw [← hbd, hOwn]
                  simp
              · exact hSent
            simp only [loopReceive, hKind, handleConf_counts]
            by_cases hSent : m.confValue = Values.only b
            · rw [if_pos (hShown hSent)]
              simpa [isConf, hKind, hSent, LoopInfo.counts]
                using hCount
            · have hNot : isConf m.loop b m = false := by
                simp [isConf, hSent]
              rw [hNot]
              exact Nat.le_add_right_of_le hCount
      · rw [hEq, BA.setLoop_of_ne _ _ (Ne.symm hLoop)]
        simpa [isConf, hLoop] using hCount
    · rw [hEq, handleFinish_loops]
      simpa [isConf, hType] using hCount

end Reachable

end BinaryAgreement

end Jumbo

------------------------------------------------------------
-- Quiescent States Without Output
------------------------------------------------------------

namespace Jumbo

namespace BinaryAgreement

open Protocol

variable {n : Nat}

/- Live parties that still take part in their loop. -/
def undecided (s : State n) : Finset (Fin n) :=
  Finset.univ.filter fun p =>
    s.crashed p = false ∧ (s.party p).main.isDecided = false

/- The parties that have crashed. -/
def crashedSet (s : State n) : Finset (Fin n) :=
  Finset.univ.filter fun p => s.crashed p = true

/-
  Nothing can happen any more and nobody has an output: the
  situation that the conditions below exclude.
-/
structure Still (cfg : Config) (s : State n) : Prop where
  someFault : 0 < faults n
  reach :
    (machine n cfg).ReachableBy
      (fun s a => ownConfFresh s a = true) s
  quiet : Quiescent cfg s
  launched :
    ∀ p, s.crashed p = false →
      (s.party p).launched = true
  noOutput : ∀ p, (s.party p).output = none

namespace Still

variable {cfg : Config} {s : State n} {p : Fin n}

/- A live party has no step left. -/
theorem halted
    (hStill : Still cfg s) (hAlive : s.crashed p = false) :
    Halted (s.party p) :=
  halted_of_step_none
    (hStill.quiet.step_none hAlive
      (hStill.launched p hAlive) (hStill.noOutput p))

/- Every party has sent what it owes. -/
theorem duties
    (hStill : Still cfg s) (p : Fin n) :
    PartyDuties s.log.sent p (s.party p) :=
  partyDuties hStill.someFault hStill.reach p

/- A live party has counted what was sent for its loop. -/
theorem tally_eq
    (hStill : Still cfg s) (hAlive : s.crashed p = false)
    {P : BAMsg n → Bool}
    (hKind :
      ∀ m, P m = true →
        m.type = .finish ∨ m.loop = (s.party p).loop) :
    s.log.tally p .handled P = s.log.total P := by
  apply BroadcastLog.tally_eq_total
  intro i m hMsg hP
  exact hStill.quiet.handled hStill.reach hAlive
    (hStill.launched p hAlive) (hStill.noOutput p) hMsg
    (hKind m hP)

/- All VAL messages of the loop are counted. -/
theorem vCount
    (hStill : Still cfg s) (hAlive : s.crashed p = false)
    (b : Bool) :
    (s.party p).info.vCount b =
      s.log.total (isVal (s.party p).loop b) := by
  rw [BA.info, vCount_eq hStill.reach]
  apply hStill.tally_eq hAlive
  intro m hm
  simp only [isVal, Bool.and_eq_true,
    decide_eq_true_eq] at hm
  exact Or.inr hm.1.2

/- So are all AUX messages for one value. -/
theorem auxCount
    (hStill : Still cfg s) (hAlive : s.crashed p = false)
    (b : Bool) :
    (s.party p).info.auxCount b =
      s.log.total (isAux (s.party p).loop b) := by
  rw [BA.info, auxCount_eq hStill.reach]
  apply hStill.tally_eq hAlive
  intro m hm
  simp only [isAux, Bool.and_eq_true,
    decide_eq_true_eq] at hm
  exact Or.inr hm.1.2

/- So are all AUX messages. -/
theorem auxMixCount
    (hStill : Still cfg s)
    (hAlive : s.crashed p = false) :
    (s.party p).info.auxMixCount =
      s.log.total (isAuxMix (s.party p).loop) := by
  rw [BA.info, auxMixCount_eq hStill.reach]
  apply hStill.tally_eq hAlive
  intro m hm
  simp only [isAuxMix, Bool.and_eq_true,
    decide_eq_true_eq] at hm
  exact Or.inr hm.2

/- So are all CONF messages. -/
theorem confMixCount
    (hStill : Still cfg s)
    (hAlive : s.crashed p = false) :
    (s.party p).info.confMixCount =
      s.log.total (isConfMix (s.party p).loop) := by
  rw [BA.info, confMixCount_eq hStill.reach]
  apply hStill.tally_eq hAlive
  intro m hm
  simp only [isConfMix, Bool.and_eq_true,
    decide_eq_true_eq] at hm
  exact Or.inr hm.2

/- So are the CONF messages for one value. -/
theorem confCount
    (hStill : Still cfg s) (hAlive : s.crashed p = false)
    (b : Bool)
    (hExact :
      (s.party p).loop = 0 ∨
        ∃ c, (s.party p).info.values.get c = false) :
    s.log.total (isConf (s.party p).loop b) ≤
      (s.party p).info.confCount b := by
  have hTally :
      s.log.tally p .handled (isConf (s.party p).loop b) =
        s.log.total (isConf (s.party p).loop b) := by
    apply hStill.tally_eq hAlive
    intro m hm
    simp only [isConf, Bool.and_eq_true,
      decide_eq_true_eq] at hm
    exact Or.inr hm.1.2
  rw [← hTally, BA.info]
  rcases hExact with hFirst | hSingle
  · rw [hFirst, confCount_first hStill.reach]
  · exact confCount_single hStill.reach p _ b hSingle

/- So are all FINISH messages. -/
theorem finishCount
    (hStill : Still cfg s) (hAlive : s.crashed p = false)
    (b : Bool) :
    (s.party p).finishCount b =
      s.log.total (isFinish b) := by
  rw [finishCount_eq hStill.reach]
  apply hStill.tally_eq hAlive
  intro m hm
  simp only [isFinish, Bool.and_eq_true,
    decide_eq_true_eq] at hm
  exact Or.inl hm.1

/- A VAL that is due has been broadcast. -/
theorem val_sent
    (hStill : Still cfg s) (hAlive : s.crashed p = false)
    {b : Bool}
    (hDue : ValDue (s.party p).info b) :
    BA.valMsg p (s.party p).loop b ∈ s.log.sent := by
  have hLoop :=
    (hStill.duties p).loops (hStill.launched p hAlive)
      (s.party p).loop (Nat.le_refl _)
  rcases (hStill.halted hAlive).val _ (Nat.le_refl _) with
    ⟨_, hEmpty | hBoth⟩
  · rcases hDue with hMem | hDone
    · rw [BA.info, hEmpty] at hMem
      cases hMem
    · exact hLoop.valSent b hDone
  · exact hLoop.valSent b (Or.inl (hBoth b))

/- An AUX that is due has been sent. -/
theorem aux_sent
    (hStill : Still cfg s) (hAlive : s.crashed p = false)
    {b : Bool}
    (hDue : AuxDue (s.party p).info b) :
    BA.auxMsg p (s.party p).loop b ∈ s.log.sent := by
  have hLoop :=
    (hStill.duties p).loops (hStill.launched p hAlive)
      (s.party p).loop (Nat.le_refl _)
  rcases (hStill.halted hAlive).aux _ (Nat.le_refl _) with
    hEmpty | hBoth
  · rcases hDue with hMem | hDone
    · rw [BA.info, hEmpty] at hMem
      cases hMem
    · exact hLoop.auxSent b hDone
  · exact hLoop.auxSent b (hBoth b)

/- So has a CONF. -/
theorem conf_sent
    (hStill : Still cfg s) (hAlive : s.crashed p = false)
    (hConf : (s.party p).info.sendConf ≠ .none) :
    ∃ values,
      BA.confMsg p (s.party p).loop values ∈
        s.log.sent := by
  have hLoop :=
    (hStill.duties p).loops (hStill.launched p hAlive)
      (s.party p).loop (Nat.le_refl _)
  have hNot :=
    (hStill.halted hAlive).conf _ (Nat.le_refl _)
  apply hLoop.confDone
  cases hState : (s.party p).info.sendConf with
  | none => exact absurd hState hConf
  | pending => exact absurd hState hNot
  | done => exact hState

end Still

end BinaryAgreement

end Jumbo

------------------------------------------------------------
-- FINISH Messages Reach Everyone
------------------------------------------------------------

namespace Jumbo

namespace BinaryAgreement

open Protocol

variable {n f : Nat} {cfg : Config} {s : State n}

/- Parties outside the crashed ones number `2f + 1`. -/
theorem card_alive
    (hN : n = 3 * f + 1)
    (hCrashed : (crashedSet s).card ≤ f) :
    f * 2 + 1 ≤ (crashedSet s)ᶜ.card := by
  have hCompl := card_compl_eq (crashedSet s)
  rw [Fintype.card_fin] at hCompl
  omega

/- The parties that have not crashed are live. -/
theorem alive_iff (p : Fin n) :
    p ∈ (crashedSet s)ᶜ ↔ s.crashed p = false := by
  simp [crashedSet]

/- A set of senders bounds what was sent from below. -/
theorem card_le_total
    (log : BroadcastLog n (BAMsg n) Loc)
    {A : Finset (Fin n)} {P : BAMsg n → Bool}
    (hSent :
      ∀ p ∈ A, ∃ m ∈ log.sent, P m = true ∧ m.id = p) :
    A.card ≤ log.total P := by
  have hSub : A ⊆ log.senders BAMsg.id P := by
    intro p hp
    rw [BroadcastLog.mem_senders_iff]
    exact hSent p hp
  exact (Finset.card_le_card hSub).trans
    (log.card_senders_le_total BAMsg.id P)

/- A positive total has a message behind it. -/
theorem exists_of_total_pos
    (log : BroadcastLog n (BAMsg n) Loc)
    {P : BAMsg n → Bool}
    (hPos : 0 < log.total P) :
    ∃ m ∈ log.sent, P m = true := by
  rcases Finset.card_pos.mp hPos with ⟨i, hi⟩
  rw [BroadcastLog.mem_positions_iff] at hi
  rcases hi with ⟨m, hm, hP⟩
  exact ⟨m, List.mem_of_getElem? hm, hP⟩

/- A FINISH goes back to a decision. -/
theorem finish_decided
    {ok : State n → Action n → Prop}
    (hReach : (machine n cfg).ReachableBy ok s)
    {m : BAMsg n} {b : Bool}
    (hMem : m ∈ s.log.sent) (hFinish : isFinish b m = true) :
    Decided cfg s.log.sent b := by
  simp only [isFinish, Bool.and_eq_true, decide_eq_true_eq,
    beq_iff_eq] at hFinish
  have hParty := partyEstimates hReach m.id
  rw [hFinish.2]
  exact (hParty.messages m hMem rfl).finish hFinish.1

/-
  Where nobody has an output, fewer than `f + 1` FINISH
  messages have been sent: that many make every live party
  send its own, and these make every live party output.
-/
theorem Still.finish_total
    (hStill : Still cfg s)
    (hN : n = 3 * f + 1)
    (hCrashed : (crashedSet s).card ≤ f)
    (b : Bool) :
    s.log.total (isFinish b) ≤ f := by
  by_contra hMany
  have hFaults : faults n = f := by
    subst hN
    exact faults_eq f
  have hDecided : Decided cfg s.log.sent b := by
    have hPos : 0 < s.log.total (isFinish b) := by omega
    rcases exists_of_total_pos s.log hPos with
      ⟨m, hMem, hFinish⟩
    exact finish_decided hStill.reach hMem hFinish
  have hEveryone :
      ∀ p ∈ (crashedSet s)ᶜ,
        ∃ m ∈ s.log.sent,
          isFinish b m = true ∧ m.id = p := by
    intro p hp
    have hAlive := (alive_iff p).mp hp
    have hFinish := (hStill.duties p).finish
    have hCount := hStill.finishCount hAlive b
    have hSent :
        ∃ c, BA.finishMsg p c ∈ s.log.sent := by
      rcases hFinish.amplify b (by omega) with hMem | hMem
      · rcases (hStill.halted hAlive).finish with
          hEmpty | hToken
        · rw [hEmpty] at hMem
          cases hMem
        · rcases hFinish.token (hStill.launched p hAlive)
            with hPos | hSent
          · omega
          · exact hSent
      · exact ⟨b, hMem⟩
    rcases hSent with ⟨c, hMem⟩
    have hC : Decided cfg s.log.sent c :=
      finish_decided hStill.reach hMem
        (by simp [isFinish, BA.finishMsg])
    have hEq := decided_unique hN hStill.reach hDecided hC
    subst hEq
    exact ⟨_, hMem, by simp [isFinish, BA.finishMsg], rfl⟩
  have hTotal := card_le_total s.log hEveryone
  have hAliveCard := card_alive hN hCrashed
  have hSome : (crashedSet s)ᶜ.Nonempty := by
    apply Finset.card_pos.mp
    omega
  rcases hSome with ⟨p, hp⟩
  have hAlive := (alive_iff p).mp hp
  have hBound :=
    (hStill.duties p).finish.outputNone
      (hStill.noOutput p) b
  rw [hStill.finishCount hAlive b] at hBound
  omega

end BinaryAgreement

end Jumbo

------------------------------------------------------------
-- Undecided Parties Catch Up
------------------------------------------------------------

namespace Jumbo

namespace BinaryAgreement

open Protocol

variable {n f : Nat} {cfg : Config} {s : State n}

/- The messages sent for a loop end its first phase. -/
def ConfReady (s : State n) (loop : Nat) : Prop :=
  Passed (faults n * 2 + 1)
    (fun b => s.log.total (isVal loop b))
    (fun b => s.log.total (isAux loop b))
    (s.log.total (isAuxMix loop))

/- They also end the phase before the coin. -/
def CoinReady (s : State n) (loop : Nat) : Prop :=
  Passed (faults n * 2 + 1)
    (fun b => s.log.total (isVal loop b))
    (fun b => s.log.total (isConf loop b))
    (s.log.total (isConfMix loop))

/- A party that was able to end a phase had enough of them. -/
theorem confReady_of_passed
    {ok : State n → Action n → Prop}
    (hReach : (machine n cfg).ReachableBy ok s)
    {p : Fin n} {loop : Nat}
    (hPassed :
      ConfPassed n ((s.party p).loops loop).counts) :
    ConfReady s loop := by
  apply Passed.mono hPassed
  · intro b
    exact (vCount_eq hReach p loop b).le.trans
      (s.log.tally_le_total _ _ _)
  · intro b
    exact (auxCount_eq hReach p loop b).le.trans
      (s.log.tally_le_total _ _ _)
  · exact (auxMixCount_eq hReach p loop).le.trans
      (s.log.tally_le_total _ _ _)

/- A party that has passed a loop has seen its coin. -/
theorem coinReady_of_passed
    {ok : State n → Action n → Prop}
    (hReach : (machine n cfg).ReachableBy ok s)
    {p : Fin n} {loop : Nat}
    (hPassed :
      CoinPassed n ((s.party p).loops loop).counts) :
    CoinReady s loop := by
  apply Passed.mono hPassed
  · intro b
    exact (vCount_eq hReach p loop b).le.trans
      (s.log.tally_le_total _ _ _)
  · intro b
    have hOwn :=
      confCount_le hReach p loop b (by
        intro t i m hBefore _ hMsg hType hId hLoop hValues
        subst hLoop
        exact own_conf_only hBefore
          (List.mem_of_getElem? hMsg) hType hId hValues)
    exact hOwn.trans (s.log.tally_le_total _ _ _)
  · exact (confMixCount_eq hReach p loop).le.trans
      (s.log.tally_le_total _ _ _)

namespace Still

variable {p : Fin n}

/- Such a party is not waiting before `sendconf`. -/
theorem main_ne_conf
    (hStill : Still cfg s) (hAlive : s.crashed p = false)
    (hReady : ConfReady s (s.party p).loop)
    (flags : Flags) :
    (s.party p).main ≠ .conf flags := by
  intro hMain
  have hDuties := (hStill.duties p).main
  rw [hMain] at hDuties
  rcases hDuties with ⟨hHeard, hNot, _⟩
  have hTake := (hStill.halted hAlive).mainConf flags hMain
  apply hNot
  apply hHeard.ready
  · intro b
    have hNone := hTake (.value b)
    simpa [LoopInfo.takeConf] using hNone
  · intro b
    have hNone := hTake (.quorum b)
    simpa [LoopInfo.takeConf] using hNone
  · have hNone := hTake .mix
    simpa [LoopInfo.takeConf] using hNone
  · apply Passed.mono hReady
    · exact fun b => (hStill.vCount hAlive b).ge
    · exact fun b => (hStill.auxCount hAlive b).ge
    · exact (hStill.auxMixCount hAlive).ge

/- Nor before the coin. -/
theorem main_ne_coin
    (hStill : Still cfg s) (hAlive : s.crashed p = false)
    (hReady : CoinReady s (s.party p).loop)
    (flags : Flags) :
    (s.party p).main ≠ .coin flags := by
  intro hMain
  have hDuties := (hStill.duties p).main
  rw [hMain] at hDuties
  rcases hDuties with ⟨_, _, hHeard, hNot⟩
  have hTake := (hStill.halted hAlive).mainCoin flags hMain
  have hLoop :=
    (hStill.duties p).loops (hStill.launched p hAlive)
      (s.party p).loop (Nat.le_refl _)
  apply hNot
  apply hHeard.ready
  · intro b
    have hNone := hTake (.value b)
    simpa [LoopInfo.takeCoin] using hNone
  · intro b
    have hNone := hTake (.quorum b)
    simpa [LoopInfo.takeCoin] using hNone
  · have hNone := hTake .mix
    simpa [LoopInfo.takeCoin] using hNone
  · by_cases hExact :
        (s.party p).loop = 0 ∨
          ∃ c, (s.party p).info.values.get c = false
    · apply Passed.mono hReady
      · exact fun b => (hStill.vCount hAlive b).ge
      · exact fun b => hStill.confCount hAlive b hExact
      · exact (hStill.confMixCount hAlive).ge
    -- with both values later, both have their quorums
    · push Not at hExact
      right
      refine ⟨?_, ?_⟩
      · intro b
        rcases hLoop.justified b
          (by simpa [BA.info] using hExact.2 b) with
          hCount | ⟨hFirst, _⟩
        · exact hCount
        · exact absurd hFirst hExact.1
      · rw [hStill.confMixCount hAlive]
        rcases hReady with ⟨b, _, hConf⟩ | ⟨_, hMix⟩
        · apply hConf.trans
          apply BroadcastLog.total_mono
          intro m hm
          simp only [isConf, isConfMix,
            Bool.and_eq_true] at hm ⊢
          exact hm.1
        · exact hMix

/- So it cannot be undecided once both phases can end. -/
theorem not_ready
    (hStill : Still cfg s)
    (hp : p ∈ undecided s)
    (hConf : ConfReady s (s.party p).loop)
    (hCoin : CoinReady s (s.party p).loop) :
    False := by
  rcases Finset.mem_filter.mp hp with ⟨_, hAlive, hMain⟩
  cases hState : (s.party p).main with
  | idle =>
      have hLaunched := hStill.launched p hAlive
      rw [BA.launched, hState] at hLaunched
      cases hLaunched
  | conf flags =>
      exact hStill.main_ne_conf hAlive hConf flags hState
  | coin flags =>
      exact hStill.main_ne_coin hAlive hCoin flags hState
  | elect => exact (hStill.halted hAlive).mainElect hState
  | decided b =>
      rw [hState] at hMain
      cases hMain

end Still

end BinaryAgreement

end Jumbo

------------------------------------------------------------
-- Enough Parties in the Lowest Loop
------------------------------------------------------------

namespace Jumbo

namespace BinaryAgreement

open Protocol

variable {n f : Nat} {cfg : Config} {s : State n}

/- Undecided parties without the true flag of loop zero. -/
def unflagged (s : State n) : Finset (Fin n) :=
  (undecided s).filter fun p =>
    ((s.party p).loops 0).values.one = false

/-
  What the first loop needs beyond the later ones, where no
  flag is set ahead of its quorum.
-/
def FirstLoop (f : Nat) (s : State n) : Prop :=
  (∃ p, 1 ≤ (s.party p).loop ∨
    (s.party p).main.isDecided = true) ∨
    f + 1 ≤ s.log.total (isVal 0 true) ∨
      f * 2 + 1 ≤ (unflagged s).card

/- All undecided parties are in loop `loop`. -/
def Together (s : State n) (loop : Nat) : Prop :=
  ∀ p ∈ undecided s, (s.party p).loop = loop

/- An undecided party is live. -/
theorem undecided_alive
    {p : Fin n} (hp : p ∈ undecided s) :
    s.crashed p = false :=
  (Finset.mem_filter.mp hp).2.1

namespace Still

variable {p : Fin n} {loop : Nat}

/- `f + 1` VAL messages become `2f + 1`. -/
theorem val_relay
    (hStill : Still cfg s)
    (hMany : faults n * 2 + 1 ≤ (undecided s).card)
    (hTogether : Together s loop) {b : Bool}
    (hSome : faults n + 1 ≤ s.log.total (isVal loop b)) :
    faults n * 2 + 1 ≤ s.log.total (isVal loop b) := by
  apply hMany.trans
  apply card_le_total
  intro p hp
  have hAlive := undecided_alive hp
  have hLoop := hTogether p hp
  have hDue : ValDue (s.party p).info b := by
    apply ((hStill.duties p).loops
      (hStill.launched p hAlive) _ (Nat.le_refl _)).relay
    have hCount := hStill.vCount hAlive b
    rw [hLoop] at hCount
    exact hSome.trans hCount.ge
  have hSent := hStill.val_sent hAlive hDue
  rw [hLoop] at hSent
  exact ⟨_, hSent, by simp [isVal, BA.valMsg], rfl⟩

/- One of the two inputs is that frequent. -/
theorem exists_val_quorum
    (hStill : Still cfg s)
    (hMany : faults n * 2 + 1 ≤ (undecided s).card)
    (hTogether : Together s loop) :
    ∃ b, faults n * 2 + 1 ≤
      s.log.total (isVal loop b) := by
  have hInput :
      ∀ b, ((undecided s).filter fun p =>
          (s.party p).info.input = b).card ≤
        s.log.total (isVal loop b) := by
    intro b
    apply card_le_total
    intro p hp
    rcases Finset.mem_filter.mp hp with ⟨hp, hIn⟩
    have hAlive := undecided_alive hp
    have hDue := ((hStill.duties p).loops
      (hStill.launched p hAlive) _ (Nat.le_refl _)).input
    have hSent := hStill.val_sent hAlive hDue
    rw [← BA.info, hIn, hTogether p hp] at hSent
    exact ⟨_, hSent, by simp [isVal, BA.valMsg], rfl⟩
  have hSplit :=
    Finset.card_filter_add_card_filter_not
      (s := undecided s)
      fun p => (s.party p).info.input = true
  have hFalse := hInput false
  have hTrue := hInput true
  simp only [Bool.not_eq_true] at hSplit
  by_cases hMore :
      faults n + 1 ≤ s.log.total (isVal loop true)
  · exact ⟨true, hStill.val_relay hMany hTogether hMore⟩
  · refine ⟨false, hStill.val_relay hMany hTogether ?_⟩
    omega

/- Every undecided party has sent an AUX with a quorum. -/
theorem aux_of_quorum
    (hStill : Still cfg s)
    (hTogether : Together s loop) {b : Bool}
    (hQuorum :
      faults n * 2 + 1 ≤ s.log.total (isVal loop b))
    (hp : p ∈ undecided s) :
    ∃ c, faults n * 2 + 1 ≤ s.log.total (isVal loop c) ∧
      BA.auxMsg p loop c ∈ s.log.sent := by
  have hAlive := undecided_alive hp
  have hLoop := hTogether p hp
  have hDuties := (hStill.duties p).loops
    (hStill.launched p hAlive) _ (Nat.le_refl _)
  have hFlag : (s.party p).info.isAuxSent = true := by
    apply hDuties.aux b
    have hCount := hStill.vCount hAlive b
    rw [hLoop] at hCount
    exact hQuorum.trans hCount.ge
  rcases hDuties.auxDue hFlag with ⟨c, hCount, hDue⟩
  have hSent := hStill.aux_sent hAlive hDue
  have hTotal := hStill.vCount hAlive c
  rw [hLoop] at hSent hTotal
  exact ⟨c, hCount.trans hTotal.le, hSent⟩

/- So the phase before `sendconf` can end. -/
theorem confReady_together
    (hStill : Still cfg s)
    (hMany : faults n * 2 + 1 ≤ (undecided s).card)
    (hTogether : Together s loop) :
    ConfReady s loop := by
  rcases hStill.exists_val_quorum hMany hTogether with
    ⟨b, hQuorum⟩
  by_cases hOther :
      faults n * 2 + 1 ≤ s.log.total (isVal loop (!b))
  · right
    refine ⟨?_, ?_⟩
    · intro c
      by_cases hc : c = b
      · rw [hc]
        exact hQuorum
      · rw [Bool.eq_not_of_ne hc]
        exact hOther
    · apply hMany.trans
      apply card_le_total
      intro p hp
      rcases hStill.aux_of_quorum hTogether hQuorum hp with
        ⟨c, _, hSent⟩
      exact ⟨_, hSent, by simp [isAuxMix, BA.auxMsg], rfl⟩
  · left
    refine ⟨b, hQuorum, ?_⟩
    apply hMany.trans
    apply card_le_total
    intro p hp
    rcases hStill.aux_of_quorum hTogether hQuorum hp with
      ⟨c, hc, hSent⟩
    have hSame : c = b := by
      by_contra hNe
      rw [Bool.eq_not_of_ne hNe] at hc
      exact hOther hc
    subst hSame
    exact ⟨_, hSent, by simp [isAux, BA.auxMsg], rfl⟩

/- All undecided parties wait before the coin. -/
theorem main_coin
    (hStill : Still cfg s)
    (hReady : ConfReady s (s.party p).loop)
    (hp : p ∈ undecided s) :
    ∃ flags, (s.party p).main = .coin flags := by
  rcases Finset.mem_filter.mp hp with ⟨_, hAlive, hMain⟩
  cases hState : (s.party p).main with
  | idle =>
      have hLaunched := hStill.launched p hAlive
      rw [BA.launched, hState] at hLaunched
      cases hLaunched
  | conf flags =>
      exact absurd hState
        (hStill.main_ne_conf hAlive hReady flags)
  | coin flags => exact ⟨flags, rfl⟩
  | elect =>
      exact absurd hState (hStill.halted hAlive).mainElect
  | decided b =>
      rw [hState] at hMain
      cases hMain

/- Each of them has sent CONF with some of its values. -/
theorem conf_of_ready
    (hStill : Still cfg s)
    (hTogether : Together s loop)
    (hReady : ConfReady s loop)
    (hp : p ∈ undecided s) :
    ∃ values, BA.confMsg p loop values ∈ s.log.sent ∧
      (∃ b, values.get b = true) ∧
        ∀ b, values.get b = true →
          ((s.party p).loops loop).values.get b = true := by
  have hAlive := undecided_alive hp
  have hLoop := hTogether p hp
  have hCoin :
      ∃ flags, (s.party p).main = .coin flags := by
    apply hStill.main_coin _ hp
    rw [hLoop]
    exact hReady
  rcases hCoin with ⟨flags, hMain⟩
  have hDuties := (hStill.duties p).main
  rw [hMain] at hDuties
  rcases hStill.conf_sent hAlive hDuties.2.1 with
    ⟨values, hSent⟩
  rw [hLoop] at hSent
  have hValues := conf_sent_values hStill.reach hSent rfl
  exact ⟨values, hSent, hValues⟩

/- A value without a quorum is no CONF value of such a party. -/
theorem conf_only
    (hStill : Still cfg s)
    (hTogether : Together s loop)
    (hReady : ConfReady s loop)
    (hp : p ∈ undecided s) {b : Bool}
    (hOther :
      ((s.party p).loops loop).values.get (!b) = false) :
    ∃ m ∈ s.log.sent, isConf loop b m = true ∧ m.id = p := by
  rcases hStill.conf_of_ready hTogether hReady hp with
    ⟨values, hSent, ⟨c, hc⟩, hSub⟩
  have hNot : values.get (!b) = false := by
    refine Bool.eq_false_iff.mpr fun hSet => ?_
    rw [hSub _ hSet] at hOther
    cases hOther
  have hValues : values = Values.only b := by
    apply Values.ext_get
    intro d
    rw [Values.get_only]
    by_cases hd : d = b
    · subst hd
      by_cases hcd : c = d
      · rw [← hcd, hc]
        simp
      · rw [Bool.eq_not_of_ne hcd, hNot] at hc
        cases hc
    · rw [Bool.eq_not_of_ne hd, hNot]
      simp
  rw [hValues] at hSent
  exact ⟨_, hSent, by simp [isConf, BA.confMsg], rfl⟩

/- And then the phase before the coin can end as well. -/
theorem coinReady_together
    (hStill : Still cfg s)
    (hMany : faults n * 2 + 1 ≤ (undecided s).card)
    (hTogether : Together s loop)
    (hFirst :
      loop = 0 →
        faults n + 1 ≤ s.log.total (isVal 0 true) ∨
          faults n * 2 + 1 ≤ (unflagged s).card) :
    CoinReady s loop := by
  have hReady := hStill.confReady_together hMany hTogether
  rcases hStill.exists_val_quorum hMany hTogether with
    ⟨b, hQuorum⟩
  by_cases hOther :
      faults n * 2 + 1 ≤ s.log.total (isVal loop (!b))
  · right
    refine ⟨?_, ?_⟩
    · intro c
      by_cases hc : c = b
      · rw [hc]
        exact hQuorum
      · rw [Bool.eq_not_of_ne hc]
        exact hOther
    · apply hMany.trans
      apply card_le_total
      intro p hp
      rcases hStill.conf_of_ready hTogether hReady hp with
        ⟨values, hSent, _⟩
      exact ⟨_, hSent,
        by simp [isConfMix, BA.confMsg], rfl⟩
  · left
    refine ⟨b, hQuorum, ?_⟩
    by_cases hBias : loop = 0 ∧ b = false
    -- the flag of true may be set without its quorum
    · rcases hBias with ⟨rfl, rfl⟩
      rcases hFirst rfl with hVal | hUnflagged
      · exact absurd
          (hStill.val_relay hMany hTogether hVal) hOther
      · apply hUnflagged.trans
        apply card_le_total
        intro p hp
        rcases Finset.mem_filter.mp hp with ⟨hp, hFlag⟩
        exact hStill.conf_only hTogether hReady hp
          (b := false) hFlag
    · apply hMany.trans
      apply card_le_total
      intro p hp
      apply hStill.conf_only hTogether hReady hp
      refine Bool.eq_false_iff.mpr fun hSet => ?_
      have hAlive := undecided_alive hp
      have hLoop := hTogether p hp
      have hDuties := (hStill.duties p).loops
        (hStill.launched p hAlive) loop hLoop.ge
      rcases hDuties.justified _ hSet with
        hCount | ⟨hZero, hTrue⟩
      · have hTotal := hStill.vCount hAlive (!b)
        rw [BA.info, hLoop] at hTotal
        exact hOther (hCount.trans hTotal.le)
      · apply hBias
        refine ⟨hZero, ?_⟩
        cases b
        · rfl
        · cases hTrue

/-
  `2f + 1` undecided parties are not stuck: in their lowest
  loop either someone was able to go on, and the others can
  follow, or all of them are there and can go on together.
-/
theorem undecided_few
    (hStill : Still cfg s)
    (hFirst : FirstLoop (faults n) s) :
    (undecided s).card ≤ faults n * 2 := by
  by_contra hFew
  have hMany : faults n * 2 + 1 ≤ (undecided s).card := by
    omega
  have hSome : (undecided s).Nonempty :=
    Finset.card_pos.mp (by omega)
  rcases Finset.exists_min_image (undecided s)
    (fun p => (s.party p).loop) hSome with
    ⟨p, hp, hMin⟩
  -- a party past this loop leaves enough messages behind
  have hFollow :
      ∀ q, ConfPassed n
            ((s.party q).loops (s.party p).loop).counts →
          CoinPassed n
            ((s.party q).loops (s.party p).loop).counts →
            False := by
    intro q hConf hCoin
    exact hStill.not_ready hp
      (confReady_of_passed hStill.reach hConf)
      (coinReady_of_passed hStill.reach hCoin)
  have hBehind :
      ∀ q, (s.party q).loop ≤ (s.party p).loop := by
    intro q
    by_contra hLt
    have hPassed :=
      (hStill.duties q).earlier (s.party p).loop
        (Nat.lt_of_not_le hLt)
    exact hFollow q hPassed.1 hPassed.2
  have hTogether : Together s (s.party p).loop :=
    fun q hq => Nat.le_antisymm (hBehind q) (hMin q hq)
  apply hStill.not_ready hp
  · exact hStill.confReady_together hMany hTogether
  · apply hStill.coinReady_together hMany hTogether
    intro hZero
    rcases hFirst with ⟨q, hLeft⟩ | hRest
    · exfalso
      rcases hLeft with hLoop | hDecided
      · have hLe := hBehind q
        omega
      · have hLe := hBehind q
        have hMain := (hStill.duties q).main
        cases hState : (s.party q).main with
        | decided b =>
            rw [hState] at hMain
            have hSame :
                (s.party p).loop = (s.party q).loop := by
              omega
            apply hFollow q
            · rw [hSame]
              exact hMain.1
            · rw [hSame]
              exact hMain.2
        | _ =>
            rw [hState] at hDecided
            cases hDecided
    · exact hRest

end Still

end BinaryAgreement

end Jumbo

------------------------------------------------------------
-- The Condition for Progress
------------------------------------------------------------

namespace Jumbo

namespace BinaryAgreement

open Protocol

variable {n f : Nat} {cfg : Config} {s : State n}

/-
  Nobody is left behind: `f + 1` FINISH messages were sent,
  or `2f + 1` live parties still take part and the first loop
  is not held up by a flag without a quorum.
-/
def NotLeft (f : Nat) (s : State n) : Prop :=
  (∃ b, f + 1 ≤ s.log.total (isFinish b)) ∨
    (f * 2 + 1 ≤ (undecided s).card ∧ FirstLoop f s)

/- One output makes every live party output. -/
theorem output_of_output
    {ok : State n → Action n → Prop}
    (hFaults : 0 < faults n)
    (hReach : (machine n cfg).ReachableBy ok s)
    (hQuiet : Quiescent cfg s)
    (hLaunched :
      ∀ p, s.crashed p = false →
        (s.party p).launched = true)
    {p q : Fin n} {b : Bool}
    (hOutput : (s.party q).output = some b)
    (hAlive : s.crashed p = false) :
    (s.party p).output ≠ none := by
  intro hNone
  have hMany :=
    (partyDuties hFaults hReach q).finish.outputSome b
      hOutput
  have hFew :=
    (partyDuties hFaults hReach p).finish.outputNone
      hNone b
  rw [finishCount_eq hReach] at hMany hFew
  have hAll :
      s.log.tally p .handled (isFinish b) =
        s.log.total (isFinish b) := by
    apply BroadcastLog.tally_eq_total
    intro i m hMsg hFinish
    simp only [isFinish, Bool.and_eq_true,
      decide_eq_true_eq] at hFinish
    exact hQuiet.handled hReach hAlive (hLaunched p hAlive)
      hNone hMsg (Or.inl hFinish.1)
  have hTotal :=
    s.log.tally_le_total q .handled (isFinish b)
  omega

/-
  A quiescent state leaves no live party without output
  exactly when nobody was left behind.
-/
theorem progress
    (hN : n = 3 * f + 1) (hF : 1 ≤ f)
    (hReach :
      (machine n cfg).ReachableBy
        (fun s a => ownConfFresh s a = true) s)
    (hQuiet : Quiescent cfg s)
    (hCrashed : (crashedSet s).card ≤ f)
    (hLaunched :
      ∀ p, s.crashed p = false →
        (s.party p).launched = true) :
    (∀ p, s.crashed p = false →
      (s.party p).output ≠ none) ↔ NotLeft f s := by
  have hFaults : faults n = f := by
    subst hN
    exact faults_eq f
  have hSome : (crashedSet s)ᶜ.Nonempty := by
    have hCard := card_alive hN hCrashed
    exact Finset.card_pos.mp (by omega)
  rcases hSome with ⟨p, hp⟩
  have hAlive := (alive_iff p).mp hp
  constructor
  · intro hAll
    cases hOutput : (s.party p).output with
    | none => exact absurd hOutput (hAll p hAlive)
    | some b =>
        left
        refine ⟨b, ?_⟩
        have hCount :=
          (partyDuties (by omega) hReach p).finish.outputSome
            b hOutput
        rw [finishCount_eq hReach] at hCount
        have hTotal :=
          s.log.tally_le_total p .handled (isFinish b)
        omega
  · intro hNotLeft q hq hNone
    have hStill : Still cfg s :=
      { someFault := by omega
        reach := hReach
        quiet := hQuiet
        launched := hLaunched
        noOutput := by
          intro r
          cases hOutput : (s.party r).output with
          | none => rfl
          | some b =>
              exact absurd hNone
                (output_of_output (by omega) hReach hQuiet
                  hLaunched hOutput hq) }
    rcases hNotLeft with ⟨b, hMany⟩ | ⟨hMany, hFirst⟩
    · have hFew := hStill.finish_total hN hCrashed b
      omega
    · rw [← hFaults] at hFirst
      have hFew := hStill.undecided_few hFirst
      omega

/- Where a run with one input for all ends. -/
def unanimousFresh : State 4 :=
  (machine 4 unanimousConfig).drive ownConfFresh
    (machine 4 unanimousConfig).init unanimousRun

/- All of them have put out their input. -/
theorem unanimousFresh_output :
    ∀ p, (unanimousFresh.party p).output = some true := by
  decide +kernel

/- Its steps meet the condition. -/
theorem unanimousFresh_reachable :
    (machine 4 unanimousConfig).ReachableBy
      (fun s a => ownConfFresh s a = true)
      unanimousFresh :=
  Machine.ReachableBy.drive .init unanimousRun

/- Nobody is left behind there. -/
theorem progress_unanimous :
    NotLeft 1 unanimousFresh := by
  have hSome :
      ∀ p, (unanimousFresh.party p).output ≠ none := by
    intro p hNone
    rw [unanimousFresh_output p] at hNone
    cases hNone
  have hProgress :=
    progress (n := 4) (f := 1) rfl (Nat.le_refl _)
      unanimousFresh_reachable
      (fun p _ hNone => absurd hNone (hSome p))
      (by decide +kernel) (by decide +kernel)
  exact hProgress.mp fun p _ => hSome p

------------------------------------------------------------
-- A Run That Leaves Two Parties Behind
------------------------------------------------------------

/-
  Parties 0 and 1 start with true, 2 and 3 with false. Party
  3 crashes after its VAL. Party 0 decides true in the first
  loop and stops; parties 1 and 2 find both values and go on
  to the next loop, where two parties are no quorum.
-/
def leftBehindRun : List (Action 4) :=
  let ready (p : Fin 4) : List (Action 4) :=
    [.go p (.mainConf (.value true)),
      .go p (.mainConf (.quorum true)), .go p (.sendConf 0)]
  let elect (p : Fin 4) : List (Action 4) :=
    [.go p (.mainCoin (.value true)),
      .go p (.mainCoin (.quorum true)), .go p .mainElect]
  let relay (p : Fin 4) (loop : Nat) : List (Action 4) :=
    [.go p (.sendVal loop), .go p (.sendValDone loop)]
  ([.launch 0 true, .launch 1 true,
    .launch 2 false, .launch 3 false] : List (Action 4)) ++
    ([0, 1, 2, 3] : List (Fin 4)).flatMap (relay · 0) ++
    ([.crash 3] : List (Action 4)) ++
    receiveAll 2 [0, 1] ++ relay 2 0 ++
    (([0, 1, 2] : List (Fin 4)).flatMap (fun p =>
      receiveAll p [0, 1, 4] ++ [.go p (.sendAux 0)])
        : List (Action 4)) ++
    (([0, 1, 2] : List (Fin 4)).flatMap (fun p =>
      receiveAll p [5, 6, 7] ++ ready p) : List (Action 4)) ++
    receiveAll 0 [8, 9, 10] ++ elect 0 ++
    ([.go 0 .sendFinish] : List (Action 4)) ++
    (([0, 1] : List (Fin 4)).flatMap (fun p =>
      receiveAll p [2, 3] ++ relay p 0 ++ relay p 0)
        : List (Action 4)) ++
    (([1, 2] : List (Fin 4)).flatMap (fun p =>
      receiveAll p [8, 9, 10, 2, 3, 12, 13] ++ elect p ++
        relay p 1) : List (Action 4)) ++
    -- deliver the rest and let every goroutine run out
    (([0, 1, 2] : List (Fin 4)).flatMap (fun p =>
      receiveAll p (List.range 16) ++ relay p 0 ++
        [.go p (.sendAux 0), .go p (.sendVal 0),
          .go p (.sendAux 0), .go p (.sendVal 1)])
            : List (Action 4))

/- Where a run that leaves parties behind ends. -/
def leftBehindState : State 4 :=
  (machine 4 unflaggedConfig).drive (fun _ _ => true)
    (machine 4 unflaggedConfig).init leftBehindRun

/- Nothing can step, and a party has not put out. -/
theorem stuck_after_decision :
    (machine 4 unflaggedConfig).Reachable
        leftBehindState ∧
      Quiescent unflaggedConfig leftBehindState ∧
        (crashedSet leftBehindState).card ≤ 1 ∧
          (∀ p, leftBehindState.crashed p = false →
            (leftBehindState.party p).launched = true) ∧
            leftBehindState.crashed 1 = false ∧
              (leftBehindState.party 1).output = none := by
  refine ⟨Machine.reachable_drive _ leftBehindRun, ?_⟩
  decide +kernel

end BinaryAgreement

end Jumbo
