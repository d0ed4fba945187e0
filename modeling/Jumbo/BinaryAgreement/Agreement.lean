import Jumbo.BinaryAgreement.Estimate
import Jumbo.BinaryAgreement.Signals

/-
  Agreement of the binary agreement.

  Every estimate, value flag and FINISH message is traced to
  CONF quorums in the log of broadcasts. Two decisions then
  agree because two quorums of one loop share a party.

  Main declarations:
    * `confQuorum_of_count`
    * `PartyEstimates`
    * `partyEstimates`
    * `agreement`
-/

------------------------------------------------------------
-- CONF Messages in the Log
------------------------------------------------------------

namespace Jumbo

namespace BinaryAgreement

open Protocol

variable {n : Nat}

/- The messages that the goroutines build. -/
def WellFormed (m : BAMsg n) : Prop :=
  match m.type with
  | .val => m = BA.valMsg m.id m.loop m.value
  | .aux => m = BA.auxMsg m.id m.loop m.value
  | .conf => m = BA.confMsg m.id m.loop m.confValue
  | .finish => m = BA.finishMsg m.id m.value

/- Messages of a loop are well formed. -/
theorem LoopStep.wellFormed
    {id : Fin n} {loop : Nat} {info info' : LoopInfo}
    {event : Event} {ms : List (BAMsg n)}
    (hStep : LoopStep id loop info event info' ms) :
    ∀ m ∈ ms, WellFormed m := by
  intro m hm
  cases hStep <;>
    simp only [List.not_mem_nil, List.mem_singleton] at hm
  all_goals
    rw [hm]
    rfl

/- Messages of a party are well formed. -/
theorem PartyStep.wellFormed
    {cfg : Config} {id : Fin n} {ba ba' : BA}
    {event : Event} {ms : List (BAMsg n)}
    (hStep : PartyStep cfg id ba event ba' ms) :
    ∀ m ∈ ms, WellFormed m := by
  intro m hm
  cases hStep with
  | loop _ _ _ _ _ _ hLoopStep =>
      exact hLoopStep.wellFormed m hm
  | finish value =>
      rw [List.mem_singleton] at hm
      rw [hm]
      rfl
  | _ => cases hm

section Reachable

variable {cfg : Config} {ok : State n → Action n → Prop}
variable {s : State n}

/- All messages of a run are well formed. -/
theorem wellFormed
    (hReach : (machine n cfg).ReachableBy ok s) :
    ∀ m ∈ s.log.sent, WellFormed m := by
  have hLocal :
      ∀ p, ∀ m ∈ s.log.sent, m.id = p → WellFormed m := by
    refine local_rule
      (fun sent p _ => ∀ m ∈ sent, m.id = p → WellFormed m)
      ?_ ?_ ?_ hReach
    · intro p m hm
      cases hm
    · intro sent p ba ms hOld hIds m hm hId
      rcases List.mem_append.mp hm with hm | hm
      · exact hOld m hm hId
      · exact absurd hId (hIds m hm)
    · intro s a p ba ms _ hAll _ hChange m hm hId
      rcases List.mem_append.mp hm with hm | hm
      · exact hAll p m hm hId
      · cases hChange with
        | go _ _ _ _ _ hStep =>
            exact hStep.wellFormed m hm
        | _ => cases hm
  exact fun m hm => hLocal m.id m hm rfl

/- CONF messages of one loop by any sender. -/
theorem mem_confMsg
    (hReach : (machine n cfg).ReachableBy ok s)
    {m : BAMsg n}
    (hMem : m ∈ s.log.sent) (hType : m.type = .conf) :
    BA.confMsg m.id m.loop m.confValue ∈ s.log.sent := by
  have hForm := wellFormed hReach m hMem
  unfold WellFormed at hForm
  rw [hType] at hForm
  dsimp only at hForm
  rw [← hForm]
  exact hMem

/- The relation of two CONF messages by different steps. -/
def ConfApart (p : Fin n) (m m' : BAMsg n) : Prop :=
  m.type = .conf → m'.type = .conf →
    m.loop = m'.loop → m.id = p → m'.id ≠ p

/- Only `sendconf` broadcasts CONF, with the flags it reads. -/
theorem LoopStep.conf_pending
    {id : Fin n} {loop : Nat} {info info' : LoopInfo}
    {event : Event} {ms : List (BAMsg n)}
    (hStep : LoopStep id loop info event info' ms) :
    (∀ m ∈ ms, m.type ≠ .conf) ∨
      (info.sendConf = .pending ∧
        ms = [BA.confMsg id loop info.values]) := by
  cases hStep with
  | conf hPending => exact Or.inr ⟨hPending, rfl⟩
  | _ => simp [BA.valMsg, BA.auxMsg]

/- A step adds no second CONF of a party for a loop. -/
theorem confApart_step
    {cfg : Config} {sent ms : List (BAMsg n)}
    {id : Fin n} {ba ba' : BA} {event : Event}
    (hSignals : PartySignals sent id ba)
    (hForm : ∀ m ∈ sent, WellFormed m)
    (hLaunched : ba.launched = true)
    (hStep : PartyStep cfg id ba event ba' ms)
    (hOld : sent.Pairwise (ConfApart id)) :
    (sent ++ ms).Pairwise (ConfApart id) := by
  have hOther :
      (∀ m ∈ ms, m.type ≠ .conf) →
        (sent ++ ms).Pairwise (ConfApart id) := by
    intro hNone
    rw [List.pairwise_append]
    refine ⟨hOld, ?_, ?_⟩
    · exact List.pairwise_of_forall_mem_list
        (fun m hm m' _ hConf => absurd hConf (hNone m hm))
    · intro m _ m' hm' _ hConf
      exact absurd hConf (hNone m' hm')
  cases hStep with
  | loop loop event info ms second hLoop hLoopStep =>
      rcases hLoopStep.conf_pending with
        hNone | ⟨hPending, hEq⟩
      · exact hOther hNone
      · subst hEq
        rw [List.pairwise_append]
        refine ⟨hOld, List.pairwise_singleton _ _, ?_⟩
        intro m hm m' hm' hConf _ hLoops hId
        rw [List.mem_singleton] at hm'
        subst hm'
        have hSent :
            BA.confMsg id loop m.confValue ∈ sent := by
          have hShape := hForm m hm
          unfold WellFormed at hShape
          rw [hConf] at hShape
          dsimp only at hShape
          rw [hId, hLoops] at hShape
          have hMem := hm
          rw [hShape] at hMem
          exact hMem
        have hDone :=
          ((hSignals.loops hLaunched loop hLoop).confSent
            _ hSent).1
        rw [hPending] at hDone
        cases hDone
  | finish value => exact hOther (by simp [BA.finishMsg])
  | _ => exact hOther (by simp)

/- In every run a party has one CONF for each loop. -/
theorem confApart
    (hReach : (machine n cfg).ReachableBy ok s)
    (p : Fin n) :
    s.log.sent.Pairwise (ConfApart p) := by
  refine local_rule
    (fun sent p _ => sent.Pairwise (ConfApart p))
    ?_ ?_ ?_ hReach p
  · exact fun p => List.Pairwise.nil
  · intro sent p ba ms hOld hIds
    rw [List.pairwise_append]
    refine ⟨hOld, ?_, ?_⟩
    · exact List.pairwise_of_forall_mem_list
        (fun m hm m' _ _ _ _ hId =>
          absurd hId (hIds m hm))
    · exact fun m _ m' hm' _ _ _ _ => hIds m' hm'
  · intro s a p ba ms hBefore hAll _ hChange
    cases hChange with
    | go _ _ _ _ hLaunched hStep =>
        exact confApart_step (partySignals hBefore p)
          (wellFormed hBefore) hLaunched hStep (hAll p)
    | _ =>
        rw [List.append_nil]
        exact hAll p

/- Nobody broadcasts two CONF messages in a loop. -/
theorem conf_oncePerSender
    (hReach : (machine n cfg).ReachableBy ok s)
    (loop : Nat) :
    s.log.OncePerSender BAMsg.id (isConfMix loop) := by
  apply BroadcastLog.oncePerSender_of_pairwise
  have hAll :
      ∀ p, s.log.sent.Pairwise (ConfApart p) :=
    fun p => confApart hReach p
  rw [List.pairwise_iff_getElem]
  intro i j hi hj hij hP hP' hId
  have hConf := hAll (s.log.sent[i]).id
  rw [List.pairwise_iff_getElem] at hConf
  simp only [isConfMix, Bool.and_eq_true,
    decide_eq_true_eq] at hP hP'
  exact hConf i j hi hj hij hP.1 hP'.1
    (hP.2.trans hP'.2.symm) rfl hId.symm

/- In every run there is one CONF of a party for a loop. -/
theorem confOnce
    (hReach : (machine n cfg).ReachableBy ok s) :
    ConfOnce s.log.sent := by
  intro q loop values values' hMem hMem'
  rcases List.mem_iff_getElem?.mp hMem with ⟨i, hi⟩
  rcases List.mem_iff_getElem?.mp hMem' with ⟨j, hj⟩
  have hEq : i = j :=
    conf_oncePerSender hReach loop i j _ _ hi hj
      (by simp [isConfMix, BA.confMsg])
      (by simp [isConfMix, BA.confMsg]) rfl
  subst hEq
  rw [hi] at hj
  simpa [BA.confMsg] using hj

/-
  A party's own CONF message was sent with some value, and
  only values that it still has.
-/
theorem own_conf_only
    (hReach : (machine n cfg).ReachableBy ok s)
    {p : Fin n} {m : BAMsg n} {b : Bool}
    (hMem : m ∈ s.log.sent) (hType : m.type = .conf)
    (hId : m.id = p)
    (hValues :
      ((s.party p).loops m.loop).values = Values.only b) :
    m.confValue = Values.only b := by
  have hSent := mem_confMsg hReach hMem hType
  rw [hId] at hSent
  have hParty := partySignals hReach p
  rcases hParty.ahead _ _ hSent with ⟨hLaunched, hLoop⟩
  rcases (hParty.loops hLaunched _ hLoop).confSent _ hSent
    with ⟨_, ⟨c, hc⟩, hSub⟩
  rw [hValues] at hSub
  have hOnly : ∀ d, m.confValue.get d = true → b = d := by
    intro d hd
    simpa using hSub d hd
  apply Values.ext_get
  intro d
  rw [Values.get_only]
  have hbc := hOnly c hc
  subst hbc
  cases hd : m.confValue.get d with
  | true => simp [hOnly d hd]
  | false =>
      have hNe : b ≠ d := by
        intro hEq
        rw [hEq, hd] at hc
        cases hc
      simp [hNe]

/- A full counter of `handle_conf` is a quorum in the log. -/
theorem confQuorum_of_count
    (hReach : (machine n cfg).ReachableBy ok s)
    {p : Fin n} {loop : Nat} {b : Bool}
    (hCount :
      faults n * 2 + 1 ≤
        ((s.party p).loops loop).confCount b) :
    ConfQuorum s.log.sent loop b := by
  have hImp :
      ∀ m : BAMsg n, isConf loop b m = true →
        isConfMix loop m = true := by
    intro m hm
    simp only [isConf, isConfMix, Bool.and_eq_true] at hm ⊢
    exact hm.1
  have hOnce :
      s.log.OncePerSender BAMsg.id (isConf loop b) := by
    intro i j m m' hm hm' hP hP' hId
    exact conf_oncePerSender hReach loop i j m m' hm hm'
      (hImp m hP) (hImp m' hP') hId
  have hTally :
      ((s.party p).loops loop).confCount b ≤
        s.log.tally p .handled (isConf loop b) := by
    apply confCount_le hReach p loop b
    intro t i m hBefore _ hMsg hType hId hLoop hValues
    subst hLoop
    exact own_conf_only hBefore (List.mem_of_getElem? hMsg)
      hType hId hValues
  have hSub :
      s.log.senders BAMsg.id (isConf loop b) ⊆
        confSenders s.log.sent loop b := by
    intro q hq
    rw [BroadcastLog.mem_senders_iff] at hq
    rcases hq with ⟨m, hMem, hConf, hId⟩
    simp only [isConf, Bool.and_eq_true,
      decide_eq_true_eq] at hConf
    have hSent := mem_confMsg hReach hMem hConf.1.1
    rw [hId, hConf.1.2, hConf.2] at hSent
    exact (mem_confSenders_iff _ _ _ _).mpr hSent
  calc
    faults n * 2 + 1
        ≤ ((s.party p).loops loop).confCount b := hCount
    _ ≤ s.log.tally p .handled (isConf loop b) := hTally
    _ ≤ (s.log.senders BAMsg.id (isConf loop b)).card :=
      s.log.tally_le_card_senders _ _ _ _ hOnce
    _ ≤ (confSenders s.log.sent loop b).card :=
      Finset.card_le_card hSub

end Reachable

end BinaryAgreement

end Jumbo

------------------------------------------------------------
-- Estimates of One Party
------------------------------------------------------------

namespace Jumbo

namespace BinaryAgreement

open Protocol

variable {n : Nat}

/- A decision of some loop. -/
def Decided
    (cfg : Config) (sent : List (BAMsg n)) (b : Bool) :
    Prop :=
  ∃ loop, Decision cfg sent loop b

/- More messages keep what they decide. -/
theorem Decided.mono
    {cfg : Config} {sent sent' : List (BAMsg n)} {b : Bool}
    (hDecided : Decided cfg sent b)
    (hSub : sent ⊆ sent') :
    Decided cfg sent' b := by
  rcases hDecided with ⟨loop, hDecision⟩
  exact ⟨loop, hDecision.mono hSub⟩

/- Everything a loop works with was possible before it. -/
structure LoopEstimates
    (cfg : Config) (sent : List (BAMsg n))
    (loop : Nat) (info : LoopInfo) : Prop where
  input : Estimate cfg sent loop info.input
  signal :
    ∀ b ∈ info.sendValSignal, Estimate cfg sent loop b
  values :
    ∀ b, info.values.get b = true →
      Estimate cfg sent loop b

/- What a broadcast says about the loops before it. -/
structure MsgEstimates
    (cfg : Config) (sent : List (BAMsg n))
    (m : BAMsg n) : Prop where
  val :
    m.type = .val → Estimate cfg sent m.loop m.value
  finish : m.type = .finish → Decided cfg sent m.value

/-
  What a party has sent and what its loops hold is allowed
  by the decisions so far.
-/
structure PartyEstimates
    (cfg : Config) (sent : List (BAMsg n))
    (id : Fin n) (ba : BA) : Prop where
  messages :
    ∀ m ∈ sent, m.id = id → MsgEstimates cfg sent m
  loops :
    ba.launched = true → ∀ loop, loop ≤ ba.loop →
      LoopEstimates cfg sent loop (ba.loops loop)
  decided :
    ∀ b, ba.main = .decided b →
      Decision cfg sent ba.loop b
  signal :
    ∀ b ∈ ba.sendFinishSignal, Decided cfg sent b
  output : ∀ b, ba.output = some b → Decided cfg sent b

section Steps

variable {cfg : Config}
variable {sent sent' ms : List (BAMsg n)} {id : Fin n}
variable {loop : Nat} {info info' : LoopInfo}
variable {ba ba' : BA}

/- More messages keep the values of a loop allowed. -/
theorem LoopEstimates.mono
    (hInfo : LoopEstimates cfg sent loop info)
    (hSub : sent ⊆ sent') :
    LoopEstimates cfg sent' loop info where
  input := hInfo.input.mono hSub
  signal := fun b hb => (hInfo.signal b hb).mono hSub
  values := fun b hb => (hInfo.values b hb).mono hSub

/- More messages keep a message allowed. -/
theorem MsgEstimates.mono
    {m : BAMsg n}
    (hMsg : MsgEstimates cfg sent m)
    (hSub : sent ⊆ sent') :
    MsgEstimates cfg sent' m where
  val := fun hType => (hMsg.val hType).mono hSub
  finish := fun hType => (hMsg.finish hType).mono hSub

/- Growing the log by messages that say nothing wrong. -/
theorem PartyEstimates.append
    (hParty : PartyEstimates cfg sent id ba)
    (hMessages :
      ∀ m ∈ ms, m.id = id →
        MsgEstimates cfg (sent ++ ms) m) :
    PartyEstimates cfg (sent ++ ms) id ba := by
  have hSub : sent ⊆ sent ++ ms :=
    List.subset_append_left _ _
  exact
    { messages := by
        intro m hm hId
        rcases List.mem_append.mp hm with hm | hm
        · exact (hParty.messages m hm hId).mono hSub
        · exact hMessages m hm hId
      loops := fun hLaunched loop hLoop =>
        (hParty.loops hLaunched loop hLoop).mono hSub
      decided := fun b hb =>
        (hParty.decided b hb).mono hSub
      signal := fun b hb => (hParty.signal b hb).mono hSub
      output := fun b hb => (hParty.output b hb).mono hSub }

/- A loop that is entered with an allowed value is fine. -/
theorem LoopEstimates.new
    {input : Bool}
    (hInput : Estimate cfg sent loop input) :
    LoopEstimates cfg sent loop (LoopInfo.new input) where
  input := hInput
  signal := by
    intro b hb
    have hEq : b = input := by
      simpa [LoopInfo.new] using hb
    rw [hEq]
    exact hInput
  values := by
    intro b hb
    cases b <;> simp [LoopInfo.new] at hb

/- The flag of an allowed value may be written. -/
theorem LoopEstimates.setValue
    {b : Bool}
    (hInfo : LoopEstimates cfg sent loop info)
    (hValue : Estimate cfg sent loop b) :
    LoopEstimates cfg sent loop
      { info with values := info.values.set b } where
  input := hInfo.input
  signal := hInfo.signal
  values := by
    intro c hc
    have hCases :
        info.values.get c = true ∨ b = c := by
      simpa using hc
    rcases hCases with hOld | hNew
    · exact hInfo.values c hOld
    · rw [← hNew]
      exact hValue

/- A step of a loop only passes allowed values on. -/
theorem LoopEstimates.loopStep
    {event : Event}
    (hInfo : LoopEstimates cfg sent loop info)
    (hStep : LoopStep id loop info event info' ms) :
    LoopEstimates cfg sent loop info' := by
  cases hStep with
  | valSkip value rest hSignal =>
      exact
        { hInfo with
          signal := by
            intro b hb
            apply hInfo.signal b
            rw [hSignal]
            exact List.mem_cons_of_mem _ hb }
  | valNew value rest second hSignal =>
      exact
        { hInfo with
          signal := by
            intro b hb
            apply hInfo.signal b
            rw [hSignal]
            exact List.mem_cons_of_mem _ hb }
  | valDoneFirst hNow hLoop =>
      subst hLoop
      exact { hInfo.setValue (b := true) trivial with }
  | secondDone hLoop =>
      subst hLoop
      exact { hInfo.setValue (b := true) trivial with }
  | _ => exact { hInfo with }

/- A step of a loop only sends allowed values. -/
theorem LoopStep.msgEstimates
    {event : Event}
    (hInfo : LoopEstimates cfg sent loop info)
    (hStep : LoopStep id loop info event info' ms) :
    ∀ m ∈ ms, MsgEstimates cfg sent m := by
  intro m hm
  cases hStep <;>
    simp only [List.not_mem_nil, List.mem_singleton] at hm
  case valNew value rest second hSignal hNow hFresh =>
      subst hm
      refine ⟨fun _ => ?_, fun hType => by cases hType⟩
      apply hInfo.signal value
      rw [hSignal]
      exact List.mem_cons_self
  case second hLoop hSecond =>
      subst hm
      subst hLoop
      exact ⟨fun _ => trivial, fun hType => by cases hType⟩
  all_goals
    subst hm
    constructor <;>
      intro hType <;>
      cases hType

/- Counting an allowed message keeps the loop fine. -/
theorem LoopEstimates.loopReceive
    {m : BAMsg n}
    (hInfo : LoopEstimates cfg sent m.loop info)
    (hMsg : MsgEstimates cfg sent m) :
    LoopEstimates cfg sent m.loop
      (loopReceive id info m) := by
  unfold BinaryAgreement.loopReceive
  split
  · rename_i hType
    have hValue := hMsg.val hType
    have hSet := hInfo.setValue hValue
    unfold handleVal
    dsimp only
    split
    · exact
        { hInfo with
          signal := by
            intro b hb
            rcases List.mem_append.mp hb with hb | hb
            · exact hInfo.signal b hb
            · rw [List.mem_singleton.mp hb]
              exact hValue }
    · split
      · split
        · exact { hSet with }
        · exact { hSet with }
      · exact { hInfo with }
  · rw [handleAux_eq]
    exact { hInfo with }
  · rcases handleConf_frame (faults n) info
      (confValueAt id info m) with ⟨_, _, _, _, hEq⟩
    rw [hEq]
    exact { hInfo with }
  · exact hInfo

/- Replacing one loop by a later version of it. -/
theorem PartyEstimates.setLoop
    (hParty : PartyEstimates cfg sent id ba)
    (hLaunched : ba.launched = true)
    (hInfo : LoopEstimates cfg sent loop info) :
    PartyEstimates cfg sent id (ba.setLoop loop info) :=
  { hParty with
    loops := by
      intro _ loop' hLoop'
      by_cases hEq : loop' = loop
      · subst hEq
        rw [BA.setLoop_self]
        exact hInfo
      · rw [BA.setLoop_of_ne _ _ hEq]
        exact hParty.loops hLaunched loop' hLoop' }

/- The main goroutine may go on to an allowed decision. -/
theorem PartyEstimates.setMain
    {main : Main}
    (hParty : PartyEstimates cfg sent id ba)
    (hLaunched : ba.launched = true)
    (hMain :
      ∀ b, main = .decided b →
        Decision cfg sent ba.loop b) :
    PartyEstimates cfg sent id { ba with main := main } :=
  { hParty with
    loops := fun _ => hParty.loops hLaunched
    decided := hMain }

/- A loop entered with a possible estimate. -/
theorem PartyEstimates.startLoop
    {input : Bool}
    (hParty : PartyEstimates cfg sent id ba)
    (hNew : ba.launched = true → ba.loop + 1 = loop)
    (hFirst : ba.launched = false → loop = 0)
    (hInput : Estimate cfg sent loop input) :
    PartyEstimates cfg sent id (ba.startLoop loop input) :=
  { hParty with
    loops := by
      intro _ loop' hLoop'
      by_cases hEq : loop' = loop
      · subst hEq
        have hStarted :
            (ba.startLoop loop' input).loops loop' =
              LoopInfo.new input := by
          simp [BA.startLoop]
        rw [hStarted]
        exact .new hInput
      · have hLe : loop' ≤ loop := hLoop'
        cases hLaunched : ba.launched with
        | true =>
            have hNext := hNew hLaunched
            have hOld :=
              hParty.loops hLaunched loop' (by omega)
            simpa [BA.startLoop, Function.update_of_ne hEq]
              using hOld
        | false =>
            have hZero := hFirst hLaunched
            omega
    decided := by
      intro b hb
      cases hb }

/-
  The outcomes of a loop: both values are possible and the
  coin is taken over, or one value is possible and decided
  when it is the coin, kept as the estimate when it is not.
-/
theorem elect_spec (cfg : Config) (ba : BA) :
    ((∀ b, ba.info.values.get b = true) ∧
      ba.elect cfg = ba.startLoop (ba.loop + 1)
        (handleCoin cfg ba.loop ba.loop)) ∨
      (∀ b, ba.info.values.get b = false) ∨
      (∃ b, ba.info.values.get b = true ∧
        ba.info.values.get (!b) = false ∧
          b = handleCoin cfg ba.loop ba.loop ∧
            ba.elect cfg =
              { ba with
                sendFinishSignal :=
                  ba.sendFinishSignal ++ [b]
                main := .decided b }) ∨
      ∃ b, ba.info.values.get b = true ∧
        ba.info.values.get (!b) = false ∧
          ba.elect cfg = ba.startLoop (ba.loop + 1) b := by
  unfold BA.elect
  dsimp only
  generalize handleCoin cfg ba.loop ba.loop = coin
  rcases ba.info.values with ⟨zero, one⟩
  cases zero <;> cases one
  · exact Or.inr (Or.inl fun b => by cases b <;> rfl)
  · cases coin
    · exact Or.inr (Or.inr (Or.inr
        ⟨true, rfl, rfl, rfl⟩))
    · exact Or.inr (Or.inr (Or.inl
        ⟨true, rfl, rfl, rfl, rfl⟩))
  · cases coin
    · exact Or.inr (Or.inr (Or.inl
        ⟨false, rfl, rfl, rfl, rfl⟩))
    · exact Or.inr (Or.inr (Or.inr
        ⟨false, rfl, rfl, rfl⟩))
  · exact Or.inl ⟨fun b => by cases b <;> rfl, rfl⟩

/-
  A loop ends with a decision or with an estimate for the
  next loop, both of them justified.
-/
theorem PartyEstimates.elect
    (hParty : PartyEstimates cfg sent id ba)
    (hLaunched : ba.launched = true)
    (hElect :
      (∃ b, ba.info.values.get b = true ∧
        ConfQuorum sent ba.loop b) ∨
        ∀ b, ba.info.values.get b = true) :
    PartyEstimates cfg sent id (ba.elect cfg) := by
  have hValue :
      ∀ b, ba.info.values.get b = true →
        Estimate cfg sent ba.loop b :=
    (hParty.loops hLaunched ba.loop (Nat.le_refl _)).values
  have hStart :
      ∀ input, Estimate cfg sent (ba.loop + 1) input →
        PartyEstimates cfg sent id
          (ba.startLoop (ba.loop + 1) input) := by
    intro input hInput
    apply hParty.startLoop (fun _ => rfl) ?_ hInput
    intro hIdle
    rw [hLaunched] at hIdle
    cases hIdle
  have hDecide :
      ∀ b, Decision cfg sent ba.loop b →
        PartyEstimates cfg sent id
          { ba with
            sendFinishSignal := ba.sendFinishSignal ++ [b]
            main := .decided b } := by
    intro b hDecision
    have hMain :
        PartyEstimates cfg sent id
          { ba with main := .decided b } := by
      apply hParty.setMain hLaunched
      intro c hc
      cases hc
      exact hDecision
    refine { hMain with signal := ?_ }
    · intro c hc
      rcases List.mem_append.mp hc with hc | hc
      · exact hParty.signal c hc
      · rw [List.mem_singleton.mp hc]
        exact ⟨ba.loop, hDecision⟩
  -- with one value only, that value has a quorum
  have hSingle :
      ∀ b, ba.info.values.get b = true →
        ba.info.values.get (!b) = false →
          ConfQuorum sent ba.loop b := by
    intro b _ hNot
    rcases hElect with ⟨c, hc, hQuorum⟩ | hBoth
    · by_cases hbc : c = b
      · rw [← hbc]
        exact hQuorum
      · rw [Bool.eq_not_of_ne hbc, hNot] at hc
        cases hc
    · rw [hBoth] at hNot
      cases hNot
  rcases elect_spec cfg ba with
    ⟨hBoth, hEq⟩ | hNone | ⟨b, hb, hNot, hCoin, hEq⟩ |
      ⟨b, hb, hNot, hEq⟩
  · rw [hEq]
    exact hStart _ ⟨hValue _ (hBoth _), Or.inr rfl⟩
  · rcases hElect with ⟨b, hb, _⟩ | hBoth
    · rw [hNone] at hb
      cases hb
    · have hFalse := hBoth false
      rw [hNone] at hFalse
      cases hFalse
  · rw [hEq]
    exact hDecide b
      ⟨hCoin, hSingle b hb hNot, hValue b hb⟩
  · rw [hEq]
    exact hStart b ⟨hValue b hb, Or.inl (hSingle b hb hNot)⟩

/- `handle_finish` only repeats decisions. -/
theorem PartyEstimates.handleFinish
    {value : Bool}
    (hParty : PartyEstimates cfg sent id ba)
    (hValue : Decided cfg sent value) :
    PartyEstimates cfg sent id
      (handleFinish (faults n) ba value) := by
  unfold BinaryAgreement.handleFinish
  dsimp only
  split
  · exact
      { hParty with
        signal := by
          intro b hb
          rcases List.mem_append.mp hb with hb | hb
          · exact hParty.signal b hb
          · rw [List.mem_singleton.mp hb]
            exact hValue }
  · split
    · exact
        { hParty with
          output := by
            intro b hb
            cases hb
            exact hValue }
    · exact { hParty with }

/- A party stays fine with every allowed message. -/
theorem PartyEstimates.receive
    {m : BAMsg n}
    (hParty : PartyEstimates cfg sent id ba)
    (hLaunched : ba.launched = true)
    (hMsg : MsgEstimates cfg sent m)
    (hReceive : ba.receive id m = some ba') :
    PartyEstimates cfg sent id ba' := by
  rcases receive_cases hReceive with
    ⟨_, hLoop, hEq⟩ | ⟨hType, _, hEq⟩
  · rw [hEq]
    apply hParty.setLoop hLaunched
    exact (hParty.loops hLaunched m.loop hLoop).loopReceive
      hMsg
  · rw [hEq]
    exact hParty.handleFinish (hMsg.finish hType)

/-
  A party stays fine with every step, where the election has
  a quorum of CONF or both values.
-/
theorem PartyEstimates.partyStep
    {event : Event}
    (hParty : PartyEstimates cfg sent id ba)
    (hLaunched : ba.launched = true)
    (hElect :
      ba.main = .elect →
        (∃ b, ba.info.values.get b = true ∧
          ConfQuorum sent ba.loop b) ∨
          ∀ b, ba.info.values.get b = true)
    (hStep : PartyStep cfg id ba event ba' ms) :
    PartyEstimates cfg (sent ++ ms) id ba' := by
  have hSub : sent ⊆ sent ++ ms :=
    List.subset_append_left _ _
  have hCurrent :=
    hParty.loops hLaunched ba.loop (Nat.le_refl _)
  -- a select changes signals and flags only
  have hMove :
      ∀ info main, info.input = ba.info.input →
        info.sendValSignal = ba.info.sendValSignal →
          info.values = ba.info.values →
            (∀ b, main ≠ .decided b) →
              PartyEstimates cfg sent id
                { ba.setLoop ba.loop info with
                  main := main } := by
    intro info main hInput hSignal hValues hNot
    have hInfo : LoopEstimates cfg sent ba.loop info :=
      { input := by
          rw [hInput]
          exact hCurrent.input
        signal := by
          rw [hSignal]
          exact hCurrent.signal
        values := by
          rw [hValues]
          exact hCurrent.values }
    apply (hParty.setLoop hLaunched hInfo).setMain hLaunched
    intro b hb
    exact absurd hb (hNot b)
  cases hStep with
  | loop loop event info ms second hLoop hLoopStep =>
      have hInfo := hParty.loops hLaunched loop hLoop
      have hAfter :=
        hParty.setLoop hLaunched (hInfo.loopStep hLoopStep)
      refine { hAfter.append ?_ with }
      intro m hm _
      exact (hLoopStep.msgEstimates hInfo m hm).mono hSub
  | finish value rest hSignal =>
      have hDecided : Decided cfg sent value := by
        apply hParty.signal value
        rw [hSignal]
        exact List.mem_cons_self
      have hAfter :
          PartyEstimates cfg sent id
            { ba with
              sendFinishSignal := rest
              sendFinish := ba.sendFinish - 1 } :=
        { hParty with
          signal := by
            intro b hb
            apply hParty.signal b
            rw [hSignal]
            exact List.mem_cons_of_mem _ hb }
      refine hAfter.append ?_
      intro m hm _
      rw [List.mem_singleton.mp hm]
      exact
        { val := fun hType => by cases hType
          finish := fun _ => hDecided.mono hSub }
  | elect hMain =>
      rw [List.append_nil]
      exact hParty.elect hLaunched (hElect hMain)
  | mainConf flags signal info hMain hTake hWait
  | mainConfReady flags signal info hMain hTake hReady =>
      rw [List.append_nil]
      rcases takeConf_same hTake with
        ⟨hValues, _, hInput, hSignal⟩
      exact hMove _ _ hInput hSignal hValues (by simp)
  | mainCoin flags signal info hMain hTake hWait
  | mainCoinReady flags signal info hMain hTake hReady =>
      rw [List.append_nil]
      rcases takeCoin_same hTake with
        ⟨hValues, _, hInput, hSignal⟩
      exact hMove _ _ hInput hSignal hValues (by simp)

/- Estimates and decisions are justified in every run. -/
theorem partyEstimates
    {ok : State n → Action n → Prop} {s : State n}
    (hReach : (machine n cfg).ReachableBy ok s)
    (p : Fin n) :
    PartyEstimates cfg s.log.sent p (s.party p) := by
  refine local_rule (PartyEstimates cfg) ?_ ?_ ?_ hReach p
  · intro p
    exact
      { messages := fun m hm => by cases hm
        loops := fun hLaunched => by cases hLaunched
        decided := fun b hb => by cases hb
        signal := fun b hb => by cases hb
        output := fun b hb => by cases hb }
  · intro sent p ba ms hParty hIds
    apply hParty.append
    intro m hm hId
    exact absurd hId (hIds m hm)
  · intro s a p ba ms hBefore hAll _ hChange
    have hParty := hAll p
    cases hChange with
    | launch _ input hIdle =>
        rw [List.append_nil]
        apply hParty.startLoop
        · intro hLaunched
          rw [hIdle] at hLaunched
          cases hLaunched
        · exact fun _ => rfl
        · trivial
    | second =>
        rw [List.append_nil]
        exact { hParty with }
    | handle _ i m _ hLaunched hMsg hLoc hReceive =>
        rw [List.append_nil]
        have hMem := List.mem_of_getElem? hMsg
        exact hParty.receive hLaunched
          ((hAll m.id).messages m hMem rfl) hReceive
    | go _ event _ _ hLaunched hStep =>
        apply hParty.partyStep hLaunched ?_ hStep
        intro hMain
        have hSignals := (partySignals hBefore p).main
        rw [hMain] at hSignals
        rcases hSignals with ⟨b, hb, hCount⟩ | hBoth
        · exact Or.inl
            ⟨b, hb, confQuorum_of_count hBefore hCount⟩
        · exact Or.inr hBoth

end Steps

end BinaryAgreement

end Jumbo

------------------------------------------------------------
-- Agreement
------------------------------------------------------------

namespace Jumbo

namespace BinaryAgreement

open Protocol

variable {n f : Nat}

/- Everything decided in one run is one value. -/
theorem decided_unique
    {cfg : Config} {ok : State n → Action n → Prop}
    {s : State n}
    (hN : n = 3 * f + 1)
    (hReach : (machine n cfg).ReachableBy ok s)
    {b c : Bool}
    (hB : Decided cfg s.log.sent b)
    (hC : Decided cfg s.log.sent c) :
    b = c := by
  subst hN
  rcases hB with ⟨loop, hB⟩
  rcases hC with ⟨loop', hC⟩
  exact hB.unique (confOnce hReach) hC

/- Outputs of one instance agree. -/
theorem output_unique
    {cfg : Config} {ok : State n → Action n → Prop}
    {s : State n}
    (hN : n = 3 * f + 1)
    (hReach : (machine n cfg).ReachableBy ok s)
    {p q : Fin n} {b c : Bool}
    (hP : (s.party p).output = some b)
    (hQ : (s.party q).output = some c) :
    b = c :=
  decided_unique hN hReach
    ((partyEstimates hReach p).output b hP)
    ((partyEstimates hReach q).output c hQ)

/-
  Parties that output agree, and after a decision in loop `l`
  every loop above `l` is entered with the decided value.
-/
theorem agreement
    {cfg : Config} {s : State n}
    (hN : n = 3 * f + 1)
    (hReach : (machine n cfg).Reachable s) :
    (∀ p q b c,
      (s.party p).output = some b →
        (s.party q).output = some c → b = c) ∧
      ∀ p q b l l',
        (s.party p).main = .decided b →
          (s.party p).loop = l →
            l < l' → (s.party q).launched = true →
              l' ≤ (s.party q).loop →
                ((s.party q).loops l').input = b := by
  refine ⟨?_, ?_⟩
  · intro p q b c hP hQ
    exact output_unique hN hReach hP hQ
  · intro p q b l l' hMain hLoop hLt hLaunched hLe
    subst hN
    have hDecision :=
      (partyEstimates hReach p).decided b hMain
    rw [hLoop] at hDecision
    have hInput :=
      ((partyEstimates hReach q).loops hLaunched l' hLe).input
    exact hDecision.estimate_eq (confOnce hReach) hLt hInput

------------------------------------------------------------
-- A Run with Outputs
------------------------------------------------------------

/- Route and handle the given broadcasts at one receiver. -/
def receiveAll
    {n : Nat} (p : Fin n) (is : List Nat) :
    List (Action n) :=
  is.flatMap fun i => [.route p i, .handle p i]

/- One loop in which the parties `ps` settle on `b`. -/
def settleLoop
    {n : Nat} (ps : List (Fin n)) (loop : Nat) (b : Bool)
    (vals auxs confs : List Nat) : List (Action n) :=
  (ps.flatMap (fun p => receiveAll p vals) : List (Action n)) ++
    (ps.map (fun p => .go p (.sendAux loop))
      : List (Action n)) ++
    (ps.flatMap (fun p => receiveAll p auxs)
      : List (Action n)) ++
    (ps.flatMap (fun p =>
      [.go p (.mainConf (.value b)),
        .go p (.mainConf (.quorum b)),
        .go p (.sendConf loop)]) : List (Action n)) ++
    (ps.flatMap (fun p => receiveAll p confs)
      : List (Action n)) ++
    (ps.flatMap (fun p =>
      [.go p (.mainCoin (.value b)),
        .go p (.mainCoin (.quorum b)),
        .go p .mainElect]) : List (Action n))

/-
  All four parties start with true and all but the last
  messages are read.
-/
def unanimousRun : List (Action 4) :=
  let ps : List (Fin 4) := [0, 1, 2, 3]
  (ps.map (fun p => .launch p true) : List (Action 4)) ++
    (ps.flatMap (fun p =>
      [.go p (.sendVal 0), .go p (.sendValDone 0)])
        : List (Action 4)) ++
    settleLoop ps 0 true
      [0, 1, 2, 3] [4, 5, 6, 7] [8, 9, 10, 11] ++
    (ps.map (fun p => .go p .sendFinish) : List (Action 4)) ++
    (ps.flatMap (fun p => receiveAll p [12, 13, 14])
      : List (Action 4))

/- Every coin but the first is true. -/
def unanimousConfig : Config := ⟨fun _ => [0], 0, 0⟩

/- Where the unanimous run ends. -/
def unanimousState : State 4 :=
  (machine 4 unanimousConfig).drive (fun _ _ => true)
    (machine 4 unanimousConfig).init unanimousRun

/- It is a run of the network. -/
theorem unanimousState_reachable :
    (machine 4 unanimousConfig).Reachable unanimousState :=
  Machine.reachable_drive _ unanimousRun

/- A party has put out true there. -/
theorem unanimousState_output :
    (unanimousState.party 1).output = some true := by
  decide +kernel

/- So nobody puts out false in that state. -/
theorem agreement_unanimous :
    (unanimousState.party 1).output = some true ∧
      ∀ p b, (unanimousState.party p).output = some b →
        b = true := by
  refine ⟨unanimousState_output, ?_⟩
  intro p b hOutput
  have hAgree :=
    agreement (n := 4) (f := 1) rfl unanimousState_reachable
  exact hAgree.1 p 1 b true hOutput unanimousState_output

end BinaryAgreement

end Jumbo
