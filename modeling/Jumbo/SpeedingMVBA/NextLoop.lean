import Jumbo.SpeedingMVBA.LoopSteps

/-
  The inputs that a party sends when it leaves a loop.

  An input goes with the proofs that its sender holds, and
  `check_values` of another party compares them with its own
  past coins. The combined signature of a loop and the input
  it is for are stored apart, and only the value that came
  first is kept when a vote yes comes with another one. When
  no message takes them apart, every such input is accepted.

  Main declarations:
    * `PartyOk.nextLoop` and `PartyOk.countVotes`
    * `PartyOk.step`
    * `inputs_accepted`
    * `inputs_not_accepted`
-/

------------------------------------------------------------
-- Votes
------------------------------------------------------------

namespace Jumbo

namespace SpeedingMVBA

open Crypto (Bytes)
open Struct

variable {n : Nat}

/- The votes of a loop are not over. -/
def Finish.runs : Finish n → Prop
| .next => False
| .done => False
| _ => True

section Votes

variable {strict : Prop}
variable {cfg : Config n} {id : Fin n} {m : MVBA n}
variable {l : Nat} {msg : Msg} {e : Effect n}

/- The votes that run are those of the loop of the party. -/
theorem PartyOk.loop_eq
    (hOk : PartyOk strict cfg id m) (hLt : l < m.started)
    (hRuns : (m.loops l).finish.runs) :
    l = m.loop := by
  have hNot : ¬ l < m.loop := by
    intro hLeft
    rw [(hOk.left l hLeft).1] at hRuns
    exact hRuns
  have hAhead := hOk.ahead.2
  omega

/- A party with a loop that runs has not ended. -/
theorem PartyOk.not_ended
    (hOk : PartyOk strict cfg id m) (hLt : l < m.started)
    (hRuns : (m.loops l).finish.runs) :
    ¬ m.ended := by
  rintro ⟨_, hDone⟩
  rw [← hOk.loop_eq hLt hRuns] at hDone
  rw [hDone] at hRuns
  exact hRuns

/- The votes go on, or end without a next loop. -/
theorem PartyOk.turn
    (hOk : PartyOk strict cfg id m) (hLt : l < m.started)
    (hRuns : (m.loops l).finish.runs)
    (finish : Finish n) (hTo : finish ≠ .next)
    (hFinish : FinishOk cfg l (m.loops l) finish)
    (coinReady : Option (Fin n))
    (hCoin :
      coinReady = none ∨
        coinReady = (m.loops l).coinReady) :
    PartyOk strict cfg id
      (m.setLoop l
        { m.loops l with
          coinReady := coinReady
          finish := finish }) := by
  have hLoop := hOk.loops l hLt
  refine hOk.setLoop hLt ?_ ?_
  · refine
      { sigmas := hLoop.sigmas
        mine := hLoop.mine
        pbc := hLoop.pbc
        coin := ?_
        share := hLoop.share
        finish :=
          hFinish.mono (fun h => h) fun _ _ h => h }
    intro c hReady
    rcases hCoin with rfl | rfl
    · cases hReady
    · exact hLoop.coin c hReady
  · refine
      { lastinput := rfl
        next := ⟨fun h => absurd h hTo, ?_⟩
        done := ?_
        input := rfl
        share := fun hLeft => (hOk.left l hLeft).2
        stored := fun hStrict => hOk.stored hStrict l hLt
        tied := fun _ _ => ⟨rfl, fun h => h⟩ }
    · intro hNext
      rw [hNext] at hRuns
      exact hRuns.elim
    · intro hDone
      rw [hDone] at hRuns
      exact hRuns.elim

/- A round that has halted. -/
theorem PartyOk.halted
    (hOk : PartyOk strict cfg id m) (outputs : List Msg) :
    PartyOk strict cfg id
      { m with mvbaDone := true, outputs := outputs } :=
  { hOk with
    honest := fun _ => nofun
    carries := fun hNot =>
      (hOk.carries hNot).mono fun _ _ _ h => h }

/- The halt keeps the party in order. -/
theorem PartyOk.haltWith
    (hOk : PartyOk strict cfg id m) (hLt : l < m.started)
    (hRuns : (m.loops l).finish.runs)
    (coinReady : Option (Fin n))
    (hCoin :
      coinReady = none ∨ coinReady = (m.loops l).coinReady)
    (coin : Fin n) (ss : BatchSignature)
    (accepted assembled : List Cert) :
    EffectOk strict cfg id
      (haltWith cfg id m l
        { m.loops l with coinReady := coinReady } coin ss
        accepted assembled) := by
  have hTurn :=
    hOk.turn hLt hRuns .done nofun trivial
      coinReady hCoin
  unfold SpeedingMVBA.haltWith
  dsimp only
  split
  · exact ⟨hTurn, List.forall_mem_nil _⟩
  · refine ⟨hTurn.halted _, ?_⟩
    intro packet hMem
    rw [List.mem_singleton.mp hMem]
    exact sentOk_of_type MsgType.noConfusion

/- Two parties are needed for a quorum at least. -/
theorem maxCount_pos (hN : 2 ≤ n) : 0 < maxCount n := by
  unfold maxCount
  omega

/- The coin halts, or starts the prevotes. -/
theorem PartyOk.handleCoin
    (hN : 2 ≤ n)
    (hOk : PartyOk strict cfg id m) (hLt : l < m.started)
    (hStep : handleCoin cfg id m l = some e) :
    EffectOk strict cfg id e := by
  have hLoop := hOk.loops l hLt
  unfold SpeedingMVBA.handleCoin at hStep
  dsimp only at hStep
  split at hStep
  · rename_i coin hFinish hReady
    have hRuns : (m.loops l).finish.runs := by
      rw [hFinish]
      trivial
    rcases hLoop.coin coin hReady with ⟨hCoin, hHandles⟩
    split at hStep
    · cases hStep
      exact hOk.haltWith hLt hRuns none (.inl rfl) _ _ _ _
    · split at hStep
      · cases hStep
        refine ⟨?_, List.forall_mem_nil _⟩
        exact
          hOk.turn hLt hRuns .done nofun trivial
            none (.inl rfl)
      · cases hStep
        refine ⟨?_, ?_⟩
        · refine hOk.turn hLt hRuns _ ?_ ?_ none (.inl rfl)
          · nofun
          refine ⟨hCoin, hHandles, fun hFlag => ?_⟩
          refine (hLoop.sigmas coin).resolve_left fun hNone => ?_
          have hMany := of_decide_eq_true hFlag
          have hPos := maxCount_pos hN
          rw [hNone, List.length_nil] at hMany
          omega
        · intro packet hMem
          rw [List.mem_singleton.mp hMem]
          refine sentOk_of_type ?_
          simp only [broadcast]
          split <;> exact MsgType.noConfusion
  · cases hStep

/- The vote carries what the prevotes show. -/
theorem PartyOk.castVote
    (hCombines : Combines cfg)
    (hOk : PartyOk strict cfg id m) (hLt : l < m.started)
    (hRuns : (m.loops l).finish.runs)
    {coin : Fin n} {yesFlag : Bool}
    (hCoin : coin = cfg.coin l)
    (hHandles : (m.loops l).handlesShare = false)
    (hYes : yesFlag = true → (m.loops l).Bound cfg l coin)
    {noCombins : List Signature} {accepted : List Cert}
    (hStep :
      castVote cfg id m l (m.loops l) coin yesFlag noCombins
        accepted = some e) :
    EffectOk strict cfg id e := by
  have hTurn :
      ∀ finish : Finish n, finish ≠ .next →
        FinishOk cfg l (m.loops l) finish →
          PartyOk strict cfg id
            (m.setLoop l
              { m.loops l with finish := finish }) :=
    fun finish hTo hFinish =>
      hOk.turn hLt hRuns finish hTo hFinish _ (.inr rfl)
  unfold SpeedingMVBA.castVote at hStep
  split at hStep
  · rename_i hFlag
    cases hStep
    split
    · exact
        ⟨hTurn .done nofun trivial,
          List.forall_mem_nil _⟩
    · refine ⟨hTurn _ nofun ?_, ?_⟩
      · exact
          ⟨hCoin, hHandles, fun _ => hYes hFlag,
            List.forall_mem_nil _⟩
      · intro packet hMem
        rw [List.mem_singleton.mp hMem]
        exact sentOk_of_type MsgType.noConfusion
  · rcases Option.map_eq_some_iff.mp hStep with
      ⟨batch, _, rfl⟩
    split
    · exact
        ⟨hTurn .done nofun trivial,
          List.forall_mem_nil _⟩
    · refine ⟨hTurn _ nofun ?_, ?_⟩
      · refine
          ⟨hCoin, hHandles, fun hSome => absurd rfl hSome, ?_⟩
        intro sign hMem
        rw [List.mem_singleton.mp hMem]
        exact hCombines.usable id _
      · intro packet hMem
        rw [List.mem_singleton.mp hMem]
        exact sentOk_of_type MsgType.noConfusion

/- Counting a prevote keeps the party in order. -/
theorem PartyOk.countPrev
    (hCombines : Combines cfg)
    (hOk : PartyOk strict cfg id m) (hLt : l < m.started)
    (hRuns : (m.loops l).finish.runs)
    {coin : Fin n} {yesFlag : Bool}
    (hCoin : coin = cfg.coin l)
    (hHandles : (m.loops l).handlesShare = false)
    (hYes : yesFlag = true → (m.loops l).Bound cfg l coin)
    {noCombins : List Signature} {prevCount : Nat}
    {accepted : List Cert}
    (hStep :
      countPrev cfg id m l (m.loops l) coin yesFlag noCombins
        prevCount accepted = some e) :
    EffectOk strict cfg id e := by
  unfold SpeedingMVBA.countPrev at hStep
  split at hStep
  · exact
      hOk.castVote hCombines hLt hRuns hCoin hHandles hYes
        hStep
  · cases hStep
    refine ⟨?_, List.forall_mem_nil _⟩
    refine hOk.turn hLt hRuns _ ?_ ?_ _ (.inr rfl)
    · nofun
    · exact ⟨hCoin, hHandles, hYes⟩

/- An input and the combined signature for it are stored. -/
theorem PartyOk.replace
    (hOk : PartyOk strict cfg id m) (hLt : l < m.started)
    (hRuns : (m.loops l).finish.runs)
    {c : Fin n} {values : Bytes} {batch : BatchSignature}
    (hOwn :
      c = id →
        cfg.sha values = cfg.sha ((m.loops l).inputs id))
    (hCert : Certified cfg l c (cfg.sha values) batch) :
    PartyOk strict cfg id
      (m.setLoop l
        { m.loops l with
          inputs :=
            Function.update (m.loops l).inputs c values
          sigmas :=
            Function.update (m.loops l).sigmas c batch }) := by
  have hLoop := hOk.loops l hLt
  have hBound :
      ∀ c', c' = c ∨ (m.loops l).Bound cfg l c' →
        LoopInfo.Bound cfg l
          { m.loops l with
            inputs :=
              Function.update (m.loops l).inputs c values
            sigmas :=
              Function.update (m.loops l).sigmas c batch }
          c' := by
    intro c' hOr
    unfold LoopInfo.Bound
    dsimp only
    by_cases hEq : c' = c
    · subst hEq
      rw [Function.update_self, Function.update_self]
      exact hCert
    · rw [Function.update_of_ne hEq, Function.update_of_ne hEq]
      exact hOr.resolve_left hEq
  have hInput :
      cfg.sha
          (Function.update (m.loops l).inputs c values id) =
        cfg.sha ((m.loops l).inputs id) := by
    by_cases hEq : id = c
    · rw [← hEq, Function.update_self]
      exact hOwn hEq.symm
    · rw [Function.update_of_ne hEq]
  refine hOk.setLoop hLt ?_ ?_
  · refine
      { sigmas := ?_
        mine := ?_
        pbc := hLoop.pbc
        coin := hLoop.coin
        share := hLoop.share
        finish :=
          hLoop.finish.mono (fun h => h)
            fun c' _ h => hBound c' (.inr h) }
    · intro c'
      by_cases hEq : c' = c
      · exact .inr (hBound c' (.inl hEq))
      · rcases hLoop.sigmas c' with hNone | hOld
        · left
          dsimp only
          rw [Function.update_of_ne hEq]
          exact hNone
        · exact .inr (hBound c' (.inr hOld))
    · intro hash signs hWait
      rw [hInput]
      exact hLoop.mine hash signs hWait
  · refine
      { lastinput := rfl
        next := Iff.rfl
        done := fun h => h
        input := hInput
        share := fun hLeft => (hOk.left l hLeft).2
        stored := fun hStrict => hOk.stored hStrict l hLt
        tied := ?_ }
    intro c' hMem
    have hBefore :=
      (hOk.tied (hOk.not_ended hLt hRuns) l c' hMem).1
    rw [← hOk.loop_eq hLt hRuns] at hBefore
    exact absurd hBefore (Nat.lt_irrefl l)

/- Only the loop at hand matters for the count. -/
theorem countPrev_setLoop
    (li li₀ : LoopInfo n) (coin : Fin n) (yesFlag : Bool)
    (noCombins : List Signature) (prevCount : Nat)
    (accepted : List Cert) :
    countPrev cfg id (m.setLoop l li₀) l li coin yesFlag
        noCombins prevCount accepted =
      countPrev cfg id m l li coin yesFlag noCombins
        prevCount accepted := by
  unfold SpeedingMVBA.countPrev SpeedingMVBA.castVote
  simp only [setLoop_setLoop]
  rfl

/- A steady prevote keeps the party in order. -/
theorem PartyOk.handlePrevYes
    (hCombines : Combines cfg)
    (hOk : PartyOk strict cfg id m) (hLt : l < m.started)
    (hSteady :
      ∀ coin no count,
        (m.loops l).finish = .prev coin false no count →
          coin = id →
            cfg.sha msg.rawMsg.values =
              cfg.sha ((m.loops l).inputs id))
    (hStep : handlePrevYes cfg id m l msg = some e) :
    EffectOk strict cfg id e := by
  have hLoop := hOk.loops l hLt
  unfold SpeedingMVBA.handlePrevYes at hStep
  dsimp only at hStep
  split at hStep
  · rename_i coin yesFlag noCombins prevCount hFinish
    have hRuns : (m.loops l).finish.runs := by
      rw [hFinish]
      trivial
    have hVotes := hLoop.finish
    rw [hFinish] at hVotes
    rcases hVotes with ⟨hCoin, hHandles, hYes⟩
    split at hStep
    · rename_i hFlag
      exact
        hOk.countPrev hCombines hLt hRuns hCoin hHandles
          (fun _ => hYes hFlag) hStep
    · rename_i hFlag
      rcases Option.bind_eq_some_iff.mp hStep with
        ⟨batch, _, hStep⟩
      rcases Option.bind_eq_some_iff.mp hStep with
        ⟨res, hVerify, hStep⟩
      split at hStep
      · rename_i hRes
        rw [hRes] at hVerify
        have hFalse : yesFlag = false := by
          simpa using hFlag
        rw [hFalse] at hFinish
        let bytes :=
          cfg.marshal
            (cfg.rawMsg .pbc2 coin (cfg.sha msg.rawMsg.values)
              l)
        let li' : LoopInfo n :=
          { m.loops l with
            inputs :=
              Function.update (m.loops l).inputs coin
                msg.rawMsg.values
            sigmas :=
              Function.update (m.loops l).sigmas coin batch }
        have hReplace : PartyOk strict cfg id (m.setLoop l li') :=
          hOk.replace hLt hRuns
            (fun hSelf =>
              hSteady coin noCombins prevCount hFinish hSelf)
            hVerify
        have hStored :
            SpeedingMVBA.countPrev cfg id (m.setLoop l li') l
                ((m.setLoop l li').loops l) coin true
                noCombins (prevCount + 1)
                [(bytes, batch)] = some e := by
          rw [setLoop_same, countPrev_setLoop]
          exact hStep
        refine
          hReplace.countPrev hCombines hLt ?_ hCoin ?_ ?_
            hStored
        · rw [setLoop_same]
          exact hRuns
        · rw [setLoop_same]
          exact hHandles
        · intro _
          rw [setLoop_same]
          simp only [LoopInfo.Bound, li', Function.update_self]
          exact hVerify
      · exact
          hOk.countPrev hCombines hLt hRuns hCoin hHandles
            (by nofun) hStep
  · cases hStep

/- So does a prevote against the coin. -/
theorem PartyOk.handlePrevNo
    (hCombines : Combines cfg)
    (hOk : PartyOk strict cfg id m) (hLt : l < m.started)
    (hStep : handlePrevNo cfg id m l msg = some e) :
    EffectOk strict cfg id e := by
  have hLoop := hOk.loops l hLt
  unfold SpeedingMVBA.handlePrevNo at hStep
  dsimp only at hStep
  split at hStep
  · rename_i coin yesFlag noCombins prevCount hFinish
    have hRuns : (m.loops l).finish.runs := by
      rw [hFinish]
      trivial
    have hVotes := hLoop.finish
    rw [hFinish] at hVotes
    rcases hVotes with ⟨hCoin, hHandles, hYes⟩
    split at hStep
    · rename_i hFlag
      exact
        hOk.countPrev hCombines hLt hRuns hCoin hHandles
          (fun _ => hYes hFlag) hStep
    · rcases Option.bind_eq_some_iff.mp hStep with
        ⟨got, _, hStep⟩
      exact
        hOk.countPrev hCombines hLt hRuns hCoin hHandles
          (by nofun) hStep
  · cases hStep

theorem setLoop_self : m.setLoop l (m.loops l) = m := by
  simp [MVBA.setLoop]

/- The coin of a loop is found where it is looked up. -/
theorem PartyOk.coin_at
    (hOk : PartyOk strict cfg id m) (hStrict : strict)
    (hLt : l < m.started)
    (hHandles : (m.loops l).handlesShare = false)
    (hStored : m.coinStored cfg l = true)
    (hOpen : m.mvbaDone = false) :
    m.oldCoins[l]? = some (cfg.coin l) := by
  unfold MVBA.coinStored at hStored
  rw [hOpen, Bool.false_or, Bool.and_eq_true,
    Bool.or_eq_true, decide_eq_true_iff, decide_eq_true_iff]
    at hStored
  rcases hStored with ⟨hStores, hWaits | hCoin⟩
  · have hMany :=
      hOk.stored hStrict l hLt hHandles
        (by simpa using hStores)
    have hCoin := List.getElem?_eq_getElem hMany
    exact
      hCoin.trans
        (congrArg some
          (hOk.honest hStrict hOpen hWaits l _ hCoin))
  · exact hCoin

/- A coin that is stored is not stored again. -/
theorem storesCoin_of_coinStored
    (hStored : m.coinStored cfg l = true) :
    (m.loops l).storesCoin = false := by
  unfold MVBA.coinStored at hStored
  simpa using (Bool.and_eq_true_iff.mp hStored).1

/- The party leaves its loop with an input and its proofs. -/
theorem PartyOk.nextLoop
    (hOk : PartyOk strict cfg id m) (hLt : l < m.started)
    (hRuns : (m.loops l).finish.runs)
    (hHandles : (m.loops l).handlesShare = false)
    (hStored : strict → m.coinStored cfg l = true)
    {proofs : List (OldProof n)} {input : Bytes}
    (hCarries :
      CarriesNow cfg m (cfg.sha input) (l + 1) proofs)
    (hTied :
      ∀ k c, .sigma k c ∈ proofs → k < l + 1 ∧
        cfg.sha ((m.loops k).inputs c) = cfg.sha input)
    (accepted assembled : List Cert) :
    EffectOk strict cfg id
      (nextLoop cfg id m l (m.loops l) proofs input accepted
        assembled) := by
  have hHere := hOk.loop_eq hLt hRuns
  have hLoop := hOk.loops l hLt
  have hStores : strict → (m.loops l).storesCoin = false :=
    fun hStrict => storesCoin_of_coinStored (hStored hStrict)
  have hSent :
      ∀ packet ∈
        (SpeedingMVBA.nextLoop cfg id m l (m.loops l) proofs
          input accepted assembled).sent,
        SentOk cfg packet := by
    intro packet hMem _
    rw [List.mem_singleton.mp hMem, setLoop_self]
    exact .inr hCarries.carries
  refine ⟨?_, hSent⟩
  unfold SpeedingMVBA.nextLoop
  dsimp only
  split
  · have hEnds :=
      hOk.turn hLt hRuns .done nofun trivial _ (.inr rfl)
    have hEnded :
        MVBA.ended
          { m.setLoop l { m.loops l with finish := .done } with
            oldProofs := proofs } := by
      refine ⟨hHere ▸ hLt, ?_⟩
      simp [MVBA.setLoop, hHere]
    exact
      { loops := hEnds.loops
        ahead := hEnds.ahead
        left := hEnds.left
        here := hEnds.here
        coins := hEnds.coins
        stored := hEnds.stored
        honest := hEnds.honest
        halting := hEnds.halting
        tied := fun hNot => absurd hEnded hNot
        carries := fun hNot => absurd hEnded hNot }
  · rename_i hOpen
    have hOpen : m.mvbaDone = false := by simpa using hOpen
    let li' : LoopInfo n :=
      { m.loops l with lastinput := input, finish := .next }
    have hInputs :
        ∀ k, ((m.setLoop l li').loops k).inputs =
          (m.loops k).inputs := by
      intro k
      by_cases hEq : k = l
      · rw [hEq, setLoop_same]
      · rw [setLoop_other hEq]
    have hSigmas :
        ∀ k, ((m.setLoop l li').loops k).sigmas =
          (m.loops k).sigmas := by
      intro k
      by_cases hEq : k = l
      · rw [hEq, setLoop_same]
      · rw [setLoop_other hEq]
    have hAhead := hOk.ahead
    have hInput :
        MVBA.input
          { m.setLoop l li' with
            oldProofs := proofs
            loop := m.loop + 1 } id = input := by
      have hNot : ¬ m.loop + 1 < m.started := by omega
      have hLast : m.started - 1 = l := by omega
      unfold MVBA.input
      change
        (if m.loop + 1 < m.started then _ else
          ((m.setLoop l li').loops
            (m.started - 1)).lastinput) = input
      rw [if_neg hNot, hLast, setLoop_same]
    refine
      { loops := ?_
        ahead := ?_
        left := ?_
        here := ?_
        coins := ?_
        stored := ?_
        honest := hOk.honest
        halting := hOk.halting
        tied := ?_
        carries := ?_ }
    · intro k hk
      change LoopOk cfg id k ((m.setLoop l li').loops k)
      by_cases hEq : k = l
      · rw [hEq, setLoop_same]
        exact
          { sigmas := hLoop.sigmas
            mine := hLoop.mine
            pbc := hLoop.pbc
            coin := hLoop.coin
            share := hLoop.share
            finish := trivial }
      · rw [setLoop_other hEq]
        exact hOk.loops k hk
    · change m.loop + 1 ≤ m.started ∧ m.started ≤ m.loop + 2
      omega
    · intro k hk
      have hBefore : k < m.loop + 1 := hk
      change
        ((m.setLoop l li').loops k).finish = .next ∧
          ((m.setLoop l li').loops k).handlesShare = false ∧
            (strict →
              ((m.setLoop l li').loops k).storesCoin = false)
      by_cases hEq : k = l
      · rw [hEq, setLoop_same]
        exact ⟨rfl, hHandles, hStores⟩
      · rw [setLoop_other hEq]
        exact hOk.left k (by omega)
    · intro hMore
      have hMore : m.loop + 1 < m.started := hMore
      omega
    · intro hStrict k hk
      have hBefore : k < m.loop + 1 := hk
      by_cases hEq : k = l
      · rw [hEq]
        exact
          hOk.coin_at hStrict hLt hHandles (hStored hStrict)
            hOpen
      · exact hOk.coins hStrict k (by omega)
    · intro hStrict k hk
      change
        ((m.setLoop l li').loops k).handlesShare = false →
          ((m.setLoop l li').loops k).storesCoin = false →
            k < m.oldCoins.length
      by_cases hEq : k = l
      · rw [hEq, setLoop_same]
        exact hOk.stored hStrict l hLt
      · rw [setLoop_other hEq]
        exact hOk.stored hStrict k hk
    · intro _ k c hMem
      rcases hTied k c hMem with ⟨hBefore, hSame⟩
      rw [hInput]
      refine ⟨?_, ?_⟩
      · change k < m.loop + 1
        omega
      · change
          cfg.sha (((m.setLoop l li').loops k).inputs c) = _
        rw [hInputs]
        exact hSame
    · intro _
      rw [hInput]
      change CarriesNow cfg _ _ (m.loop + 1) proofs
      rw [← hHere]
      refine hCarries.mono ?_
      intro k c _ hCert
      change
        Certified cfg k c _
          (((m.setLoop l li').loops k).sigmas c)
      rw [hSigmas]
      exact hCert

/- Only the loop at hand matters for the count. -/
theorem countVotes_setLoop
    (li li₀ : LoopInfo n) (coin : Fin n)
    (yes no : List Signature) (values : Bytes)
    (accepted : List Cert) :
    countVotes cfg id (m.setLoop l li₀) l li coin yes no
        values accepted =
      countVotes cfg id m l li coin yes no values
        accepted := by
  unfold SpeedingMVBA.countVotes SpeedingMVBA.haltWith
    SpeedingMVBA.nextLoop
  simp only [setLoop_setLoop]
  rfl

/- The votes carry a proof into the next loop. -/
theorem PartyOk.countVotes
    (hCombines : Combines cfg)
    (hOk : PartyOk strict cfg id m) (hLt : l < m.started)
    (hRuns : (m.loops l).finish.runs)
    {coin : Fin n} {yes no : List Signature}
    (hCoin : coin = cfg.coin l)
    (hHandles : (m.loops l).handlesShare = false)
    (hStored : strict → m.coinStored cfg l = true)
    (hYes : yes ≠ [] → (m.loops l).Bound cfg l coin)
    (hNo :
      ∀ sign ∈ no, Usable cfg (cfg.tagged l .voteno) sign)
    {values : Bytes} {accepted : List Cert}
    (hStep :
      countVotes cfg id m l (m.loops l) coin yes no values
        accepted = some e) :
    EffectOk strict cfg id e := by
  have hHere := hOk.loop_eq hLt hRuns
  have hNot := hOk.not_ended hLt hRuns
  unfold SpeedingMVBA.countVotes at hStep
  split at hStep
  · rename_i hMany
    split at hStep
    · split at hStep
      · cases hStep
        exact
          hOk.haltWith hLt hRuns _ (.inr rfl) _ _ _ _
      · rcases Option.map_eq_some_iff.mp hStep with
          ⟨batch, _, rfl⟩
        exact
          hOk.haltWith hLt hRuns _ (.inr rfl) _ _ _ _
    · rename_i hFewYes
      split at hStep
      · -- the own input, with one more batch of votes no
        rename_i hManyNo
        rcases Option.map_eq_some_iff.mp hStep with
          ⟨batch, hBatch, rfl⟩
        have hSome : no ≠ [] := by
          rintro rfl
          exact Nat.not_lt_zero _ hManyNo
        have hVerify :=
          hCombines.batchSign hSome hNo hBatch
        have hInput :
            cfg.sha (m.input id) =
              cfg.sha ((m.loops l).inputs id) := by
          unfold MVBA.input
          rw [← hHere, if_pos hLt]
        have hHeld := hOk.carries hNot
        rw [hInput, ← hHere] at hHeld
        refine
          hOk.nextLoop hLt hRuns hHandles hStored
            (.no l _ batch hHeld hVerify) ?_ _ _
        intro k c hMem
        rcases List.mem_append.mp hMem with hOld | hNew
        · rcases hOk.tied hNot k c hOld with
            ⟨hBefore, hSame⟩
          exact ⟨by omega, hSame.trans hInput⟩
        · cases List.mem_singleton.mp hNew
      · -- the input of the coin, with its combined signature
        rename_i hFewNo
        cases hStep
        have hSome : yes ≠ [] := by
          rintro rfl
          rw [List.length_nil, Nat.zero_add] at hMany
          exact hFewNo hMany
        have hBound := hYes hSome
        rw [hCoin] at hBound ⊢
        refine
          hOk.nextLoop hLt hRuns hHandles hStored
            (.sigma l hBound) ?_ _ _
        intro k c hMem
        cases List.mem_singleton.mp hMem
        exact ⟨Nat.lt_succ_self l, rfl⟩
  · cases hStep
    refine ⟨?_, List.forall_mem_nil _⟩
    refine hOk.turn hLt hRuns _ ?_ ?_ _ (.inr rfl)
    · nofun
    · exact ⟨hCoin, hHandles, hYes, hNo⟩

/- A steady vote keeps the party in order. -/
theorem PartyOk.handleVoteYes
    (hCombines : Combines cfg)
    (hOk : PartyOk strict cfg id m) (hLt : l < m.started)
    (hCoinStored : strict → m.coinStored cfg l = true)
    (hSteady :
      ∀ coin yes no,
        (m.loops l).finish = .vote coin yes no →
          (coin ≠ id ∧
              ((m.loops l).inputs coin).length = 0) ∨
            cfg.sha msg.rawMsg.values =
              cfg.sha ((m.loops l).inputs coin))
    (hStep : handleVoteYes cfg id m l msg = some e) :
    EffectOk strict cfg id e := by
  have hLoop := hOk.loops l hLt
  unfold SpeedingMVBA.handleVoteYes at hStep
  dsimp only at hStep
  split at hStep
  · rename_i coin yes no hFinish
    have hRuns : (m.loops l).finish.runs := by
      rw [hFinish]
      trivial
    have hVotes := hLoop.finish
    rw [hFinish] at hVotes
    rcases hVotes with ⟨hCoin, hHandles, _, hNo⟩
    have hAllowed := hSteady coin yes no hFinish
    rcases Option.bind_eq_some_iff.mp hStep with
      ⟨cert, hAccept, hStep⟩
    rcases Option.bind_eq_some_iff.mp hStep with
      ⟨got, _, hStep⟩
    have hCert := (accept_eq_some hAccept).2
    let li' : LoopInfo n :=
      { m.loops l with
        sigmas :=
          Function.update (m.loops l).sigmas coin cert.2
        inputs :=
          if ((m.loops l).inputs coin).length = 0 then
            Function.update (m.loops l).inputs coin
              msg.rawMsg.values
          else (m.loops l).inputs }
    have hKept :
        PartyOk strict cfg id (m.setLoop l li') ∧
          li'.Bound cfg l coin := by
      simp only [LoopInfo.Bound, li', Function.update_self]
      split
      · refine ⟨hOk.replace hLt hRuns ?_ hCert, ?_⟩
        · rintro rfl
          exact
            hAllowed.resolve_left fun h => absurd rfl h.1
        · rw [Function.update_self]
          exact hCert
      · rename_i hFull
        rw [hAllowed.resolve_left fun h => hFull h.2]
          at hCert
        exact ⟨hOk.certify hLt hCert, hCert⟩
    have hStored :
        SpeedingMVBA.countVotes cfg id (m.setLoop l li') l
            ((m.setLoop l li').loops l) coin (yes ++ [got])
            no msg.rawMsg.values [cert] = some e := by
      rw [setLoop_same, countVotes_setLoop]
      exact hStep
    refine
      hKept.1.countVotes hCombines hLt ?_ hCoin ?_ ?_ ?_ hNo
        hStored
    · rw [setLoop_same]
      exact hRuns
    · rw [setLoop_same]
      exact hHandles
    · intro hStrict
      have hCoinStored := hCoinStored hStrict
      unfold MVBA.coinStored at hCoinStored ⊢
      rw [setLoop_same]
      exact hCoinStored
    · rw [setLoop_same]
      exact fun _ => hKept.2
  · cases hStep

/- So does a vote against the coin. -/
theorem PartyOk.handleVoteNo
    (hCombines : Combines cfg)
    (hOk : PartyOk strict cfg id m) (hLt : l < m.started)
    (hCoinStored : strict → m.coinStored cfg l = true)
    (hSteady : ∀ sign ∈ msg.sign, exact cfg sign = true)
    (hStep : handleVoteNo cfg id m l msg = some e) :
    EffectOk strict cfg id e := by
  have hLoop := hOk.loops l hLt
  unfold SpeedingMVBA.handleVoteNo at hStep
  dsimp only at hStep
  split at hStep
  · rename_i coin yes no hFinish
    have hRuns : (m.loops l).finish.runs := by
      rw [hFinish]
      trivial
    have hVotes := hLoop.finish
    rw [hFinish] at hVotes
    rcases hVotes with ⟨hCoin, hHandles, hYes, hNo⟩
    rcases Option.bind_eq_some_iff.mp hStep with
      ⟨cert, _, hStep⟩
    rcases Option.bind_eq_some_iff.mp hStep with
      ⟨got, hAccept, hStep⟩
    rcases acceptSign_eq_some hAccept with ⟨hSign, hVerify⟩
    refine
      hOk.countVotes hCombines hLt hRuns hCoin hHandles
        hCoinStored hYes ?_ hStep
    intro sign hMem
    rcases List.mem_append.mp hMem with hOld | hNew
    · exact hNo sign hOld
    · rw [List.mem_singleton.mp hNew]
      exact ⟨hVerify, hSteady got hSign⟩
  · cases hStep

end Votes

end SpeedingMVBA

end Jumbo

------------------------------------------------------------
-- Steps of a Party
------------------------------------------------------------

namespace Jumbo

namespace SpeedingMVBA

open Crypto (Bytes)
open Struct

variable {n : Nat}

section Party

variable {strict : Prop}
variable {cfg : Config n} {id : Fin n} {m : MVBA n}
variable {l : Nat} {msg : Msg} {e : Effect n}

/- The coin of a halt comes after those of loops left. -/
theorem PartyOk.handleHalt
    (hOk : PartyOk strict cfg id m)
    (hType : msg.rawMsg.type = .halt)
    (hStep : handleHalt cfg m msg = some e) :
    EffectOk strict cfg id e := by
  unfold SpeedingMVBA.handleHalt at hStep
  rcases Option.ite_none_right_eq_some.mp hStep with
    ⟨_, hStep⟩
  rcases Option.map_eq_some_iff.mp hStep with ⟨cert2, _, hEq⟩
  cases hEq
  refine ⟨?_, List.forall_mem_nil _⟩
  refine
    { hOk with
      coins := ?_
      stored := ?_
      honest := fun _ => nofun
      halting := by
        intro got hStored
        cases hStored
        exact hType
      carries := fun hNot =>
        (hOk.carries hNot).mono fun _ _ _ h => h }
  · intro hStrict k hk
    have hOld := hOk.coins hStrict k hk
    dsimp only
    split
    · rw [List.getElem?_append_left
        (List.getElem?_eq_some_iff.mp hOld).1]
      exact hOld
    · exact hOld
  · intro hStrict k hk hOff hDone
    have hOld := hOk.stored hStrict k hk hOff hDone
    dsimp only
    split
    · rw [List.length_append]
      omega
    · exact hOld

/- A halt that is adopted is no input. -/
theorem PartyOk.adoptHalt
    (hOk : PartyOk strict cfg id m)
    (hStep : adoptHalt cfg id m = some e) :
    EffectOk strict cfg id e := by
  unfold SpeedingMVBA.adoptHalt at hStep
  split at hStep
  · rename_i msg hStored
    rcases Option.ite_none_right_eq_some.mp hStep with
      ⟨_, hStep⟩
    rcases Option.map_eq_some_iff.mp hStep with
      ⟨cert, _, hEq⟩
    have hDone (done : Bool) (outputs : List Msg) :
        PartyOk strict cfg id
          { m with
            halt := .done, mvbaDone := done
            outputs := outputs } :=
      { hOk with
        honest := fun _ => nofun
        halting := nofun
        carries := fun hNot =>
          (hOk.carries hNot).mono fun _ _ _ h => h }
    split at hEq
    · cases hEq
      exact ⟨hDone m.mvbaDone m.outputs, List.forall_mem_nil _⟩
    · cases hEq
      refine ⟨hDone true _, ?_⟩
      intro packet hMem
      rw [List.mem_singleton.mp hMem]
      refine sentOk_of_type ?_
      change msg.rawMsg.type ≠ .pbc1
      rw [hOk.halting msg hStored]
      nofun
  · cases hStep

/- A new loop is in order. -/
theorem loopOk_new (cfg : Config n) (id : Fin n) (l : Nat)
    (input : Bytes) :
    LoopOk cfg id l (LoopInfo.new cfg id input) where
  sigmas := fun _ => .inl rfl
  mine := by
    intro hash signs hWait
    cases hWait
    refine ⟨?_, List.forall_mem_nil _⟩
    simp [LoopInfo.new]
  pbc := by simp [LoopInfo.new]
  coin := nofun
  share := fun _ => rfl
  finish := trivial

/- No proofs are held for loop 0. -/
theorem CarriesNow.nil_of_zero
    {hash : Bytes} {proofs : List (OldProof n)}
    (hCarries : CarriesNow cfg m hash l proofs)
    (hZero : l = 0) :
    proofs = [] := by
  cases hCarries with
  | start => rfl
  | sigma | no => cases hZero

/- So is the launch. -/
theorem PartyOk.launch
    (hOk : PartyOk strict cfg id m) {input : Bytes}
    (hStep : launch cfg id m input = some e) :
    EffectOk strict cfg id e := by
  unfold SpeedingMVBA.launch at hStep
  rcases Option.ite_none_right_eq_some.mp hStep with
    ⟨hNone, hEq⟩
  cases hEq
  have hLoop : m.loop = 0 := by
    have hAhead := hOk.ahead.1
    omega
  have hNil : m.oldProofs = [] := by
    refine (hOk.carries ?_).nil_of_zero hLoop
    rintro ⟨hLt, _⟩
    omega
  refine ⟨?_, ?_⟩
  · refine
      { loops := ?_
        ahead := ?_
        left := ?_
        here := ?_
        coins := ?_
        stored := ?_
        honest := hOk.honest
        halting := hOk.halting
        tied := ?_
        carries := ?_ }
    · intro k hk
      have hZero : k = 0 := Nat.lt_one_iff.mp hk
      rw [hZero]
      change LoopOk cfg id 0 ((m.setLoop 0 _).loops 0)
      rw [setLoop_same]
      exact loopOk_new cfg id 0 input
    · change m.loop ≤ 1 ∧ 1 ≤ m.loop + 1
      omega
    · intro k hk
      have hBefore : k < m.loop := hk
      omega
    · intro _
      change ((m.setLoop 0 _).loops m.loop).finish ≠ .next
      rw [hLoop, setLoop_same]
      nofun
    · intro _ k hk
      have hBefore : k < m.loop := hk
      omega
    · intro _ k hk
      have hZero : k = 0 := Nat.lt_one_iff.mp hk
      rw [hZero]
      change
        ((m.setLoop 0 _).loops 0).handlesShare = false → _
      rw [setLoop_same]
      nofun
    · intro _ k c hMem
      have hMem : OldProof.sigma k c ∈ m.oldProofs := hMem
      rw [hNil] at hMem
      cases hMem
    · intro _
      change CarriesNow cfg _ _ m.loop m.oldProofs
      rw [hLoop, hNil]
      exact .start
  · intro packet hMem _
    rw [List.mem_singleton.mp hMem]
    exact .inl rfl

/- So is the start of the next loop. -/
theorem PartyOk.startLoop
    (hOk : PartyOk strict cfg id m)
    (hStep : startLoop cfg id m = some e) :
    EffectOk strict cfg id e := by
  unfold SpeedingMVBA.startLoop at hStep
  rcases Option.ite_none_right_eq_some.mp hStep with
    ⟨⟨hPos, hLoop, _⟩, hEq⟩
  cases hEq
  have hNot : ¬ m.ended := by
    rintro ⟨hLt, _⟩
    omega
  have hBefore :
      m.input id = (m.loops (m.started - 1)).lastinput := by
    unfold MVBA.input
    rw [if_neg (by omega)]
  have hInput :
      MVBA.input
        { m.setLoop m.started
            (LoopInfo.new cfg id
              (m.loops (m.started - 1)).lastinput) with
          started := m.started + 1 } id =
        m.input id := by
    rw [hBefore]
    unfold MVBA.input
    change
      (if m.loop < m.started + 1 then
        ((m.setLoop m.started _).loops m.loop).inputs id
        else _) = _
    rw [if_pos (by omega), hLoop, setLoop_same]
    simp [LoopInfo.new]
  refine ⟨?_, List.forall_mem_nil _⟩
  refine
    { loops := ?_
      ahead := ?_
      left := ?_
      here := ?_
      coins := hOk.coins
      stored := ?_
      honest := hOk.honest
      halting := hOk.halting
      tied := ?_
      carries := ?_ }
  · intro k hk
    change LoopOk cfg id k ((m.setLoop m.started _).loops k)
    by_cases hEq : k = m.started
    · rw [hEq, setLoop_same]
      exact loopOk_new cfg id _ _
    · rw [setLoop_other hEq]
      have hOld : k < m.started + 1 := hk
      exact hOk.loops k (by omega)
  · change m.loop ≤ m.started + 1 ∧ m.started + 1 ≤ m.loop + 1
    omega
  · intro k hk
    have hLeft : k < m.loop := hk
    change
      ((m.setLoop m.started _).loops k).finish = .next ∧
        ((m.setLoop m.started _).loops k).handlesShare =
            false ∧
          (strict →
            ((m.setLoop m.started _).loops k).storesCoin =
              false)
    rw [setLoop_other (by omega)]
    exact hOk.left k hLeft
  · intro _
    change
      ((m.setLoop m.started _).loops m.loop).finish ≠ .next
    rw [hLoop, setLoop_same]
    nofun
  · intro hStrict k hk
    change
      ((m.setLoop m.started _).loops k).handlesShare = false →
        ((m.setLoop m.started _).loops k).storesCoin =
            false →
          k < m.oldCoins.length
    by_cases hEq : k = m.started
    · rw [hEq, setLoop_same]
      nofun
    · rw [setLoop_other hEq]
      have hOld : k < m.started + 1 := hk
      exact hOk.stored hStrict k (by omega)
  · intro _ k c hMem
    rcases hOk.tied hNot k c hMem with ⟨hLeft, hSame⟩
    refine ⟨hLeft, ?_⟩
    rw [hInput]
    change
      cfg.sha (((m.setLoop m.started _).loops k).inputs c) = _
    rw [setLoop_other (by omega)]
    exact hSame
  · intro _
    rw [hInput]
    refine (hOk.carries hNot).mono ?_
    intro k c hMem hCert
    have hLeft := (hOk.tied hNot k c hMem).1
    change
      Certified cfg k c _
        (((m.setLoop m.started _).loops k).sigmas c)
    rw [setLoop_other (by omega)]
    exact hCert

/- All goroutines of the party return. -/
theorem PartyOk.returned
    (hOk : PartyOk strict cfg id m) :
    PartyOk strict cfg id { m with returned := true } :=
  { hOk with
    carries := fun hNot =>
      (hOk.carries hNot).mono fun _ _ _ h => h }

/-
  What the handlers ask of a message, so that what is held
  for a party stays with the input stored for it.
-/
def Reads
    (strict : Prop) (cfg : Config n) (id : Fin n)
    (m : MVBA n) (msg : Msg) : Prop :=
  let l := msg.rawMsg.loop
  let li := m.loops l
  let values := msg.rawMsg.values
  match msg.rawMsg.type with
  | .pbc1 =>
      ∀ leader, index n msg.rawMsg.id = some leader →
        m.holds l leader = true →
          cfg.sha values = cfg.sha (li.inputs leader)
  | .pbc2 => ∀ sign ∈ msg.sign, exact cfg sign = true
  | .pbc3 =>
      ∀ leader, index n msg.rawMsg.id = some leader →
        values = cfg.sha (li.inputs leader)
  | .pi =>
      ∀ leader, index n msg.rawMsg.id = some leader →
        leader = id ∨ m.holds l leader = true →
          cfg.sha values = cfg.sha (li.inputs leader)
  | .prevYes =>
      ∀ coin no count,
        li.finish = .prev coin false no count → coin = id →
          cfg.sha values = cfg.sha (li.inputs id)
  | .voteYes =>
      (strict → m.coinStored cfg l = true) ∧
        ∀ coin yes no, li.finish = .vote coin yes no →
          (coin ≠ id ∧ (li.inputs coin).length = 0) ∨
            cfg.sha values = cfg.sha (li.inputs coin)
  | .voteNo =>
      (strict → m.coinStored cfg l = true) ∧
        ∀ sign ∈ msg.sign, exact cfg sign = true
  | _ => True

/- A steady message meets it. -/
theorem reads_of_steady
    (hSteady : steadyMsg cfg id m msg = true) :
    Reads True cfg id m msg := by
  unfold steadyMsg at hSteady
  unfold Reads
  cases hType : msg.rawMsg.type with
  | pbc1 =>
      simp only [hType] at hSteady ⊢
      intro leader hIndex hHolds
      simpa [hIndex, hHolds, LoopInfo.sameInput] using hSteady
  | pbc2 =>
      simp only [hType] at hSteady ⊢
      exact (Option.all_eq_true _ _).mp hSteady
  | pbc3 =>
      simp only [hType] at hSteady ⊢
      intro leader hIndex
      simpa [hIndex] using hSteady
  | pi =>
      simp only [hType] at hSteady ⊢
      intro leader hIndex hHeld
      rw [hIndex] at hSteady
      rcases Bool.or_eq_true_iff.mp hSteady with hFree | hSame
      · exfalso
        rcases hHeld with rfl | hHolds
        · simp at hFree
        · simp [hHolds] at hFree
      · exact of_decide_eq_true hSame
  | prevYes =>
      simp only [hType] at hSteady ⊢
      intro coin no count hFinish hOwn
      rw [hFinish] at hSteady
      simpa [hOwn, LoopInfo.sameInput] using hSteady
  | voteYes =>
      simp only [hType] at hSteady ⊢
      rcases Bool.and_eq_true_iff.mp hSteady with
        ⟨hStores, hVote⟩
      refine ⟨fun _ => hStores, ?_⟩
      intro coin yes no hFinish
      rw [hFinish] at hVote
      simpa [LoopInfo.sameInput] using hVote
  | voteNo =>
      simp only [hType] at hSteady ⊢
      rcases Bool.and_eq_true_iff.mp hSteady with
        ⟨hStores, hExact⟩
      exact
        ⟨fun _ => hStores,
          (Option.all_eq_true _ _).mp hExact⟩
  | pbc4 | share | prevNo | halt => trivial

/- A message of a loop is read where it is allowed. -/
theorem PartyOk.receiveLoop
    (hCombines : Combines cfg)
    (hOk : PartyOk strict cfg id m)
    (hLt : msg.rawMsg.loop < m.started)
    (hReads : Reads strict cfg id m msg)
    (hStep : receiveLoop cfg id m msg = some e) :
    EffectOk strict cfg id e := by
  unfold SpeedingMVBA.receiveLoop at hStep
  unfold Reads at hReads
  cases hType : msg.rawMsg.type with
  | pbc1 =>
      simp only [hType] at hStep hReads
      rcases Option.bind_eq_some_iff.mp hStep with
        ⟨leader, hIndex, hStep⟩
      exact hOk.handlePBC1 hLt (hReads leader hIndex) hStep
  | pbc2 =>
      simp only [hType] at hStep hReads
      exact hOk.handleMinePBC2 hCombines hLt hReads hStep
  | pbc3 =>
      simp only [hType] at hStep hReads
      rcases Option.bind_eq_some_iff.mp hStep with
        ⟨leader, hIndex, hStep⟩
      exact hOk.handlePBC3 hLt (hReads leader hIndex) hStep
  | pbc4 =>
      simp only [hType] at hStep
      exact hOk.handleMinePBC4 hLt hStep
  | pi =>
      simp only [hType] at hStep hReads
      exact hOk.handlePi hLt hReads hStep
  | share =>
      simp only [hType] at hStep
      exact hOk.handleShare hLt hStep
  | prevYes =>
      simp only [hType] at hStep hReads
      exact hOk.handlePrevYes hCombines hLt hReads hStep
  | prevNo =>
      simp only [hType] at hStep
      exact hOk.handlePrevNo hCombines hLt hStep
  | voteYes =>
      simp only [hType] at hStep hReads
      exact
        hOk.handleVoteYes hCombines hLt hReads.1 hReads.2
          hStep
  | voteNo =>
      simp only [hType] at hStep hReads
      exact
        hOk.handleVoteNo hCombines hLt hReads.1 hReads.2 hStep
  | halt =>
      simp only [hType] at hStep
      cases hStep

/- A message that is allowed keeps the party in order. -/
theorem PartyOk.receive
    (hCombines : Combines cfg)
    (hOk : PartyOk strict cfg id m)
    (hReads : Reads strict cfg id m msg)
    (hStep : receive cfg id m msg = some e) :
    EffectOk strict cfg id e := by
  unfold SpeedingMVBA.receive at hStep
  split at hStep
  · cases hStep
  · split at hStep
    · rename_i hType
      exact hOk.handleHalt hType hStep
    · rcases Option.ite_none_right_eq_some.mp hStep with
        ⟨hLt, hStep⟩
      exact hOk.receiveLoop hCombines hLt hReads hStep

/- A step of a party keeps the invariant. -/
theorem PartyOk.step
    (hN : 2 ≤ n) (hCombines : Combines cfg)
    (hOk : PartyOk strict cfg id m) {a : PartyAction n}
    (hReads :
      ∀ msg, a = .receive msg → Reads strict cfg id m msg)
    (hStep : step cfg id m a = some e) :
    EffectOk strict cfg id e := by
  unfold SpeedingMVBA.step at hStep
  split at hStep
  · cases hStep
  · cases a with
    | launch input => exact hOk.launch hStep
    | startLoop => exact hOk.startLoop hStep
    | receive msg =>
        exact hOk.receive hCombines (hReads msg rfl) hStep
    | adoptHalt => exact hOk.adoptHalt hStep
    | returnAll =>
        rcases Option.ite_none_right_eq_some.mp hStep with
          ⟨_, hEq⟩
        cases hEq
        exact ⟨hOk.returned, List.forall_mem_nil _⟩
    | sendPBC2 l leader =>
        rcases Option.ite_none_right_eq_some.mp hStep with
          ⟨hLt, hStep⟩
        exact hOk.sendPBC2 hLt hStep
    | sendPBC4 l leader =>
        rcases Option.ite_none_right_eq_some.mp hStep with
          ⟨hLt, hStep⟩
        exact hOk.sendPBC4 hLt hStep
    | returnPBC l leader =>
        rcases Option.ite_none_right_eq_some.mp hStep with
          ⟨hLt, hStep⟩
        exact hOk.returnPBC hLt hStep
    | sendPBC3 l =>
        rcases Option.ite_none_right_eq_some.mp hStep with
          ⟨hLt, hStep⟩
        exact hOk.sendPBC3 hLt hStep
    | returnMinePBC l =>
        rcases Option.ite_none_right_eq_some.mp hStep with
          ⟨hLt, hStep⟩
        exact hOk.returnMinePBC hLt hStep
    | sendShare l =>
        rcases Option.ite_none_right_eq_some.mp hStep with
          ⟨hLt, hStep⟩
        exact hOk.sendShare hLt hStep
    | shareMine l =>
        rcases Option.ite_none_right_eq_some.mp hStep with
          ⟨hLt, hStep⟩
        exact hOk.handleShareMine hLt hStep
    | storeCoin l =>
        rcases Option.ite_none_right_eq_some.mp hStep with
          ⟨hLt, hStep⟩
        exact hOk.storeCoin hLt hStep
    | coin l =>
        rcases Option.ite_none_right_eq_some.mp hStep with
          ⟨hLt, hStep⟩
        exact hOk.handleCoin hN hLt hStep

theorem partyOk_new (cfg : Config n) (id : Fin n) :
    PartyOk strict cfg id (MVBA.new cfg id) where
  loops := fun _ hLt => absurd hLt (Nat.not_lt_zero _)
  ahead := ⟨Nat.le_refl 0, Nat.zero_le _⟩
  left := fun _ hLt => absurd hLt (Nat.not_lt_zero _)
  here := fun hLt => absurd hLt (Nat.not_lt_zero _)
  coins := fun _ _ hLt => absurd hLt (Nat.not_lt_zero _)
  stored := fun _ _ hLt => absurd hLt (Nat.not_lt_zero _)
  honest := by
    intro _ _ _ i c hCoin
    cases hCoin
  halting := nofun
  tied := by
    intro _ l c hMem
    cases hMem
  carries := fun _ => .start

end Party

end SpeedingMVBA

end Jumbo

------------------------------------------------------------
-- Inputs of Later Loops
------------------------------------------------------------

namespace Jumbo

namespace SpeedingMVBA

open Crypto (Bytes)
open Protocol
open Struct

variable {n : Nat}

/- Every party is well, and so is all that has been sent. -/
structure PartiesOk
    (strict : Prop) (cfg : Config n) (s : Parties n) :
    Prop where
  party : ∀ id, PartyOk strict cfg id (s.party id)
  sent : ∀ packet ∈ s.sent, SentOk cfg packet

section Inputs

variable {strict : Prop}
variable {cfg : Config n} {s s' : Parties n}

/- Every step whose message is allowed keeps all in order. -/
theorem PartiesOk.step
    (hN : 2 ≤ n) (hCombines : Combines cfg)
    (hOk : PartiesOk strict cfg s) {a : PartiesAction n}
    (hReads :
      ∀ id msg, s.actor a = some (id, .receive msg) →
        Reads strict cfg id (s.party id) msg)
    (hExec : (parties cfg).exec s a = some s') :
    PartiesOk strict cfg s' := by
  rcases Option.bind_eq_some_iff.mp hExec with
    ⟨⟨id, act⟩, hActor, hMap⟩
  rcases Option.map_eq_some_iff.mp hMap with ⟨e, hStep, rfl⟩
  have hMsg :
      ∀ msg, act = .receive msg →
        Reads strict cfg id (s.party id) msg := by
    rintro msg rfl
    exact hReads id msg hActor
  have hEffect :=
    (hOk.party id).step hN hCombines hMsg hStep
  refine ⟨fun q => ?_, fun packet hMem => ?_⟩
  · change
      PartyOk strict cfg q
        (Function.update s.party id e.mvba q)
    by_cases hEq : q = id
    · subst hEq
      rw [Function.update_self]
      exact hEffect.1
    · rw [Function.update_of_ne hEq]
      exact hOk.party q
  · rcases List.mem_append.mp hMem with hOld | hNew
    · exact hOk.sent packet hOld
    · exact hEffect.2 packet hNew

/- What a steady step reads. -/
theorem steadyMsg_of_steady
    {a : PartiesAction n} (hSteady : steady cfg s a = true)
    {id : Fin n} {msg : Msg}
    (hActor : s.actor a = some (id, .receive msg)) :
    steadyMsg cfg id (s.party id) msg = true := by
  unfold steady at hSteady
  rw [hActor] at hSteady
  exact hSteady

/- Nobody has done anything yet. -/
theorem partiesOk_new (cfg : Config n) :
    PartiesOk strict cfg (Parties.new cfg) :=
  ⟨partyOk_new cfg, List.forall_mem_nil _⟩

/- It holds in every steady run. -/
theorem reachable_partiesOk
    (hN : 2 ≤ n) (hCombines : Combines cfg)
    (hReach :
      (parties cfg).ReachableBy
        (fun s a => steady cfg s a = true) s) :
    PartiesOk True cfg s := by
  refine hReach.invariant (PartiesOk True cfg) ?_ ?_
  · exact partiesOk_new cfg
  · intro s a s' _ hOk hSteady hExec
    exact
      hOk.step hN hCombines
        (fun _ _ hActor =>
          reads_of_steady (steadyMsg_of_steady hSteady hActor))
        hExec

/-
  In a run whose messages are steady, the proofs that go with
  an input of a later loop make `check_values` accept it at
  every other party in that loop.
-/
theorem inputs_accepted
    (hCombines : Combines cfg)
    (hReach :
      (parties cfg).ReachableBy
        (fun s a => steady cfg s a = true) s)
    {packet : Packet n} (hSent : packet ∈ s.sent)
    (hType : packet.msg.rawMsg.type = .pbc1)
    {q : Fin n} (hOther : q ≠ packet.src)
    (hIn : packet.msg.rawMsg.loop < (s.party q).started) :
    (checkValues cfg (s.party q).oldCoins
      packet.msg.rawMsg.loop packet.msg).isSome := by
  have hN : 2 ≤ n := by
    by_contra hOne
    exact hOther (Fin.ext (by omega))
  have hOk := reachable_partiesOk hN hCombines hReach
  have hParty := hOk.party q
  rcases hOk.sent packet hSent hType with hZero | hCarries
  · rw [hZero]
    rfl
  · refine hCarries.checkValues fun i hi => ?_
    refine hParty.coins trivial i ?_
    have hAhead := hParty.ahead.2
    omega

end Inputs

end SpeedingMVBA

end Jumbo

------------------------------------------------------------
-- A Leader That Sends Two Inputs
------------------------------------------------------------

namespace Jumbo

namespace SpeedingMVBA

open Crypto (Bytes)
open Protocol
open Struct

theorem four_voters : 0 < 4 := by
  decide

/- 64 bytes of a number, a message and zeros. -/
def paddedSign (id : Fin 4) (msg : Bytes) : Bytes :=
  (UInt8.ofNat id.val :: msg ++ List.replicate 64 0).take 64

/- The coin of every loop is party 1, which is Byzantine. -/
def paddedConfig : Config 4 where
  pos := four_voters
  prim :=
    Crypto.verifyOnly fun id sign msg =>
      decide (sign = paddedSign id msg)
  type := .ecdsa
  sign := paddedSign
  sha := fun bytes => bytes
  marshal := fun msg =>
    UInt8.ofNat msg.type.ctorIdx ::
      UInt8.ofNat msg.id.toNat :: UInt8.ofNat msg.loop ::
        msg.values
  round := 0
  mvbaRound := 0
  rbc := false
  checkInput := fun _ => true

/- The numbers of four parties are known. -/
theorem key_four :
    ∀ id : Fin 4,
      Crypto.key 4 (Int32.ofNat (id.val + 1)) = some id := by
  decide

/- A signature has 64 bytes. -/
theorem length_paddedSign (id : Fin 4) (msg : Bytes) :
    (paddedSign id msg).length = 64 := by
  unfold paddedSign
  rw [List.length_take, List.length_append,
    List.length_replicate]
  omega

/- The signatures can be put together. -/
theorem paddedConfig_combines : Combines paddedConfig where
  own := by
    intro id msg
    have hLength := length_paddedSign id msg
    have hNe : paddedSign id msg ≠ [] := by
      intro hNil
      rw [hNil] at hLength
      cases hLength
    have hTake :
        (paddedSign id msg).take 64 = paddedSign id msg :=
      List.take_of_length_le (Nat.le_of_eq hLength)
    unfold verifySign SpeedingMVBA.sign
    rw [key_four, Option.bind_some]
    simp [paddedConfig, Crypto.verify, Crypto.verifyOnly, hNe,
      hTake]
  length := .inr length_paddedSign
  aggregate := by
    intro parts msg agg _ _ hNever
    cases hNever
  blsAggregate := by
    intro parts msg agg _ _ hNever
    cases hNever

/- What the Byzantine party signs of a message. -/
def byzSigned (rawMsg : RawMsg) : Msg where
  rawMsg := rawMsg
  sign := some (sign paddedConfig 1 (paddedConfig.marshal rawMsg))

/-
  The input of a leader is certified, with one other party and
  the Byzantine one. Its first message is number `i`, and the
  next message sent is number `k`.
-/
def certifyInput
    (leader other : Fin 4) (input : Bytes) (i k : Nat) :
    List (PartiesAction 4) :=
  [.relay other i,
    .act other (.sendPBC2 0 leader),
    .relay leader k,
    .act leader
      (.receive
        (byzSigned (paddedConfig.rawMsg .pbc2 leader input 0))),
    .act leader (.sendPBC3 0),
    .relay other (k + 1),
    .act other (.sendPBC4 0 leader),
    .relay leader (k + 2),
    .act leader
      (.receive
        (byzSigned (paddedConfig.rawMsg .pbc4 leader input 0)))]

/- The input of party 1, as it sends it. -/
def byzInput (input : Bytes) : Msg where
  rawMsg := paddedConfig.rawMsg .pbc1 1 input 0

/- A combined signature of parties that have all signed. -/
def combined (ids : List (Fin 4)) (bytes : Bytes) :
    Option BatchSignature :=
  batchSign paddedConfig bytes
    (ids.map fun id => sign paddedConfig id bytes)

/- Party 1 has its first input certified by parties 0 and 2. -/
def byzCertified : Msg where
  rawMsg := paddedConfig.rawMsg .pbc3 1 [1] 0
  ss :=
    combined [0, 2, 1]
      (paddedConfig.marshal
        (paddedConfig.rawMsg .pbc2 1 [1] 0))

/- Its share of the coin. -/
def byzShare : Msg where
  rawMsg := paddedConfig.rawMsg .share 1 [] 0
  sign := some (sign paddedConfig 1 (paddedConfig.share 0))
  ss := combined [0, 2, 3] (paddedConfig.tagged 0 .ok)

/- Its prevote against the coin. -/
def byzPrevNo : Msg where
  rawMsg := paddedConfig.rawMsg .prevNo 1 [] 0
  sign :=
    some (sign paddedConfig 1 (paddedConfig.tagged 0 .prevno))

/- The parties that follow the code. -/
def correctVoters : List (Fin 4) := [0, 2, 3]

/-
  Party 1 sends `[1]` to parties 0 and 2 and `input` to party
  3, and the combined signature for `[1]` to party 0 only.
  Parties 2 and 3 vote no, party 3 reads one vote yes, and
  all of them go on to the next loop.
-/
def voteRun (input : Bytes) : List (PartiesAction 4) :=
  ([.act 0 (.launch [10]), .act 2 (.launch [12]),
    .act 3 (.launch [13])] : List (PartiesAction 4)) ++
  certifyInput 0 2 [10] 0 3 ++
  certifyInput 2 3 [12] 1 7 ++
  certifyInput 3 0 [13] 2 11 ++
  ([.act 0 (.receive (byzInput [1])), .act 0 (.sendPBC2 0 1),
    .act 2 (.receive (byzInput [1])), .act 2 (.sendPBC2 0 1),
    .act 3 (.receive (byzInput input)),
    .act 0 (.receive byzCertified)] : List (PartiesAction 4)) ++
  -- pi and shares
  ([.relay 0 10, .relay 0 14, .relay 2 6, .relay 2 14,
    .relay 3 6, .relay 3 10] : List (PartiesAction 4)) ++
  (correctVoters.flatMap fun id =>
    [.act id (.sendShare 0), .act id (.shareMine 0)]
      : List (PartiesAction 4)) ++
  ([.relay 0 18, .relay 2 19, .relay 3 17]
    : List (PartiesAction 4)) ++
  (correctVoters.flatMap fun id =>
    [.act id (.receive byzShare), .act id (.storeCoin 0),
      .act id (.coin 0)] : List (PartiesAction 4)) ++
  -- party 0 votes yes, parties 3 and 2 vote no
  ([.relay 0 21, .relay 0 22, .relay 3 21,
    .act 3 (.receive byzPrevNo), .relay 2 22,
    .act 2 (.receive byzPrevNo)] : List (PartiesAction 4)) ++
  ([.relay 3 23, .relay 3 25, .relay 2 23, .relay 2 24,
    .act 2 .startLoop] : List (PartiesAction 4))

/- Where the steady run ends. -/
def steadyState : Parties 4 :=
  (parties paddedConfig).drive (steady paddedConfig)
    (parties paddedConfig).init (voteRun [1])

/- Party 3 has sent an input, and party 2 is in loop 1. -/
theorem steadyState_sent :
    ∃ packet, steadyState.sent[26]? = some packet ∧
      packet.msg.rawMsg.type = .pbc1 ∧ 2 ≠ packet.src ∧
        packet.msg.rawMsg.loop = 1 ∧
          1 < (steadyState.party 2).started := by
  decide +kernel

/- The input of the next loop is accepted there. -/
theorem inputs_accepted_steady :
    ∃ packet ∈ steadyState.sent,
      packet.msg.rawMsg.loop = 1 ∧
        (checkValues paddedConfig
          (steadyState.party 2).oldCoins 1
            packet.msg).isSome := by
  rcases steadyState_sent with
    ⟨packet, hSent, hType, hOther, hLoop, hIn⟩
  have hReach :
      (parties paddedConfig).ReachableBy
        (fun s a => steady paddedConfig s a = true)
        steadyState :=
    Machine.ReachableBy.drive .init (voteRun [1])
  have hAccepted :=
    inputs_accepted paddedConfig_combines hReach
      (List.mem_of_getElem? hSent) hType hOther
      (by rw [hLoop]; exact hIn)
  rw [hLoop] at hAccepted
  exact
    ⟨packet, List.mem_of_getElem? hSent, hLoop, hAccepted⟩

/- Where the run with another input ends. -/
def splitState : Parties 4 :=
  (parties paddedConfig).drive (fun _ _ => true)
    (parties paddedConfig).init (voteRun [2])

/- Party 3 sends `[2]` with the signature for `[1]`. -/
theorem splitState_sent :
    ∃ packet, splitState.sent[26]? = some packet ∧
      packet.msg.rawMsg.type = .pbc1 ∧ 2 ≠ packet.src ∧
        packet.msg.rawMsg.loop = 1 ∧
          1 < (splitState.party 2).started ∧
            checkValues paddedConfig
              (splitState.party 2).oldCoins 1 packet.msg =
                none := by
  decide +kernel

/- An input of a correct party is refused there. -/
theorem inputs_not_accepted :
    ¬ ∀ (n : Nat) (cfg : Config n) (s : Parties n),
      Combines cfg → (parties cfg).Reachable s →
        ∀ packet ∈ s.sent, packet.msg.rawMsg.type = .pbc1 →
          ∀ q, q ≠ packet.src →
            packet.msg.rawMsg.loop < (s.party q).started →
              (checkValues cfg (s.party q).oldCoins
                packet.msg.rawMsg.loop packet.msg).isSome := by
  intro hAll
  rcases splitState_sent with
    ⟨packet, hSent, hType, hOther, hLoop, hIn, hNone⟩
  have hAccepted :=
    hAll 4 paddedConfig splitState paddedConfig_combines
      (Machine.reachable_drive _ (voteRun [2])) packet
      (List.mem_of_getElem? hSent) hType 2 hOther
      (by rw [hLoop]; exact hIn)
  rw [hLoop, hNone] at hAccepted
  cases hAccepted

end SpeedingMVBA

end Jumbo
