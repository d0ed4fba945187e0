import Jumbo.SpeedingMVBA.NextLoop
import Jumbo.SpeedingMVBA.Quorums

/-
  Which certificates of the speeding MVBA are quorums.

  In a run that reads certificates of enough parties, counts
  nobody twice and counts votes for one value together, every
  certificate that is accepted and every one that is put
  together is one of a quorum. The code asks for none of it:
  an empty certificate is accepted.

  Main declarations:
    * `step_quorums`
    * `certificates_quorate`
    * `certificates_not_quorate`
-/

------------------------------------------------------------
-- Votes and Halts
------------------------------------------------------------

namespace Jumbo

namespace SpeedingMVBA

open Crypto (Bytes)
open Struct

variable {n : Nat} {cfg : Config n} {id : Fin n}
variable {signed : Fin n → Bytes → Prop}
variable {m : MVBA n} {l : Nat} {li : LoopInfo n}
variable {msg : Msg} {e : Effect n}
variable {accepted assembled : List Cert}

/- `handle_finish` is at another place. -/
theorem LoopQuorums.setFinish
    {inputs : Fin n → Bytes}
    {sigmas : Fin n → BatchSignature}
    {coinReady : Option (Fin n)} {lastinput : Bytes}
    {finish : Finish n}
    (hLoop : LoopQuorums cfg id signed l li)
    (hFinish : FinishQuorums cfg id signed l finish) :
    LoopQuorums cfg id signed l
      { li with
        inputs := inputs
        sigmas := sigmas
        coinReady := coinReady
        lastinput := lastinput
        finish := finish } :=
  ⟨hLoop.mine, hLoop.ok, hLoop.okCount, hLoop.okOwn,
    hLoop.shares, hLoop.unsent, hLoop.shareMine, hFinish⟩

/- A loop that has ended. -/
theorem PartyQuorums.ended
    (hParty : PartyQuorums cfg id signed m)
    (hLoop : LoopQuorums cfg id signed l li) :
    PartyQuorums cfg id signed
      (m.setLoop l { li with finish := .done }) :=
  hParty.setLoop (hLoop.setFinish trivial)

/- A halt adds no certificate. -/
theorem haltWith_quorums
    {coin : Fin n} {ss : BatchSignature}
    (hParty : PartyQuorums cfg id signed m)
    (hLoop : LoopQuorums cfg id signed l li)
    (hAccepted : ∀ cert ∈ accepted, Backed signed cert.1)
    (hAssembled :
      ∀ cert ∈ assembled, Collected cfg id signed cert) :
    EffectQuorums cfg id signed
      (haltWith cfg id m l li coin ss accepted assembled) := by
  have hEnded := hParty.ended hLoop
  unfold haltWith
  dsimp only
  split
  · exact ⟨hEnded, hAccepted, hAssembled⟩
  · exact
      ⟨hEnded.of_same rfl rfl, hAccepted, hAssembled⟩

/- With the coin the party tells what it holds. -/
theorem handleCoin_quorums
    (hSmall : n < 2 ^ 31)
    (hParty : PartyQuorums cfg id signed m)
    (hStep : handleCoin cfg id m l = some e) :
    EffectQuorums cfg id signed e := by
  have hLoop := hParty.loops l
  unfold handleCoin at hStep
  dsimp only at hStep
  split at hStep
  · rename_i coin hFinish _
    split at hStep
    · cases hStep
      have hTaken :
          LoopQuorums cfg id signed l
            { m.loops l with coinReady := none } :=
        hLoop.setFinish hLoop.finish
      exact
        haltWith_quorums hParty hTaken (List.forall_mem_nil _)
          (List.forall_mem_nil _)
    · split at hStep
      · cases hStep
        exact
          .plain (hParty.setLoop (hLoop.setFinish trivial))
      · cases hStep
        refine
          .plain (hParty.setLoop (hLoop.setFinish ?_))
        intro hNo
        rw [hNo]
        exact
          ⟨rfl,
            listed_nil.own hSmall (List.forall_mem_nil _)⟩
  · cases hStep

/- The vote no comes with the prevotes against the coin. -/
theorem castVote_quorums
    (hSmall : n < 2 ^ 31) {coin : Fin n} {yesFlag : Bool}
    {noCombins : List Signature} {prevCount : Nat}
    (hParty : PartyQuorums cfg id signed m)
    (hLoop : LoopQuorums cfg id signed l li)
    (hAccepted : ∀ cert ∈ accepted, Backed signed cert.1)
    (hMany : maxCount n ≤ prevCount)
    (hNo :
      FinishQuorums cfg id signed l
        (.prev coin yesFlag noCombins prevCount))
    (hStep :
      castVote cfg id m l li coin yesFlag noCombins accepted =
        some e) :
    EffectQuorums cfg id signed e := by
  have hEnded := hParty.ended hLoop
  have hOne : 2 ≤ n → 1 ≤ maxCount n := by
    unfold maxCount
    omega
  have hSingle :
      ∀ bytes,
        Listed cfg id signed bytes [sign cfg id bytes] :=
    fun bytes =>
      listed_nil.own hSmall (List.forall_mem_nil _)
  unfold castVote at hStep
  dsimp only at hStep
  split at hStep
  · cases hStep
    split
    · exact ⟨hEnded, hAccepted, List.forall_mem_nil _⟩
    · refine
        ⟨hParty.setLoop
            (hLoop.setFinish ⟨hOne, ?_, ?_, listed_nil⟩),
          hAccepted, List.forall_mem_nil _⟩
      · intro s hs
        exact .inl ⟨_, List.mem_singleton.mp hs⟩
      · exact List.nodup_singleton _
  · rename_i hFlag
    rcases hNo (Bool.eq_false_of_not_eq_true hFlag) with
      ⟨hLength, hListed⟩
    rcases Option.map_eq_some_iff.mp hStep with
      ⟨batch, hBatch, rfl⟩
    have hCert :
        ∀ cert ∈
            ([(cfg.tagged l .prevno, batch)] : List Cert),
          Collected cfg id signed cert := by
      intro cert hMem
      rw [List.mem_singleton.mp hMem]
      refine ⟨_, hBatch, ?_, hListed⟩
      rw [hLength]
      exact Nat.lt_succ_of_le hMany
    split
    · exact ⟨hEnded, hAccepted, hCert⟩
    · refine
        ⟨hParty.setLoop
            (hLoop.setFinish
              ⟨hOne, List.forall_mem_nil _, .nil,
                hSingle _⟩),
          hAccepted, hCert⟩

/- Another party has told what it holds. -/
theorem countPrev_quorums
    (hSmall : n < 2 ^ 31) {coin : Fin n} {yesFlag : Bool}
    {noCombins : List Signature} {prevCount : Nat}
    (hParty : PartyQuorums cfg id signed m)
    (hLoop : LoopQuorums cfg id signed l li)
    (hAccepted : ∀ cert ∈ accepted, Backed signed cert.1)
    (hNo :
      FinishQuorums cfg id signed l
        (.prev coin yesFlag noCombins prevCount))
    (hStep :
      countPrev cfg id m l li coin yesFlag noCombins prevCount
          accepted =
        some e) :
    EffectQuorums cfg id signed e := by
  unfold countPrev at hStep
  split at hStep
  · rename_i hMany
    exact
      castVote_quorums hSmall hParty hLoop hAccepted hMany hNo
        hStep
  · cases hStep
    exact
      ⟨hParty.setLoop (hLoop.setFinish hNo), hAccepted,
        List.forall_mem_nil _⟩

/- A party that holds a certificate counts no prevote no. -/
theorem finishQuorums_yes
    {coin : Fin n} {noCombins : List Signature}
    {prevCount : Nat} :
    FinishQuorums cfg id signed l
      (.prev coin true noCombins prevCount) := by
  intro hNo
  cases hNo

/- A prevote for the coin may bring a certificate. -/
theorem handlePrevYes_quorums
    (hSmall : n < 2 ^ 31)
    (hParty : PartyQuorums cfg id signed m)
    (hAuthentic : Authentic cfg signed msg)
    (hEnough :
      ∀ coin noCombins prevCount,
        (m.loops l).finish =
            .prev coin false noCombins prevCount →
          ∀ batch, msg.ss = some batch →
            verifySigns cfg
                (cfg.marshal
                  (cfg.rawMsg .pbc2 coin
                    (cfg.sha msg.rawMsg.values) l))
                batch = some true →
              enough n batch = true)
    (hStep : handlePrevYes cfg id m l msg = some e) :
    EffectQuorums cfg id signed e := by
  have hLoop := hParty.loops l
  unfold handlePrevYes at hStep
  dsimp only at hStep
  split at hStep
  · rename_i coin yesFlag noCombins prevCount hPrev
    have hFinish := hLoop.finish
    rw [hPrev] at hFinish
    split at hStep
    · exact
        countPrev_quorums hSmall hParty hLoop
          (List.forall_mem_nil _) finishQuorums_yes hStep
    · rename_i hFlag
      have hFlag : yesFlag = false :=
        Bool.eq_false_of_not_eq_true hFlag
      subst hFlag
      rcases Option.bind_eq_some_iff.mp hStep with
        ⟨batch, hBatch, hStep⟩
      rcases Option.bind_eq_some_iff.mp hStep with
        ⟨res, hVerify, hStep⟩
      split at hStep
      · rename_i hRes
        rw [hRes] at hVerify
        refine
          countPrev_quorums hSmall hParty
            (hLoop.setFinish hLoop.finish) ?_
            finishQuorums_yes hStep
        intro cert hCert
        rw [List.mem_singleton.mp hCert]
        exact
          backed_of_verify (hAuthentic.ss batch hBatch)
            (hEnough _ _ _ hPrev batch hBatch hVerify) hVerify
      · exact
          countPrev_quorums hSmall hParty hLoop
            (List.forall_mem_nil _) hFinish hStep
  · cases hStep

/- A prevote against the coin is a signature. -/
theorem handlePrevNo_quorums
    (hSmall : n < 2 ^ 31)
    (hParty : PartyQuorums cfg id signed m)
    (hAuthentic : Authentic cfg signed msg)
    (hFresh :
      ∀ coin noCombins prevCount,
        (m.loops l).finish =
            .prev coin false noCombins prevCount →
          msg.sign.all (fresh id noCombins) = true)
    (hStep : handlePrevNo cfg id m l msg = some e) :
    EffectQuorums cfg id signed e := by
  have hLoop := hParty.loops l
  unfold handlePrevNo at hStep
  dsimp only at hStep
  split at hStep
  · rename_i coin yesFlag noCombins prevCount hPrev
    have hFinish := hLoop.finish
    rw [hPrev] at hFinish
    split at hStep
    · exact
        countPrev_quorums hSmall hParty hLoop
          (List.forall_mem_nil _) finishQuorums_yes hStep
    · rename_i hFlag
      have hFlag : yesFlag = false :=
        Bool.eq_false_of_not_eq_true hFlag
      subst hFlag
      rcases Option.bind_eq_some_iff.mp hStep with
        ⟨got, hAccept, hStep⟩
      rcases hFinish rfl with ⟨hLength, hListed⟩
      have hMore :=
        (hListed.count hAuthentic.sign (hFresh _ _ _ hPrev)
          hAccept).1
      refine
        countPrev_quorums hSmall hParty hLoop
          (List.forall_mem_nil _) (fun _ => ⟨?_, hMore⟩) hStep
      rw [List.length_append, hLength, List.length_singleton]
  · cases hStep

/- The party goes on to the next loop. -/
theorem nextLoop_quorums
    {proofs : List (OldProof n)} {input : Bytes}
    (hParty : PartyQuorums cfg id signed m)
    (hLoop : LoopQuorums cfg id signed l li)
    (hAccepted : ∀ cert ∈ accepted, Backed signed cert.1)
    (hAssembled :
      ∀ cert ∈ assembled, Collected cfg id signed cert) :
    EffectQuorums cfg id signed
      (nextLoop cfg id m l li proofs input accepted
        assembled) := by
  have hEnded := hParty.ended hLoop
  have hLeft :
      PartyQuorums cfg id signed
        (m.setLoop l
          { li with lastinput := input, finish := .next }) :=
    hParty.setLoop (hLoop.setFinish trivial)
  refine ⟨?_, hAccepted, hAssembled⟩
  unfold nextLoop
  dsimp only
  split
  · exact hEnded.of_same rfl rfl
  · exact hLeft.of_same rfl rfl

/- The votes are counted, yes and no apart. -/
theorem countVotes_quorums
    {coin : Fin n} {yes no : List Signature} {values : Bytes}
    (hParty : PartyQuorums cfg id signed m)
    (hLoop : LoopQuorums cfg id signed l li)
    (hAccepted : ∀ cert ∈ accepted, Backed signed cert.1)
    (hYes :
      maxCount n < yes.length →
        Listed cfg id signed
          (cfg.marshal
            (cfg.rawMsg .pbc4 coin (cfg.sha values) l)) yes)
    (hVoted : ∀ sign ∈ yes, Voted cfg id signed sign)
    (hDistinct :
      (yes.map fun sign => Crypto.key n sign.id).Nodup)
    (hNo : Listed cfg id signed (cfg.tagged l .voteno) no)
    (hStep :
      countVotes cfg id m l li coin yes no values accepted =
        some e) :
    EffectQuorums cfg id signed e := by
  unfold countVotes at hStep
  dsimp only at hStep
  split at hStep
  · split at hStep
    · rename_i hMany
      split at hStep
      · cases hStep
        exact
          haltWith_quorums hParty hLoop hAccepted
            (List.forall_mem_nil _)
      · rcases Option.map_eq_some_iff.mp hStep with
          ⟨batch, hBatch, rfl⟩
        refine haltWith_quorums hParty hLoop hAccepted ?_
        intro cert hCert
        rw [List.mem_singleton.mp hCert]
        exact ⟨_, hBatch, hMany, hYes hMany⟩
    · split at hStep
      · rename_i hMany
        rcases Option.map_eq_some_iff.mp hStep with
          ⟨batch, hBatch, rfl⟩
        refine nextLoop_quorums hParty hLoop hAccepted ?_
        intro cert hCert
        rw [List.mem_singleton.mp hCert]
        exact ⟨_, hBatch, hMany, hNo⟩
      · cases hStep
        exact
          nextLoop_quorums hParty hLoop hAccepted
            (List.forall_mem_nil _)
  · rename_i hFew
    cases hStep
    refine
      ⟨hParty.setLoop
          (hLoop.setFinish
            ⟨fun _ => Nat.le_of_not_lt hFew, hVoted,
              hDistinct, hNo⟩),
        hAccepted, List.forall_mem_nil _⟩

/- A vote that is counted is vouched for these bytes too. -/
theorem vouched_of_sameVote
    (hSmall : n < 2 ^ 31) {bytes : Bytes} {old : Signature}
    (hVoted : Voted cfg id signed old)
    (hSame : sameVote cfg id bytes old = true) :
    Vouched cfg id signed bytes old := by
  rcases Bool.or_eq_true_iff.mp hSame with hOwn | hBoth
  · exact .inl (of_decide_eq_true hOwn)
  · rcases Bool.and_eq_true_iff.mp hBoth with
      ⟨hOther, hVerify⟩
    have hOther := of_decide_eq_true hOther
    rcases verifySign_eq_some (of_decide_eq_true hVerify) with
      ⟨j, hKey, hOne⟩
    rcases hVoted with ⟨bytes', rfl⟩ | hGenuine
    · exact absurd (key_sign hSmall bytes') hOther
    · refine .inr ⟨j, ?_, hKey, hGenuine.single hOne⟩
      rintro rfl
      exact hOther hKey

/- A vote for the coin is for the values of those before. -/
theorem handleVoteYes_quorums
    (hSmall : n < 2 ^ 31)
    (hParty : PartyQuorums cfg id signed m)
    (hAuthentic : Authentic cfg signed msg)
    (hVote :
      ∀ coin yes no, (m.loops l).finish = .vote coin yes no →
        msg.ss.all (enough n) = true ∧
          msg.sign.all (fresh id yes) = true ∧
            ∀ old ∈ yes,
              sameVote cfg id
                (cfg.marshal
                  (cfg.rawMsg .pbc4 coin
                    (cfg.sha msg.rawMsg.values) l))
                old = true)
    (hStep : handleVoteYes cfg id m l msg = some e) :
    EffectQuorums cfg id signed e := by
  have hLoop := hParty.loops l
  unfold handleVoteYes at hStep
  dsimp only at hStep
  split at hStep
  · rename_i coin yes no hAt
    rcases hVote coin yes no hAt with
      ⟨hEnough, hFresh, hSame⟩
    have hFinish := hLoop.finish
    rw [hAt] at hFinish
    rcases hFinish with ⟨-, hVoted, hDistinct, hNo⟩
    rcases Option.bind_eq_some_iff.mp hStep with
      ⟨cert, hCert, hStep⟩
    rcases Option.bind_eq_some_iff.mp hStep with
      ⟨got, hGot, hStep⟩
    rcases vouched_of_accept hAuthentic.sign hFresh hGot with
      ⟨hNew, hGenuine, hVouched⟩
    rcases fresh_iff.mp hNew with ⟨-, hNew⟩
    have hListed :
        Listed cfg id signed
          (cfg.marshal
            (cfg.rawMsg .pbc4 coin
              (cfg.sha msg.rawMsg.values) l)) yes :=
      ⟨fun old hOld =>
          vouched_of_sameVote hSmall (hVoted old hOld)
            (hSame old hOld),
        hDistinct⟩
    refine
      countVotes_quorums hParty
        (hLoop.setFinish hLoop.finish) ?_
        (fun _ => hListed.append hVouched hNew) ?_
        (distinct_append hDistinct hNew) hNo hStep
    · intro c hc
      rw [List.mem_singleton.mp hc]
      exact backed_of_accept hAuthentic.ss hEnough hCert
    · intro s hs
      rcases List.mem_append.mp hs with hOld | hLast
      · exact hVoted s hOld
      · rw [List.mem_singleton.mp hLast]
        exact .inr hGenuine
  · cases hStep

/- A vote against it completes no batch of votes yes. -/
theorem handleVoteNo_quorums
    (hParty : PartyQuorums cfg id signed m)
    (hAuthentic : Authentic cfg signed msg)
    (hVote :
      ∀ coin yes no, (m.loops l).finish = .vote coin yes no →
        msg.ss.all (enough n) = true ∧
          msg.sign.all (fresh id no) = true)
    (hStep : handleVoteNo cfg id m l msg = some e) :
    EffectQuorums cfg id signed e := by
  have hLoop := hParty.loops l
  unfold handleVoteNo at hStep
  dsimp only at hStep
  split at hStep
  · rename_i coin yes no hAt
    rcases hVote coin yes no hAt with ⟨hEnough, hFresh⟩
    have hFinish := hLoop.finish
    rw [hAt] at hFinish
    rcases hFinish with ⟨hFew, hVoted, hDistinct, hNo⟩
    rcases Option.bind_eq_some_iff.mp hStep with
      ⟨cert, hCert, hStep⟩
    rcases Option.bind_eq_some_iff.mp hStep with
      ⟨got, hGot, hStep⟩
    rcases hNo.count hAuthentic.sign hFresh hGot with
      ⟨hMore, hOther⟩
    -- the vote is of another party, so there are two
    have hTwo : 2 ≤ n := by
      rcases verifySign_eq_some (acceptSign_eq_some hGot).2 with
        ⟨j, hKey, -⟩
      have hNe : j ≠ id := by
        rintro rfl
        exact hOther hKey
      have hLt := j.isLt
      have hLt' := id.isLt
      have hVal : j.val ≠ id.val := fun h => hNe (Fin.ext h)
      omega
    refine
      countVotes_quorums hParty hLoop ?_ ?_ hVoted hDistinct
        hMore hStep
    · intro c hc
      rw [List.mem_singleton.mp hc]
      exact backed_of_accept hAuthentic.ss hEnough hCert
    · intro hMany
      have hLe := hFew hTwo
      omega
  · cases hStep

/- A halt brings the certificate of the coin. -/
theorem handleHalt_quorums
    (hParty : PartyQuorums cfg id signed m)
    (hAuthentic : Authentic cfg signed msg)
    (hEnough :
      msg.ss.all (enough n) = true ∧
        msg.ss2.all (enough n) = true)
    (hStep : handleHalt cfg m msg = some e) :
    EffectQuorums cfg id signed e := by
  unfold handleHalt at hStep
  rcases Option.ite_none_right_eq_some.mp hStep with
    ⟨-, hStep⟩
  rcases Option.map_eq_some_iff.mp hStep with
    ⟨cert, hAccept, rfl⟩
  refine
    { party := ⟨hParty.loops, ?_⟩
      accepted := ?_
      assembled := List.forall_mem_nil _ }
  · intro msg' hStored batch hBatch
    cases hStored
    refine ⟨hAuthentic.ss batch hBatch, ?_⟩
    have hAll := hEnough.1
    rw [hBatch] at hAll
    exact hAll
  · intro c hc
    rw [List.mem_singleton.mp hc]
    exact backed_of_accept hAuthentic.ss2 hEnough.2 hAccept

/- Adopting it looks at the certificate for the values. -/
theorem adoptHalt_quorums
    (hParty : PartyQuorums cfg id signed m)
    (hStep : adoptHalt cfg id m = some e) :
    EffectQuorums cfg id signed e := by
  unfold adoptHalt at hStep
  split at hStep
  · rename_i msg hStored
    dsimp only at hStep
    rcases Option.ite_none_right_eq_some.mp hStep with
      ⟨-, hStep⟩
    rcases Option.map_eq_some_iff.mp hStep with
      ⟨cert, hAccept, rfl⟩
    have hBacked :
        ∀ c ∈ [cert], Backed signed c.1 := by
      intro c hc
      rw [List.mem_singleton.mp hc]
      rcases accept_eq_some hAccept with ⟨hBatch, -⟩
      refine
        backed_of_accept
          (fun b hb => (hParty.halt msg hStored b hb).1) ?_
          hAccept
      rw [hBatch]
      exact (hParty.halt msg hStored cert.2 hBatch).2
    split
    · exact
        ⟨⟨hParty.loops, nofun⟩, hBacked,
          List.forall_mem_nil _⟩
    · exact
        ⟨⟨hParty.loops, nofun⟩, hBacked,
          List.forall_mem_nil _⟩
  · cases hStep

end SpeedingMVBA

end Jumbo

------------------------------------------------------------
-- Runs
------------------------------------------------------------

namespace Jumbo

namespace SpeedingMVBA

open Crypto (Bytes)
open Protocol
open Struct

variable {n : Nat} {cfg : Config n} {id : Fin n}
variable {signed : Fin n → Bytes → Prop}
variable {m : MVBA n} {msg : Msg} {e : Effect n}

/- A message of a loop that is started. -/
theorem receiveLoop_quorums
    (hSmall : n < 2 ^ 31)
    (hParty : PartyQuorums cfg id signed m)
    (hAuthentic : Authentic cfg signed msg)
    (hQuorum : quorumMsg cfg id m msg = true)
    (hStep : receiveLoop cfg id m msg = some e) :
    EffectQuorums cfg id signed e := by
  unfold receiveLoop at hStep
  unfold quorumMsg at hQuorum
  cases hType : msg.rawMsg.type with
  | pbc1 =>
      simp only [hType] at hStep hQuorum
      rcases Option.bind_eq_some_iff.mp hStep with
        ⟨leader, -, hStep⟩
      refine
        handlePBC1_quorums hParty hAuthentic ?_ hStep
      rcases Bool.or_eq_true_iff.mp hQuorum with hZero | hAll
      · exact .inl (of_decide_eq_true hZero)
      · exact .inr (List.all_eq_true.mp hAll)
  | pbc2 =>
      simp only [hType] at hStep hQuorum
      refine
        handleMinePBC2_quorums hSmall hParty hAuthentic ?_
          hStep
      intro hash signs hWait
      rw [hWait] at hQuorum
      exact hQuorum
  | pbc3 =>
      simp only [hType] at hStep hQuorum
      rcases Option.bind_eq_some_iff.mp hStep with
        ⟨leader, -, hStep⟩
      exact
        handlePBC3_quorums hParty hAuthentic hQuorum hStep
  | pbc4 =>
      simp only [hType] at hStep hQuorum
      refine
        handleMinePBC4_quorums hSmall hParty hAuthentic ?_
          hStep
      intro hash signs hWait
      rw [hWait] at hQuorum
      exact hQuorum
  | pi =>
      simp only [hType] at hStep hQuorum
      rcases Bool.and_eq_true_iff.mp hQuorum with
        ⟨hEnough, hFresh⟩
      exact
        handlePi_quorums hParty hAuthentic hEnough hFresh
          hStep
  | share =>
      simp only [hType] at hStep hQuorum
      rcases Bool.and_eq_true_iff.mp hQuorum with
        ⟨hEnough, hFresh⟩
      exact
        handleShare_quorums hParty hAuthentic hEnough hFresh
          hStep
  | prevYes =>
      simp only [hType] at hStep hQuorum
      refine
        handlePrevYes_quorums hSmall hParty hAuthentic ?_
          hStep
      intro coin no count hFinish batch hBatch hVerify
      rw [hFinish, hBatch] at hQuorum
      simpa [hVerify] using hQuorum
  | prevNo =>
      simp only [hType] at hStep hQuorum
      refine
        handlePrevNo_quorums hSmall hParty hAuthentic ?_ hStep
      intro coin no count hFinish
      rw [hFinish] at hQuorum
      exact hQuorum
  | voteYes =>
      simp only [hType] at hStep hQuorum
      refine
        handleVoteYes_quorums hSmall hParty hAuthentic ?_
          hStep
      intro coin yes no hFinish
      rw [hFinish] at hQuorum
      simp only [Bool.and_eq_true] at hQuorum
      rcases hQuorum with ⟨⟨hEnough, hFresh⟩, hSame⟩
      exact ⟨hEnough, hFresh, List.all_eq_true.mp hSame⟩
  | voteNo =>
      simp only [hType] at hStep hQuorum
      refine
        handleVoteNo_quorums hParty hAuthentic ?_ hStep
      intro coin yes no hFinish
      rw [hFinish] at hQuorum
      exact Bool.and_eq_true_iff.mp hQuorum
  | halt =>
      simp only [hType] at hStep
      cases hStep

/- Every step of a party keeps what it has collected. -/
theorem step_quorums
    (hSmall : n < 2 ^ 31)
    (hParty : PartyQuorums cfg id signed m)
    {a : PartyAction n}
    (hReads :
      ∀ msg, a = .receive msg →
        Authentic cfg signed msg ∧
          quorumMsg cfg id m msg = true)
    (hStep : step cfg id m a = some e) :
    EffectQuorums cfg id signed e := by
  unfold step at hStep
  rcases Option.ite_none_left_eq_some.mp hStep with
    ⟨-, hStep⟩
  cases a with
  | launch input =>
      rcases Option.ite_none_right_eq_some.mp hStep with
        ⟨-, hEq⟩
      cases hEq
      have hNew :=
        hParty.setLoop (loopQuorums_new (l := 0) input)
      exact .plain (hNew.of_same rfl rfl)
  | startLoop =>
      rcases Option.ite_none_right_eq_some.mp hStep with
        ⟨-, hEq⟩
      cases hEq
      have hNew :=
        hParty.setLoop
          (loopQuorums_new (l := m.started)
            (m.loops (m.started - 1)).lastinput)
      exact .plain (hNew.of_same rfl rfl)
  | receive msg =>
      rcases hReads msg rfl with ⟨hAuthentic, hQuorum⟩
      change receive cfg id m msg = some e at hStep
      unfold receive at hStep
      rcases Option.ite_none_left_eq_some.mp hStep with
        ⟨-, hStep⟩
      split at hStep
      · rename_i hType
        simp only [quorumMsg, hType, Bool.and_eq_true]
          at hQuorum
        exact
          handleHalt_quorums hParty hAuthentic hQuorum hStep
      · rcases Option.ite_none_right_eq_some.mp hStep with
          ⟨-, hStep⟩
        exact
          receiveLoop_quorums hSmall hParty hAuthentic hQuorum
            hStep
  | adoptHalt => exact adoptHalt_quorums hParty hStep
  | returnAll =>
      rcases Option.ite_none_right_eq_some.mp hStep with
        ⟨-, hEq⟩
      cases hEq
      exact .plain (hParty.of_same rfl rfl)
  | sendPBC2 l leader =>
      exact
        sendPBC2_quorums hParty
          (Option.ite_none_right_eq_some.mp hStep).2
  | sendPBC4 l leader =>
      exact
        sendPBC4_quorums hParty
          (Option.ite_none_right_eq_some.mp hStep).2
  | returnPBC l leader =>
      exact
        returnPBC_quorums hParty
          (Option.ite_none_right_eq_some.mp hStep).2
  | sendPBC3 l =>
      exact
        sendPBC3_quorums hParty
          (Option.ite_none_right_eq_some.mp hStep).2
  | returnMinePBC l =>
      exact
        returnMinePBC_quorums hParty
          (Option.ite_none_right_eq_some.mp hStep).2
  | sendShare l =>
      exact
        sendShare_quorums hParty
          (Option.ite_none_right_eq_some.mp hStep).2
  | shareMine l =>
      exact
        handleShareMine_quorums hSmall hParty
          (Option.ite_none_right_eq_some.mp hStep).2
  | storeCoin l =>
      exact
        storeCoin_quorums hParty
          (Option.ite_none_right_eq_some.mp hStep).2
  | coin l =>
      exact
        handleCoin_quorums hSmall hParty
          (Option.ite_none_right_eq_some.mp hStep).2

variable {s s' : Parties n} {a : PartiesAction n}
variable {act : PartyAction n}

/- What the party that steps reads. -/
theorem reads_of_quorate
    (hActor : s.actor a = some (id, act))
    (hIdeal : Ideal cfg signed s a)
    (hQuorate : quorate cfg s a = true) :
    ∀ msg, act = .receive msg →
      Authentic cfg signed msg ∧
        quorumMsg cfg id (s.party id) msg = true := by
  rintro msg rfl
  refine ⟨hIdeal id msg hActor, ?_⟩
  unfold quorate at hQuorate
  rw [hActor] at hQuorate
  exact hQuorate

/- It holds at every party, in every run. -/
theorem reachable_partyQuorums
    (hSmall : n < 2 ^ 31)
    (hReach :
      (parties cfg).ReachableBy
        (fun s a =>
          Ideal cfg signed s a ∧ quorate cfg s a = true) s)
    (id : Fin n) :
    PartyQuorums cfg id signed (s.party id) := by
  refine
    hReach.invariant
      (fun s => ∀ id, PartyQuorums cfg id signed (s.party id))
      ?_ ?_ id
  · intro id
    exact ⟨fun l => loopQuorums_new l [], nofun⟩
  · intro s a s' _ hAll hOk hExec q
    rcases Option.bind_eq_some_iff.mp hExec with
      ⟨⟨id, act⟩, hActor, hMap⟩
    rcases Option.map_eq_some_iff.mp hMap with ⟨e, hStep, rfl⟩
    have hEffect :=
      step_quorums hSmall (hAll id)
        (reads_of_quorate hActor hOk.1 hOk.2) hStep
    change
      PartyQuorums cfg q signed
        (Function.update s.party id e.mvba q)
    by_cases hEq : q = id
    · subst hEq
      rw [Function.update_self]
      exact hEffect.party
    · rw [Function.update_of_ne hEq]
      exact hAll q

/-
  In a run that reads certificates of enough parties and
  nobody's signature twice, what a step accepts has been
  signed by a quorum, and what it puts together is made of
  the signatures of one.
-/
theorem certificates_quorate
    (hSmall : n < 2 ^ 31)
    (hReach :
      (parties cfg).ReachableBy
        (fun s a =>
          Ideal cfg signed s a ∧ quorate cfg s a = true) s)
    (hActor : s.actor a = some (id, act))
    (hIdeal : Ideal cfg signed s a)
    (hQuorate : quorate cfg s a = true)
    (hStep : step cfg id (s.party id) act = some e) :
    (∀ cert ∈ e.accepted, Backed signed cert.1) ∧
      ∀ cert ∈ e.assembled, Collected cfg id signed cert := by
  have hEffect :=
    step_quorums hSmall (reachable_partyQuorums hSmall hReach id)
      (reads_of_quorate hActor hIdeal hQuorate) hStep
  exact ⟨hEffect.accepted, hEffect.assembled⟩

end SpeedingMVBA

end Jumbo

------------------------------------------------------------
-- A Certificate of Three, and One of Nobody
------------------------------------------------------------

namespace Jumbo

namespace SpeedingMVBA

open Crypto (Bytes)
open Protocol
open Struct

/- All parts of 64 bytes are among the signatures made. -/
def known (made : List Bytes) (signs : Bytes) : Bool :=
  (List.range (signs.length / 64)).all fun i =>
    decide ((signs.drop (64 * i)).take 64 ∈ made)

/- All parts of a message are among the signatures made. -/
def knownMsg (made : List Bytes) (msg : Msg) : Bool :=
  msg.sign.all (fun sign => known made sign.content) &&
    msg.ss.all (fun batch => known made batch.signs) &&
      msg.ss2.all (fun batch => known made batch.signs) &&
        msg.oldProof.all fun proof =>
          proof.batchSigns.all fun batch =>
            known made batch.signs

/- Parts that are among them are genuine. -/
theorem genuine_of_known
    {made : List Bytes} {signs : Bytes}
    (hKnown : known made signs = true) :
    Crypto.Genuine paddedConfig.prim
      (fun id msg => paddedSign id msg ∈ made) signs := by
  refine Crypto.genuine_verifyOnly ?_
  intro id i msg hVerify
  have hPart := of_decide_eq_true hVerify
  have hLength := length_paddedSign id msg
  rw [← hPart, List.length_take, List.length_drop] at hLength
  have hIndex : i < signs.length / 64 := by omega
  have hMem :=
    List.all_eq_true.mp hKnown i (List.mem_range.mpr hIndex)
  rw [← hPart]
  exact of_decide_eq_true hMem

/- So are those of a message. -/
theorem authentic_of_known
    {made : List Bytes} {msg : Msg}
    (hKnown : knownMsg made msg = true) :
    Authentic paddedConfig
      (fun id msg => paddedSign id msg ∈ made) msg := by
  simp only [knownMsg, Bool.and_eq_true, List.all_eq_true]
    at hKnown
  rcases hKnown with ⟨⟨⟨hSign, hSs⟩, hSs2⟩, hProofs⟩
  refine
    { sign := ?_
      ss := ?_
      ss2 := ?_
      oldProof := ?_ }
  · intro sign hEq
    rw [hEq] at hSign
    exact genuine_of_known hSign
  · intro batch hEq
    rw [hEq] at hSs
    exact genuine_of_known hSs
  · intro batch hEq
    rw [hEq] at hSs2
    exact genuine_of_known hSs2
  · intro proof hMem batch hEq
    have hAll := hProofs proof hMem
    rw [hEq] at hAll
    exact genuine_of_known hAll

/- The messages of a step are known and of quorums. -/
def knownQuorate
    (made : List Bytes) (s : Parties 4)
    (a : PartiesAction 4) : Bool :=
  quorate paddedConfig s a &&
    (s.actor a).all fun (_, a) =>
      match a with
      | .receive msg => knownMsg made msg
      | _ => true

/- Such a step meets the conditions. -/
theorem meets_of_knownQuorate
    (made : List Bytes) (s : Parties 4)
    (a : PartiesAction 4)
    (hBoth : knownQuorate made s a = true) :
    Ideal paddedConfig
        (fun id msg => paddedSign id msg ∈ made) s a ∧
      quorate paddedConfig s a = true := by
  rcases Bool.and_eq_true_iff.mp hBoth with
    ⟨hQuorate, hKnown⟩
  refine ⟨?_, hQuorate⟩
  intro id msg hActor
  rw [hActor] at hKnown
  exact authentic_of_known hKnown

/- The string that a party signs for an input. -/
def inputBytes (leader : Fin 4) (input : Bytes) : Bytes :=
  paddedConfig.marshal
    (paddedConfig.rawMsg .pbc2 leader input 0)

/- Party 2 has signed the input of party 0. -/
def signedByTwo : Msg where
  rawMsg := paddedConfig.rawMsg .pbc2 0 [10] 0
  sign := some (sign paddedConfig 2 (inputBytes 0 [10]))

/- All signatures that others have made. -/
def madeSigns : List Bytes :=
  ([1, 2] : List (Fin 4)).map
      (fun id => paddedSign id (inputBytes 0 [10])) ++
    ([0, 2, 1] : List (Fin 4)).map fun id =>
      paddedSign id (inputBytes 1 [1])

/-
  Party 0 has been given the input of party 1 and the
  signature of party 1 on its own input.
-/
def collectState : Parties 4 :=
  (parties paddedConfig).drive (knownQuorate madeSigns)
    (parties paddedConfig).init
    [.act 0 (.launch [10]), .act 0 (.receive (byzInput [1])),
      .act 0 (.sendPBC2 0 1),
      .act 0
        (.receive
          (byzSigned (paddedConfig.rawMsg .pbc2 0 [10] 0)))]

/- It is reached by steps that meet the conditions. -/
theorem collectState_reachable :
    (parties paddedConfig).ReachableBy
      (fun s a =>
        Ideal paddedConfig
            (fun id msg => paddedSign id msg ∈ madeSigns) s
            a ∧
          quorate paddedConfig s a = true) collectState :=
  (Machine.ReachableBy.drive .init _).mono
    (meets_of_knownQuorate madeSigns)

/- Party 0 reads a message there. -/
def readAt (s : Parties 4) (msg : Msg) : Option (Effect 4) :=
  step paddedConfig 0 (s.party 0) (.receive msg)

/-
  A certificate of three parties is accepted and backed, and
  one is put together from three signatures.
-/
theorem certificates_quorate_three :
    (∃ e, readAt collectState byzCertified = some e ∧
      e.accepted.length = 1 ∧
        ∀ cert ∈ e.accepted,
          Backed
            (fun id msg => paddedSign id msg ∈ madeSigns)
            cert.1) ∧
      ∃ e, readAt collectState signedByTwo = some e ∧
        e.assembled.length = 1 ∧
          ∀ cert ∈ e.assembled,
            Collected paddedConfig 0
              (fun id msg => paddedSign id msg ∈ madeSigns)
              cert := by
  have hFirst :
      (readAt collectState byzCertified).map
          (·.accepted.length) = some 1 := by
    decide +kernel
  have hSecond :
      (readAt collectState signedByTwo).map
          (·.assembled.length) = some 1 := by
    decide +kernel
  rcases Option.map_eq_some_iff.mp hFirst with
    ⟨e, hStep, hOne⟩
  rcases Option.map_eq_some_iff.mp hSecond with
    ⟨e', hStep', hOne'⟩
  have hMeets :=
    meets_of_knownQuorate madeSigns collectState
      (.act 0 (.receive byzCertified)) (by decide +kernel)
  have hMeets' :=
    meets_of_knownQuorate madeSigns collectState
      (.act 0 (.receive signedByTwo)) (by decide +kernel)
  exact
    ⟨⟨e, hStep, hOne,
      (certificates_quorate (by decide) collectState_reachable
        rfl hMeets.1 hMeets.2 hStep).1⟩,
      e', hStep', hOne',
      (certificates_quorate (by decide) collectState_reachable
        rfl hMeets'.1 hMeets'.2 hStep').2⟩

/- The third message of party 1 with an empty certificate. -/
def emptyCertified : Msg where
  rawMsg := paddedConfig.rawMsg .pbc3 1 [1] 0
  ss := some ⟨[], []⟩

/- Where party 0 has signed the input of party 1. -/
def answeredState : Parties 4 :=
  (parties paddedConfig).drive (fun _ _ => true)
    (parties paddedConfig).init
    [.act 0 (.launch [10]), .act 0 (.receive (byzInput [1])),
      .act 0 (.sendPBC2 0 1)]

/- Nothing in it is a signature. -/
theorem emptyCertified_authentic :
    Authentic paddedConfig (fun id _ => id = 0)
      emptyCertified where
  sign := nofun
  ss := by
    intro batch hBatch
    cases hBatch
    have hNone : known [] [] = true := by decide
    exact (genuine_of_known hNone).mono fun _ _ => nofun
  ss2 := nofun
  oldProof := List.forall_mem_nil _

/-
  The empty certificate is accepted, although party 0 alone
  has signed.
-/
theorem certificates_not_quorate :
    ¬ ∀ (n : Nat) (cfg : Config n)
        (signed : Fin n → Bytes → Prop) (s : Parties n)
        (a : PartiesAction n) (id : Fin n)
        (act : PartyAction n) (e : Effect n),
      n < 2 ^ 31 → (parties cfg).Reachable s →
        s.actor a = some (id, act) → Ideal cfg signed s a →
          step cfg id (s.party id) act = some e →
            ∀ cert ∈ e.accepted, Backed signed cert.1 := by
  intro hAll
  have hSome :
      (readAt answeredState emptyCertified).map
          (·.accepted.length) = some 1 := by
    decide +kernel
  rcases Option.map_eq_some_iff.mp hSome with
    ⟨e, hStep, hOne⟩
  have hIdeal :
      Ideal paddedConfig (fun id _ => id = 0) answeredState
        (.act 0 (.receive emptyCertified)) := by
    intro id msg hActor
    cases hActor
    exact emptyCertified_authentic
  have hBacked :=
    hAll 4 paddedConfig (fun id _ => id = 0) answeredState
      (.act 0 (.receive emptyCertified)) 0
      (.receive emptyCertified) e (by decide)
      (Machine.reachable_drive _ _) rfl hIdeal hStep
  rcases List.length_eq_one_iff.mp hOne with ⟨cert, hCert⟩
  rw [hCert] at hBacked
  rcases hBacked cert List.mem_cons_self with
    ⟨signers, hMany, hSigned⟩
  have hFew : signers.card ≤ 1 :=
    Finset.card_le_one.mpr fun i hi j hj =>
      (hSigned i hi).trans (hSigned j hj).symm
  have hMax : maxCount 4 = 2 := rfl
  omega

end SpeedingMVBA

end Jumbo
