import Jumbo.SpeedingMVBA.Phases

/-
  The votes of a loop, against the log.

  A party refuses the leader only when it holds no combined
  signature for it, votes no after a quorum has refused, and
  halts or leaves the loop on what a quorum has sent.

  Main declarations:
    * `LoopStep.handleCoin`
    * `LoopStep.castVote`
    * `LoopStep.countVotes`
    * `LoopStep.handleVoteYes` and `LoopStep.handleVoteNo`
-/

------------------------------------------------------------
-- Halting
------------------------------------------------------------

namespace Jumbo

namespace SpeedingMVBA

namespace Agreement

open Crypto (Bytes)
open Protocol
open Struct

variable {n : Nat}

section Halt

variable {cfg : Config n} {id : Fin n} {log : Log n}
variable {m : MVBA n} {l : Nat} {li : LoopInfo n}

/- A loop has three phases after the coin. -/
theorem rank_le (finish : Finish n) : rank finish ≤ 3 := by
  cases finish <;> simp [rank]

/- `handle_finish` has returned. -/
theorem LoopOk.setDone
    (hOk : LoopOk cfg id log l li) :
    LoopOk cfg id log l { li with finish := .done } :=
  { hOk with finish := trivial }

/- The end is the last phase. -/
theorem Later.setDone
    {li₀ : LoopInfo n} (hLater : Later li₀ li) :
    Later li₀ { li with finish := .done } :=
  { hLater with rank := rank_le _ }

/- The values of a settled loop are output. -/
theorem LoopStep.haltWith
    (hOk : LoopOk cfg id log l li)
    (hLater : Later (m.loops l) li)
    (hRuns : (m.loops l).finish ≠ .next)
    (hSettled : Settled cfg log l)
    (hInput :
      Input log l (cfg.coin l) (li.inputs (cfg.coin l)))
    (ss : BatchSignature) (accepted assembled : List Cert) :
    LoopStep cfg id log m l
      (haltWith cfg id m l li (cfg.coin l) ss accepted
        assembled).mvba
      (haltWith cfg id m l li (cfg.coin l) ss accepted
        assembled).sent := by
  have hNext :
      (Finish.done : Finish n) = .next ↔
        (m.loops l).finish = .next :=
    ⟨nofun, fun h => absurd h hRuns⟩
  unfold SpeedingMVBA.haltWith
  dsimp only
  split
  · exact .quiet hOk.setDone hLater.setDone hNext
  · have hHalt :
        HaltOk cfg log
          { rawMsg :=
              cfg.rawMsg .halt (cfg.coin l)
                (li.inputs (cfg.coin l)) l
            ss := some ss
            ss2 := some li.shareBatch } :=
      ⟨hInput, hSettled⟩
    refine
      .stay rfl rfl rfl rfl ?_
        (hOk.setDone.mono (grows_posted _)) hLater.setDone
        hNext (Nat.le_refl _)
        (List.forall_mem_singleton.mpr
          (.plain rfl rfl hHalt))
    intro msg hMem
    rcases List.mem_append.mp hMem with hOld | hNew
    · exact .inl hOld
    · rw [List.mem_singleton.mp hNew]
      exact .inr hHalt

end Halt

end Agreement

end SpeedingMVBA

end Jumbo

------------------------------------------------------------
-- The Coin
------------------------------------------------------------

namespace Jumbo

namespace SpeedingMVBA

namespace Agreement

open Crypto (Bytes)
open Protocol
open Struct

variable {n : Nat}

section Coin

variable {cfg : Config n} {id : Fin n} {log : Log n}
variable {m : MVBA n} {l : Nat} {li : LoopInfo n}
variable {e : Effect n}

/- A place of `handle_finish` and what it counts there. -/
theorem LoopOk.setFinish
    (hOk : LoopOk cfg id log l li) (finish : Finish n)
    (hFinish :
      FinishOk cfg id log l li.inputs li.sigmas li.lastinput
        finish) :
    LoopOk cfg id log l { li with finish := finish } :=
  { hOk with finish := hFinish }

/- The coin has been taken. -/
theorem LoopOk.takeCoin
    (hOk : LoopOk cfg id log l li) :
    LoopOk cfg id log l { li with coinReady := none } :=
  { hOk with coin := nofun }

/- Own messages of a kind are handled as they are sent. -/
theorem tally_own
    {packet : Packet n} {P : Packet n → Bool}
    (hP : P packet = true) :
    1 ≤ (posted log id [packet]).tally id .handled P :=
  log.tally_postAll_pos id .handled .queued
    (List.mem_singleton_self packet) hP

/- A proof of the coin settles the loop. -/
theorem settled_of_pi
    (hOk : LoopOk cfg id log l li)
    (hPi : 0 < (li.pis (cfg.coin l)).mems.length) :
    Settled cfg log l ∧
      Input log l (cfg.coin l) (li.inputs (cfg.coin l)) := by
  rcases hOk.pi (cfg.coin l) with
    hNone | ⟨hQuorum, hInput⟩
  · rw [hNone] at hPi
    exact absurd hPi (Nat.lt_irrefl 0)
  · exact ⟨.inl hQuorum, hInput⟩

/- The leader is refused without a combined signature. -/
theorem Sends.prevNo
    {m' : MVBA n} {packet : Packet n}
    (hSrc : packet.src = id)
    (hType : packet.msg.rawMsg.type = .prevNo)
    (hLoop : packet.msg.rawMsg.loop = l)
    (hLt : l < m'.started)
    (hClosed : (m'.loops l).pbcDone = true)
    (hRank : 1 ≤ rank (m'.loops l).finish)
    (hAt : rank (m.loops l).finish = 0)
    (hFew : ¬ Many n ((m.loops l).sigmas (cfg.coin l))) :
    Sends cfg id log m m' packet where
  src := hSrc
  ok := by
    unfold SentOk
    dsimp only
    rw [hType]
    trivial
  past := by
    unfold Past
    dsimp only
    rw [hType, hLoop]
    exact ⟨hLt, hClosed, hRank⟩
  fresh := by
    rintro old _ hPast ⟨_, hSame, s, hOld, hNew⟩
    unfold slot at hNew
    rw [hType] at hNew
    cases hNew
    have hSide := hPast.side hOld
    rw [hSame, hLoop] at hSide
    rcases hSide with
      ⟨hId, _, hMany⟩ | ⟨c, hId, _, _, hMany⟩ |
        ⟨_, _, hLate⟩
    · rw [← id_inj hId] at hMany
      exact hFew hMany
    · rw [← id_inj hId] at hMany
      exact hFew hMany
    · omega

/- A certificate of some is one of enough. -/
theorem LoopOk.many_of_pos
    (hOk : LoopOk cfg id log l li) {c : Fin n}
    (hPos : 0 < (li.sigmas c).mems.length) :
    Many n (li.sigmas c) := by
  rcases hOk.sigma c with hNone | ⟨hMany, _⟩
  · rw [hNone] at hPos
    exact absurd hPos (Nat.lt_irrefl 0)
  · exact hMany

/- Reading the coin keeps the loop in order. -/
theorem LoopStep.handleCoin
    (hN : 2 ≤ n)
    (hOk : LoopOk cfg id log l (m.loops l))
    (hLt : l < m.started)
    (hStep : handleCoin cfg id m l = some e) :
    LoopStep cfg id log m l e.mvba e.sent := by
  have hPos : 0 < maxCount n := by
    unfold maxCount
    omega
  unfold SpeedingMVBA.handleCoin at hStep
  dsimp only at hStep
  split at hStep
  · rename_i coin hAt hReady
    rcases hOk.coin coin hReady with ⟨rfl, hClosed⟩
    have hRuns : (m.loops l).finish ≠ .next := by
      rw [hAt]
      nofun
    have hRank : rank (m.loops l).finish = 0 := by
      rw [hAt]
      rfl
    have hLater :
        Later (m.loops l)
          { m.loops l with coinReady := none } :=
      { later_rfl with }
    split at hStep
    · rename_i hPi
      cases hStep
      rcases settled_of_pi hOk (by omega) with
        ⟨hSettled, hInput⟩
      exact
        .haltWith hOk.takeCoin hLater hRuns hSettled hInput _
          _ _
    · split at hStep
      · cases hStep
        exact
          .quiet hOk.takeCoin.setDone hLater.setDone
            ⟨nofun, fun h => absurd h hRuns⟩
      · by_cases hFlag :
            maxCount n ≤
              ((m.loops l).sigmas (cfg.coin l)).mems.length
        · have hMany : Many n ((m.loops l).sigmas (cfg.coin l)) :=
            hOk.many_of_pos (by omega)
          simp only [hFlag, decide_true, if_true] at hStep
          cases hStep
          refine
            .post ?_ { hLater with rank := by rw [hRank]; omega }
              ⟨nofun, fun h => absurd h hRuns⟩
              (.plain rfl rfl ⟨?_, ?_⟩)
          · exact
              (hOk.takeCoin.mono (grows_posted _)).setFinish _
                ⟨rfl, fun _ => hMany, nofun⟩
          · exact hOk.input_of_many hMany
          · rintro _ ⟨⟩
            exact hMany
        · simp only [hFlag, decide_false, Bool.false_eq_true,
            if_false] at hStep
          cases hStep
          refine
            .post ?_ { hLater with rank := by rw [hRank]; omega }
              ⟨nofun, fun h => absurd h hRuns⟩
              (.prevNo (l := l) rfl rfl rfl hLt ?_ ?_ hRank ?_)
          · refine
              (hOk.takeCoin.mono (grows_posted _)).setFinish _
                ⟨rfl, nofun, fun _ => ⟨Nat.zero_lt_one, ?_⟩⟩
            exact tally_own (by
              simp [isKind, broadcast, Config.rawMsg])
          · rw [setLoop_same]
            exact hClosed
          · rw [setLoop_same]
            exact Nat.le_refl 1
          · unfold Many
            omega
  · cases hStep

end Coin

end Agreement

end SpeedingMVBA

end Jumbo

------------------------------------------------------------
-- Telling and Voting
------------------------------------------------------------

namespace Jumbo

namespace SpeedingMVBA

namespace Agreement

open Crypto (Bytes)
open Protocol
open Struct

variable {n : Nat}

section Vote

variable {cfg : Config n} {id : Fin n} {log log' : Log n}
variable {m : MVBA n} {l : Nat} {li : LoopInfo n}
variable {e : Effect n} {msg : Msg} {packet : Packet n}

/- The one vote of a loop. -/
theorem Sends.vote
    {m' : MVBA n}
    (hSrc : packet.src = id)
    (hType :
      packet.msg.rawMsg.type = .voteYes ∨
        packet.msg.rawMsg.type = .voteNo)
    (hLoop : packet.msg.rawMsg.loop = l)
    (hOk : SentOk cfg log packet)
    (hLt : l < m'.started)
    (hRank : 2 ≤ rank (m'.loops l).finish)
    (hAt : rank (m.loops l).finish < 2) :
    Sends cfg id log m m' packet where
  src := hSrc
  ok := hOk
  past := by
    unfold Past
    dsimp only
    rw [hLoop]
    rcases hType with hType | hType <;>
      rw [hType] <;>
      exact ⟨hLt, hRank⟩
  fresh := by
    rintro old _ hPast ⟨_, hSame, s, hOld, hNew⟩
    have hSlot : slot cfg packet.msg = some .vote := by
      unfold slot
      rcases hType with hType | hType <;> rw [hType]
    rw [hSlot] at hNew
    cases hNew
    have hLate := hPast.vote hOld
    rw [hSame, hLoop] at hLate
    omega

/- The vote is cast once in a loop. -/
theorem LoopStep.castVote
    (hLog : LogOk cfg log)
    (hOk : LoopOk cfg id log l li)
    (hLater : Later (m.loops l) li)
    (hRuns : (m.loops l).finish ≠ .next)
    (hAt : rank (m.loops l).finish = 1)
    (hLt : l < m.started)
    {yesFlag : Bool} {noCombins : List Signature}
    {accepted : List Cert}
    (hYes : yesFlag = true → Many n (li.sigmas (cfg.coin l)))
    (hNo :
      yesFlag = false →
        maxCount n < noCombins.length ∧
          noCombins.length ≤
            log.tally id .handled (isKind .prevNo l))
    (hStep :
      castVote cfg id m l li (cfg.coin l) yesFlag noCombins
        accepted = some e) :
    LoopStep cfg id log m l e.mvba e.sent := by
  have hDone :
      (Finish.done : Finish n) = .next ↔
        (m.loops l).finish = .next :=
    ⟨nofun, fun h => absurd h hRuns⟩
  have hVote :
      ∀ yes no, (.vote (cfg.coin l) yes no : Finish n) =
          .next ↔ (m.loops l).finish = .next :=
    fun _ _ => ⟨nofun, fun h => absurd h hRuns⟩
  have hLate :
      ∀ yes no,
        Later (m.loops l)
          { li with finish := .vote (cfg.coin l) yes no } :=
    fun _ _ => { hLater with rank := by rw [hAt]; exact Nat.le_succ 1 }
  unfold SpeedingMVBA.castVote at hStep
  dsimp only at hStep
  split at hStep
  · rename_i hFlag
    cases hStep
    have hMany := hYes hFlag
    have hInput := hOk.input_of_many hMany
    split
    · exact .quiet hOk.setDone hLater.setDone hDone
    · refine
        .post ?_ (hLate _ _) (hVote _ _)
          (.vote (l := l) rfl (.inl rfl) rfl ⟨hInput, ?_⟩ hLt
            ?_ ?_)
      · refine (hOk.mono (grows_posted _)).setFinish _ ?_
        refine ⟨rfl, ?_, Nat.zero_le _, fun _ => ?_⟩
        · exact tally_own (by
            simp [isKind, broadcast, Config.rawMsg])
        · exact hInput.mono (sent_posted id _)
      · rintro _ ⟨⟩
        exact hMany
      · rw [setLoop_same]
        exact Nat.le_refl 2
      · rw [hAt]
        exact Nat.lt_succ_self 1
  · rename_i hFlag
    rcases Option.map_eq_some_iff.mp hStep with
      ⟨batch, _, hEq⟩
    cases hEq
    rcases hNo (Bool.eq_false_iff.mpr hFlag) with
      ⟨hMany, hHeld⟩
    have hTally := hLog.tally_le (takes_prevNo (l := l)) id
    have hQuorum : Quorum log (isKind .prevNo l) :=
      Nat.lt_of_lt_of_le hMany (hHeld.trans hTally)
    split
    · exact .quiet hOk.setDone hLater.setDone hDone
    · refine
        .post ?_ (hLate _ _) (hVote _ _)
          (.vote (l := l) rfl (.inr rfl) rfl hQuorum hLt ?_ ?_)
      · refine (hOk.mono (grows_posted _)).setFinish _ ?_
        refine ⟨rfl, Nat.zero_le _, ?_, fun h => absurd rfl h⟩
        exact tally_own (by
          simp [isKind, broadcast, Config.rawMsg])
      · rw [setLoop_same]
        exact Nat.le_refl 2
      · rw [hAt]
        exact Nat.lt_succ_self 1

/- Counting a prevote keeps the loop in order. -/
theorem LoopStep.countPrev
    (hLog : LogOk cfg log)
    (hOk : LoopOk cfg id log l li)
    (hLater : Later (m.loops l) li)
    (hRuns : (m.loops l).finish ≠ .next)
    (hAt : rank (m.loops l).finish = 1)
    (hLt : l < m.started)
    {yesFlag : Bool} {noCombins : List Signature}
    {prevCount : Nat} {accepted : List Cert}
    (hYes : yesFlag = true → Many n (li.sigmas (cfg.coin l)))
    (hNo :
      yesFlag = false →
        prevCount < noCombins.length ∧
          noCombins.length ≤
            log.tally id .handled (isKind .prevNo l))
    (hStep :
      countPrev cfg id m l li (cfg.coin l) yesFlag noCombins
        prevCount accepted = some e) :
    LoopStep cfg id log m l e.mvba e.sent := by
  unfold SpeedingMVBA.countPrev at hStep
  split at hStep
  · rename_i hEnough
    refine
      .castVote hLog hOk hLater hRuns hAt hLt hYes ?_ hStep
    intro hFlag
    rcases hNo hFlag with ⟨hCount, hHeld⟩
    exact ⟨by omega, hHeld⟩
  · cases hStep
    exact
      .quiet (hOk.setFinish _ ⟨rfl, hYes, hNo⟩)
        { hLater with rank := by rw [hAt]; exact Nat.le_refl 1 }
        ⟨nofun, fun h => absurd h hRuns⟩

/- So does reading a prevote for the coin. -/
theorem LoopStep.handlePrevYes
    (hLog : LogOk cfg log)
    (hOk : LoopOk cfg id log l (m.loops l))
    (hLt : l < m.started)
    (hInput : Input log l (cfg.coin l) msg.rawMsg.values)
    (hMany : ∀ batch ∈ msg.ss, Many n batch)
    (hStep : handlePrevYes cfg id m l msg = some e) :
    LoopStep cfg id log m l e.mvba e.sent := by
  unfold SpeedingMVBA.handlePrevYes at hStep
  dsimp only at hStep
  split at hStep
  · rename_i coin yesFlag noCombins prevCount hFinish
    have hAt : rank (m.loops l).finish = 1 := by
      rw [hFinish]
      rfl
    have hRuns : (m.loops l).finish ≠ .next := by
      rw [hFinish]
      nofun
    have hPrev := hOk.finish
    rw [hFinish] at hPrev
    rcases hPrev with ⟨rfl, hYes, hNo⟩
    split at hStep
    · rename_i hFlag
      refine
        .countPrev hLog hOk later_rfl hRuns hAt hLt ?_ ?_ hStep
      · exact fun _ => hYes hFlag
      · nofun
    · rename_i hFlag
      rcases Option.bind_eq_some_iff.mp hStep with
        ⟨batch, hBatch, hStep⟩
      rcases Option.bind_eq_some_iff.mp hStep with
        ⟨res, _, hStep⟩
      split at hStep
      · have hStored :=
          (hOk.setInput hInput).setSigma (hMany batch hBatch)
            (by
              dsimp only
              rw [Function.update_self]
              exact hInput)
        refine
          .countPrev hLog hStored ?_ hRuns hAt hLt ?_ ?_ hStep
        · exact
            { later_rfl with
              sigmas := later_of_sigmas (hMany batch hBatch) }
        · intro _
          dsimp only
          rw [Function.update_self]
          exact hMany batch hBatch
        · nofun
      · refine
          .countPrev hLog hOk later_rfl hRuns hAt hLt ?_ ?_
            hStep
        · nofun
        · exact fun _ => hNo (Bool.eq_false_iff.mpr hFlag)
  · cases hStep

/- And a prevote against it. -/
theorem LoopStep.handlePrevNo
    (hLog : LogOk cfg log')
    (hOk : LoopOk cfg id log l (m.loops l))
    (hLt : l < m.started)
    (hMoved : Moved id log log' packet)
    (hKind : isKind .prevNo l packet = true)
    (hStep : handlePrevNo cfg id m l msg = some e) :
    LoopStep cfg id log' m l e.mvba e.sent := by
  have hOk' := hOk.mono hMoved.toGrows
  unfold SpeedingMVBA.handlePrevNo at hStep
  dsimp only at hStep
  split at hStep
  · rename_i coin yesFlag noCombins prevCount hFinish
    have hAt : rank (m.loops l).finish = 1 := by
      rw [hFinish]
      rfl
    have hRuns : (m.loops l).finish ≠ .next := by
      rw [hFinish]
      nofun
    have hPrev := hOk.finish
    rw [hFinish] at hPrev
    rcases hPrev with ⟨rfl, hYes, hNo⟩
    split at hStep
    · rename_i hFlag
      refine
        .countPrev hLog hOk' later_rfl hRuns hAt hLt ?_ ?_
          hStep
      · exact fun _ => hYes hFlag
      · nofun
    · rename_i hFlag
      rcases Option.bind_eq_some_iff.mp hStep with
        ⟨got, _, hStep⟩
      refine
        .countPrev hLog hOk' later_rfl hRuns hAt hLt ?_ ?_
          hStep
      · nofun
      · intro _
        rcases hNo (Bool.eq_false_iff.mpr hFlag) with
          ⟨hCount, hHeld⟩
        have hMore := hMoved.more _ hKind
        rw [List.length_append, List.length_singleton]
        exact ⟨by omega, by omega⟩
  · cases hStep

end Vote

end Agreement

end SpeedingMVBA

end Jumbo

------------------------------------------------------------
-- Leaving a Loop
------------------------------------------------------------

namespace Jumbo

namespace SpeedingMVBA

namespace Agreement

open Crypto (Bytes)
open Protocol
open Struct

variable {n : Nat}

section Leave

variable {cfg : Config n} {id : Fin n} {log log' : Log n}
variable {m : MVBA n} {l : Nat} {li : LoopInfo n}
variable {e : Effect n} {msg : Msg} {packet : Packet n}

/- The input of the next loop, once. -/
theorem Sends.input
    {m' : MVBA n}
    (hSrc : packet.src = id)
    (hType : packet.msg.rawMsg.type = .pbc1)
    (hLoop : packet.msg.rawMsg.loop = l + 1)
    (hNames : names id packet = true)
    (hCarried :
      Carried cfg log id packet.msg.rawMsg.values (l + 1))
    (hLt : l < m'.started)
    (hRank : 3 ≤ rank (m'.loops l).finish)
    (hAt : rank (m.loops l).finish < 3) :
    Sends cfg id log m m' packet where
  src := hSrc
  ok := by
    unfold SentOk
    dsimp only
    rw [hType, hLoop, hSrc]
    exact ⟨hNames, hCarried⟩
  past := by
    unfold Past
    dsimp only
    rw [hType, hLoop]
    refine ⟨by omega, fun k hNext => ?_⟩
    have hEq : l = k := Nat.succ.inj hNext
    subst hEq
    exact ⟨hLt, hRank⟩
  fresh := by
    rintro old _ hPast ⟨_, hSame, s, hOld, hNew⟩
    have hSlot : slot cfg packet.msg = some .input := by
      unfold slot
      rw [hType]
    rw [hSlot] at hNew
    cases hNew
    have hLate :=
      ((hPast.input hOld).2 l (hSame.trans hLoop)).2
    omega

/- The next input is what the votes carry. -/
theorem LoopStep.nextLoop
    (hOk : LoopOk cfg id log l li)
    (hLater : Later (m.loops l) li)
    (hRuns : (m.loops l).finish ≠ .next)
    (hAt : rank (m.loops l).finish = 2)
    (hLt : l < m.started)
    {input : Bytes} (hCarried : Carried cfg log id input (l + 1))
    (proofs : List (OldProof n)) (accepted assembled : List Cert) :
    LoopStep cfg id log m l
      (nextLoop cfg id m l li proofs input accepted
        assembled).mvba
      (nextLoop cfg id m l li proofs input accepted
        assembled).sent := by
  unfold SpeedingMVBA.nextLoop
  dsimp only
  split
  · refine
      .stay rfl rfl rfl rfl (fun _ h => .inl h)
        (hOk.setDone.mono (grows_posted _)) hLater.setDone
        ⟨nofun, fun h => absurd h hRuns⟩ (Nat.le_refl _)
        (List.forall_mem_singleton.mpr ?_)
    refine
      .input (l := l) rfl rfl rfl (names_self rfl) hCarried hLt
        ?_ (by omega)
    simp [MVBA.setLoop, rank]
  · have hRank : 3 ≤ rank (Finish.next : Finish n) :=
      Nat.le_refl 3
    refine
      { started := rfl
        loops := fun k hk => setLoop_other hk
        ok := ?_
        later := ?_
        turn := ?_
        halt := rfl
        outputs := fun _ h => .inl h
        few := Nat.le_refl _
        sent := List.forall_mem_singleton.mpr ?_ }
    · simp only [MVBA.setLoop, Function.update_self]
      have hStill := hOk.mono (grows_posted
        [broadcast id
          { rawMsg := cfg.rawMsg .pbc1 id input (l + 1)
            oldProof :=
              proofs.map (m.setLoop l li).proof }])
      refine
        { hStill with
          finish := ?_ }
      refine
        ⟨_, mem_posted (List.mem_singleton_self _), ?_, rfl,
          rfl⟩
      simp [isKind, broadcast, Config.rawMsg]
    · simp only [MVBA.setLoop, Function.update_self]
      exact { hLater with rank := rank_le _ }
    · refine .inr ⟨rfl, hRuns, ?_⟩
      simp [MVBA.setLoop]
    · refine
        .input (l := l) rfl rfl rfl (names_self rfl) hCarried
          hLt ?_ (by omega)
      simp [MVBA.setLoop, rank]

/- Counting a vote keeps the loop in order. -/
theorem LoopStep.countVotes
    (hLog : LogOk cfg log)
    (hOk : LoopOk cfg id log l li)
    (hLater : Later (m.loops l) li)
    (hRuns : (m.loops l).finish ≠ .next)
    (hAt : rank (m.loops l).finish = 2)
    (hLt : l < m.started)
    {yes no : List Signature} {values : Bytes}
    {accepted : List Cert}
    (hYes :
      yes.length ≤ log.tally id .handled (isKind .voteYes l))
    (hNo :
      no.length ≤ log.tally id .handled (isKind .voteNo l))
    (hHeld :
      yes ≠ [] →
        Input log l (cfg.coin l) (li.inputs (cfg.coin l)))
    (hStep :
      countVotes cfg id m l li (cfg.coin l) yes no values
        accepted = some e) :
    LoopStep cfg id log m l e.mvba e.sent := by
  unfold SpeedingMVBA.countVotes at hStep
  dsimp only at hStep
  split at hStep
  · rename_i hEnough
    split at hStep
    · rename_i hAll
      have hTally := hLog.tally_le (takes_voteYes (l := l)) id
      have hSettled : Settled cfg log l :=
        .inr (Nat.lt_of_lt_of_le hAll (hYes.trans hTally))
      have hInput := hHeld (List.ne_nil_of_length_pos (by omega))
      split at hStep
      · cases hStep
        exact .haltWith hOk hLater hRuns hSettled hInput _ _ _
      · rcases Option.map_eq_some_iff.mp hStep with
          ⟨batch, _, hEq⟩
        cases hEq
        exact .haltWith hOk hLater hRuns hSettled hInput _ _ _
    · split at hStep
      · rename_i hAll
        have hTally := hLog.tally_le (takes_voteNo (l := l)) id
        have hQuorum : Quorum log (isKind .voteNo l) :=
          Nat.lt_of_lt_of_le hAll (hNo.trans hTally)
        rcases Option.map_eq_some_iff.mp hStep with
          ⟨batch, _, hEq⟩
        cases hEq
        exact
          .nextLoop hOk hLater hRuns hAt hLt
            (.inr ⟨hOk.own, hQuorum⟩) _ _ _
      · have hInput :=
          hHeld (List.ne_nil_of_length_pos (by omega))
        cases hStep
        exact
          .nextLoop hOk hLater hRuns hAt hLt (.inl hInput) _ _ _
  · cases hStep
    exact
      .quiet (hOk.setFinish _ ⟨rfl, hYes, hNo, hHeld⟩)
        { hLater with rank := by rw [hAt]; exact Nat.le_refl 2 }
        ⟨nofun, fun h => absurd h hRuns⟩

/- A vote yes brings the values where none are held. -/
theorem LoopOk.takeVote
    (hOk : LoopOk cfg id log l li) {values : Bytes}
    {batch : BatchSignature} {c : Fin n}
    (hInput : Input log l c values)
    (hMany : Many n batch) :
    LoopOk cfg id log l
        { li with
          sigmas := Function.update li.sigmas c batch
          inputs :=
            if (li.inputs c).length = 0 then
              Function.update li.inputs c values
            else li.inputs } ∧
      Input log l c
        ((if (li.inputs c).length = 0 then
            Function.update li.inputs c values
          else li.inputs) c) := by
  split
  · have hHeld :
        Input log l c (Function.update li.inputs c values c) := by
      rw [Function.update_self]
      exact hInput
    exact ⟨(hOk.setInput hInput).setSigma hMany hHeld, hHeld⟩
  · rename_i hSome
    have hHeld : Input log l c (li.inputs c) := by
      refine (hOk.input c).resolve_left fun hNone => ?_
      rw [hNone] at hSome
      exact hSome rfl
    exact ⟨hOk.setSigma hMany hHeld, hHeld⟩

/- So does reading a vote for the coin. -/
theorem LoopStep.handleVoteYes
    (hLog : LogOk cfg log')
    (hOk : LoopOk cfg id log l (m.loops l))
    (hLt : l < m.started)
    (hMoved : Moved id log log' packet)
    (hKind : isKind .voteYes l packet = true)
    (hInput : Input log' l (cfg.coin l) msg.rawMsg.values)
    (hMany : ∀ batch ∈ msg.ss, Many n batch)
    (hStep : handleVoteYes cfg id m l msg = some e) :
    LoopStep cfg id log' m l e.mvba e.sent := by
  have hOk' := hOk.mono hMoved.toGrows
  unfold SpeedingMVBA.handleVoteYes at hStep
  dsimp only at hStep
  split at hStep
  · rename_i coin yes no hFinish
    have hAt : rank (m.loops l).finish = 2 := by
      rw [hFinish]
      rfl
    have hRuns : (m.loops l).finish ≠ .next := by
      rw [hFinish]
      nofun
    have hVote := hOk.finish
    rw [hFinish] at hVote
    rcases hVote with ⟨rfl, hYes, hNo, _⟩
    rcases Option.bind_eq_some_iff.mp hStep with
      ⟨cert, hCert, hStep⟩
    rcases Option.bind_eq_some_iff.mp hStep with
      ⟨got, _, hStep⟩
    have hBatch := hMany _ (accept_eq_some hCert).1
    rcases hOk'.takeVote hInput hBatch with ⟨hTaken, hHeld⟩
    refine
      .countVotes hLog hTaken ?_ hRuns hAt hLt ?_
        (hNo.trans (hMoved.held _)) (fun _ => hHeld) hStep
    · exact
        { later_rfl with sigmas := later_of_sigmas hBatch }
    · have hMore := hMoved.more _ hKind
      rw [List.length_append, List.length_singleton]
      omega
  · cases hStep

/- And a vote against it. -/
theorem LoopStep.handleVoteNo
    (hLog : LogOk cfg log')
    (hOk : LoopOk cfg id log l (m.loops l))
    (hLt : l < m.started)
    (hMoved : Moved id log log' packet)
    (hKind : isKind .voteNo l packet = true)
    (hStep : handleVoteNo cfg id m l msg = some e) :
    LoopStep cfg id log' m l e.mvba e.sent := by
  have hOk' := hOk.mono hMoved.toGrows
  unfold SpeedingMVBA.handleVoteNo at hStep
  dsimp only at hStep
  split at hStep
  · rename_i coin yes no hFinish
    have hAt : rank (m.loops l).finish = 2 := by
      rw [hFinish]
      rfl
    have hRuns : (m.loops l).finish ≠ .next := by
      rw [hFinish]
      nofun
    have hVote := hOk'.finish
    rw [hFinish] at hVote
    rcases hVote with ⟨rfl, hYes, _, hHeld⟩
    have hOld := hOk.finish
    rw [hFinish] at hOld
    rcases Option.bind_eq_some_iff.mp hStep with
      ⟨cert, _, hStep⟩
    rcases Option.bind_eq_some_iff.mp hStep with
      ⟨got, _, hStep⟩
    refine
      .countVotes hLog hOk' later_rfl hRuns hAt hLt hYes ?_
        hHeld hStep
    have hMore := hMoved.more _ hKind
    have hNo := hOld.2.2.1
    rw [List.length_append, List.length_singleton]
    omega
  · cases hStep

end Leave

end Agreement

end SpeedingMVBA

end Jumbo
