import Jumbo.SpeedingMVBA.Halts
import Jumbo.SpeedingMVBA.Validity

/-
  The steps of a party that reads what parties that run the
  code have sent.

  Its votes are valid as well, and once the round is over for
  it, it has put out a halt.

  Main declarations:
    * `Honest.countPrev` and `Honest.countVotes`
    * `PartyValid`
    * `TurnOk`
    * `Honest.turnOk`
-/

------------------------------------------------------------
-- Valid Votes
------------------------------------------------------------

namespace Jumbo

namespace SpeedingMVBA

namespace Agreement

open Crypto (Bytes)
open Protocol
open Struct

variable {n : Nat}

section Votes

variable {cfg : Config n} {id : Fin n} {log : Log n}
variable {m : MVBA n} {l : Nat} {li : LoopInfo n}
variable {msg : Msg} {e : Effect n} {coin : Fin n}
variable {yesFlag : Bool} {noCombins yes no : List Signature}
variable {prevCount : Nat} {values : Bytes}
variable {accepted assembled : List Cert}

/- What `handle_finish` leaves of a loop holds its inputs. -/
def Holds
    (log : Log n) (l : Nat) (li li' : LoopInfo n) : Prop :=
  ∀ c, li'.inputs c = li.inputs c ∨
    Input log l c (li'.inputs c)

/- The coin names an input with a combined signature. -/
def Elected
    (cfg : Config n) (log : Log n) (l : Nat)
    (li : LoopInfo n) (coin : Fin n) : Prop :=
  Input log l coin (li.inputs coin) ∧
    Certified cfg l coin (cfg.sha (li.inputs coin))
      (li.sigmas coin)

/- The party votes at another place. -/
theorem LoopValid.setFinish
    (hValid : LoopValid cfg id log l li) {finish : Finish n}
    (hFinish : FinishValid cfg log l finish) :
    LoopValid cfg id log l { li with finish := finish } :=
  { hValid with finish := hFinish }

/- A combined signature that is held is for the input. -/
theorem elected_of_pos
    (hLog : LogOk cfg log)
    (hOk : LoopOk cfg id log l li)
    (hValid : LoopValid cfg id log l li)
    (hPos : 0 < (li.sigmas coin).mems.length) :
    Elected cfg log l li coin := by
  have hInput := hOk.input_of_many (hOk.many_of_pos hPos)
  rcases hValid.sigmas coin hPos with ⟨v, hV, hCert⟩
  rw [hLog.input_eq hV hInput] at hCert
  exact ⟨hInput, hCert⟩

/- A halt verifies. -/
theorem Honest.haltWith
    {ss : BatchSignature}
    (hInputs : Holds log l (m.loops l) li)
    (hValid : LoopValid cfg id log l li)
    (hCoin : coin = cfg.coin l)
    (hProven :
      Proven cfg l coin (cfg.sha (li.inputs coin)) ss)
    (hShares : li.handlesShare = false) :
    Honest cfg id log m l
      (haltWith cfg id m l li coin ss accepted assembled) := by
  subst hCoin
  have hDone : LoopValid cfg id log l
      { li with finish := .done } :=
    hValid.setFinish trivial
  unfold SpeedingMVBA.haltWith
  dsimp only
  split
  · exact
      .setLoop rfl hDone hInputs (List.forall_mem_nil _)
  · refine
      { started := rfl
        halt := rfl
        returned := rfl
        loops := fun k hNe => setLoop_other hNe
        valid := ?_
        inputs := fun c => ?_
        proofs := fun _ _ hMem => .inl hMem
        ends := .inr ⟨rfl, _, rfl, rfl, List.mem_singleton_self _⟩
        sent := ?_ }
    · change LoopValid cfg id log l ((m.setLoop l _).loops l)
      rw [setLoop_same]
      exact hDone
    · change
        ((m.setLoop l _).loops l).inputs c = _ ∨
          Input log l c (((m.setLoop l _).loops l).inputs c)
      rw [setLoop_same]
      exact hInputs c
    · exact
        says_broadcast
          ⟨rfl, rfl, ⟨ss, rfl, hProven⟩,
            ⟨li.shareBatch, rfl, hValid.batch hShares⟩⟩

/- The prevote verifies. -/
theorem Honest.handleCoin
    (hN : 2 ≤ n) (hLog : LogOk cfg log)
    (hOk : LoopOk cfg id log l (m.loops l))
    (hValid : LoopValid cfg id log l (m.loops l))
    (hBounded : Bounded (m.loops l))
    (hStep : handleCoin cfg id m l = some e) :
    Honest cfg id log m l e := by
  have hPos := maxCount_pos hN
  unfold SpeedingMVBA.handleCoin at hStep
  dsimp only at hStep
  split at hStep
  · rename_i coin hAt hReady
    rcases hOk.coin coin hReady with ⟨rfl, _⟩
    have hShares : (m.loops l).handlesShare = false :=
      hBounded.elected (by rw [hReady]; exact nofun)
    split at hStep
    · rename_i hPi
      cases hStep
      have hMany :
          0 < ((m.loops l).pis (cfg.coin l)).mems.length := by
        omega
      rcases hValid.pis _ hMany with ⟨v, hV, hCert⟩
      rcases settled_of_pi hOk hMany with ⟨_, hInput⟩
      rw [hLog.input_eq hV hInput] at hCert
      exact
        .haltWith (fun _ => .inl rfl) { hValid with } rfl hCert
          hShares
    · split at hStep
      · cases hStep
        refine
          .setLoop rfl ?_ (fun _ => .inl rfl)
            (List.forall_mem_nil _)
        exact { hValid with finish := trivial }
      · by_cases hFlag :
            maxCount n ≤
              ((m.loops l).sigmas (cfg.coin l)).mems.length
        · have hElected : Elected cfg log l (m.loops l)
              (cfg.coin l) :=
            elected_of_pos hLog hOk hValid (by omega)
          simp only [hFlag, decide_true, if_true] at hStep
          cases hStep
          refine .setLoop rfl ?_ (fun _ => .inl rfl) ?_
          · exact
              { hValid with
                finish := ⟨nofun, List.forall_mem_nil _⟩ }
          · exact says_broadcast ⟨rfl, _, rfl, hElected.2⟩
        · simp only [hFlag, decide_false, Bool.false_eq_true,
            if_false] at hStep
          cases hStep
          refine .setLoop rfl ?_ (fun _ => .inl rfl) ?_
          · refine
              { hValid with
                finish := ⟨fun _ => List.cons_ne_nil _ _, ?_⟩ }
            intro s hMem
            rw [List.mem_singleton.mp hMem]
            exact made_self id _
          · exact says_broadcast ⟨rfl, rfl⟩
  · cases hStep

/- The vote verifies. -/
theorem Honest.castVote
    (hCombines : Combines cfg)
    (hInputs : Holds log l (m.loops l) li)
    (hValid : LoopValid cfg id log l li)
    (hCoin : coin = cfg.coin l)
    (hYes : yesFlag = true → Elected cfg log l li coin)
    (hNo :
      FinishValid cfg log l
        (.prev coin yesFlag noCombins prevCount))
    (hStep :
      castVote cfg id m l li coin yesFlag noCombins accepted =
        some e) :
    Honest cfg id log m l e := by
  subst hCoin
  have hDone : LoopValid cfg id log l
      { li with finish := .done } :=
    hValid.setFinish trivial
  unfold SpeedingMVBA.castVote at hStep
  dsimp only at hStep
  split at hStep
  · rename_i hFlag
    rcases hYes hFlag with ⟨hInput, hCert⟩
    cases hStep
    split
    · exact .setLoop rfl hDone hInputs (List.forall_mem_nil _)
    · refine
        .setLoop rfl
          (hValid.setFinish ⟨?_, List.forall_mem_nil _⟩)
          hInputs ?_
      · intro s hMem
        rw [List.mem_singleton.mp hMem]
        exact ⟨_, hInput, made_self id _⟩
      · exact says_broadcast ⟨rfl, ⟨_, rfl, hCert⟩, rfl⟩
  · rename_i hFlag
    rcases Option.map_eq_some_iff.mp hStep with
      ⟨batch, hBatch, rfl⟩
    have hVerify :=
      verifies_of_made hCombines
        (hNo.1 (Bool.eq_false_of_not_eq_true hFlag)) hNo.2
        hBatch
    split
    · exact .setLoop rfl hDone hInputs (List.forall_mem_nil _)
    · refine
        .setLoop rfl
          (hValid.setFinish ⟨List.forall_mem_nil _, ?_⟩)
          hInputs ?_
      · intro s hMem
        rw [List.mem_singleton.mp hMem]
        exact made_self id _
      · exact
          says_broadcast ⟨rfl, ⟨batch, rfl, hVerify⟩, rfl⟩

/- A prevote is counted. -/
theorem Honest.countPrev
    (hCombines : Combines cfg)
    (hInputs : Holds log l (m.loops l) li)
    (hValid : LoopValid cfg id log l li)
    (hCoin : coin = cfg.coin l)
    (hYes : yesFlag = true → Elected cfg log l li coin)
    (hNo :
      FinishValid cfg log l
        (.prev coin yesFlag noCombins prevCount))
    (hStep :
      countPrev cfg id m l li coin yesFlag noCombins prevCount
          accepted =
        some e) :
    Honest cfg id log m l e := by
  unfold SpeedingMVBA.countPrev at hStep
  split at hStep
  · exact .castVote hCombines hInputs hValid hCoin hYes hNo hStep
  · cases hStep
    exact
      .setLoop rfl (hValid.setFinish hNo) hInputs
        (List.forall_mem_nil _)

/- A prevote for the coin is counted. -/
theorem Honest.handlePrevYes
    (hCombines : Combines cfg) (hLog : LogOk cfg log)
    (hOk : LoopOk cfg id log l (m.loops l))
    (hValid : LoopValid cfg id log l (m.loops l))
    (hInput : Input log l (cfg.coin l) msg.rawMsg.values)
    (hStep : handlePrevYes cfg id m l msg = some e) :
    Honest cfg id log m l e := by
  unfold SpeedingMVBA.handlePrevYes at hStep
  dsimp only at hStep
  split at hStep
  · rename_i coin yesFlag noCombins prevCount hFinish
    have hHeld := hOk.finish
    rw [hFinish] at hHeld
    rcases hHeld with ⟨rfl, hMany, _⟩
    have hNo := hValid.finish
    rw [hFinish] at hNo
    split at hStep
    · rename_i hFlag
      refine
        .countPrev hCombines (fun _ => .inl rfl) hValid rfl
          (fun _ => ?_) ?_ hStep
      · refine elected_of_pos hLog hOk hValid ?_
        exact Nat.lt_of_le_of_lt (Nat.zero_le _) (hMany hFlag)
      · exact ⟨nofun, hNo.2⟩
    · rename_i hFlag
      rcases Option.bind_eq_some_iff.mp hStep with
        ⟨batch, _, hStep⟩
      rcases Option.bind_eq_some_iff.mp hStep with
        ⟨res, hRes, hStep⟩
      split at hStep
      · rename_i hTrue
        rw [hTrue] at hRes
        refine
          .countPrev hCombines ?_ ?_ rfl (fun _ => ?_) ?_ hStep
        · intro c
          by_cases hEq : c = cfg.coin l
          · subst hEq
            right
            simp only [Function.update_self]
            exact hInput
          · left
            simp only [Function.update_of_ne hEq]
        · exact
            { hValid.setSigma ⟨_, hInput, rfl⟩ hRes with }
        · refine ⟨?_, ?_⟩
          · simp only [Function.update_self]
            exact hInput
          · simp only [Function.update_self]
            exact hRes
        · exact ⟨nofun, hNo.2⟩
      · refine
          .countPrev hCombines (fun _ => .inl rfl) hValid rfl
            ?_ ?_ hStep
        · exact nofun
        · exact
            ⟨fun _ =>
                hNo.1 (Bool.eq_false_of_not_eq_true hFlag),
              hNo.2⟩
  · cases hStep

/- A prevote against the coin is counted. -/
theorem Honest.handlePrevNo
    (hCombines : Combines cfg) (hLog : LogOk cfg log)
    (hOk : LoopOk cfg id log l (m.loops l))
    (hValid : LoopValid cfg id log l (m.loops l))
    (hSign :
      ∀ s ∈ msg.sign, Made cfg (cfg.tagged l .prevno) s)
    (hStep : handlePrevNo cfg id m l msg = some e) :
    Honest cfg id log m l e := by
  unfold SpeedingMVBA.handlePrevNo at hStep
  dsimp only at hStep
  split at hStep
  · rename_i coin yesFlag noCombins prevCount hFinish
    have hHeld := hOk.finish
    rw [hFinish] at hHeld
    rcases hHeld with ⟨rfl, hMany, _⟩
    have hNo := hValid.finish
    rw [hFinish] at hNo
    split at hStep
    · rename_i hFlag
      refine
        .countPrev hCombines (fun _ => .inl rfl) hValid rfl
          (fun _ => ?_) ?_ hStep
      · refine elected_of_pos hLog hOk hValid ?_
        exact Nat.lt_of_le_of_lt (Nat.zero_le _) (hMany hFlag)
      · exact ⟨nofun, hNo.2⟩
    · rcases Option.bind_eq_some_iff.mp hStep with
        ⟨got, hAccept, hStep⟩
      refine
        .countPrev hCombines (fun _ => .inl rfl) hValid rfl ?_
          ?_ hStep
      · exact nofun
      · exact
          ⟨fun _ => snoc_ne_nil _ _,
            made_append hNo.2
              (hSign got (acceptSign_eq_some hAccept).1)⟩
  · cases hStep

/- The loop is left with proofs for an input. -/
theorem Honest.nextLoop
    {proofs : List (OldProof n)} {input : Bytes}
    (hInputs : Holds log l (m.loops l) li)
    (hValid : LoopValid cfg id log l li)
    (hProofs :
      ∀ k c, .sigma k c ∈ proofs →
        .sigma k c ∈ m.oldProofs ∨
          (k = l ∧ Input log l c (li.inputs c))) :
    Honest cfg id log m l
      (nextLoop cfg id m l li proofs input accepted
        assembled) := by
  have hSent :
      ∀ proof, ∀ packet ∈
          [broadcast id
            { rawMsg := cfg.rawMsg .pbc1 id input (l + 1)
              oldProof := proof }],
        Says cfg id log packet := by
    intro proof
    exact
      says_broadcast ⟨rfl, fun q hNe => decide_eq_true hNe⟩
  have hLoops :
      ∀ (m' : MVBA n) {li' : LoopInfo n},
        m'.loops = (m.setLoop l li').loops →
          (∀ k, k ≠ l → m'.loops k = m.loops k) ∧
            m'.loops l = li' := by
    intro m' li' hEq
    rw [hEq]
    exact ⟨fun k hNe => setLoop_other hNe, setLoop_same⟩
  by_cases hDone : m.mvbaDone = true
  · unfold SpeedingMVBA.nextLoop
    dsimp only
    rw [if_pos hDone]
    rcases hLoops
        { m.setLoop l { li with finish := .done } with
          oldProofs := proofs } rfl with
      ⟨hOther, hSame⟩
    exact
      { started := rfl
        halt := rfl
        returned := rfl
        loops := hOther
        valid := by rw [hSame]; exact hValid.setFinish trivial
        inputs := by rw [hSame]; exact hInputs
        proofs := by rw [hSame]; exact hProofs
        ends := .inl ⟨rfl, rfl⟩
        sent := hSent _ }
  · unfold SpeedingMVBA.nextLoop
    dsimp only
    rw [if_neg hDone]
    rcases hLoops
        { m.setLoop l
            { li with lastinput := input, finish := .next }
            with
          oldProofs := proofs
          loop := m.loop + 1 } rfl with
      ⟨hOther, hSame⟩
    exact
      { started := rfl
        halt := rfl
        returned := rfl
        loops := hOther
        valid := by
          rw [hSame]
          exact { hValid with finish := trivial }
        inputs := by rw [hSame]; exact hInputs
        proofs := by rw [hSame]; exact hProofs
        ends := .inl ⟨rfl, rfl⟩
        sent := hSent _ }

/- A vote is counted. -/
theorem Honest.countVotes
    (hCombines : Combines cfg) (hLog : LogOk cfg log)
    (hInputs : Holds log l (m.loops l) li)
    (hValid : LoopValid cfg id log l li)
    (hCoin : coin = cfg.coin l)
    (hShares : li.handlesShare = false)
    (hHeld : yes ≠ [] → Input log l coin (li.inputs coin))
    (hValues :
      maxCount n < yes.length → Input log l coin values)
    (hVotes : FinishValid cfg log l (.vote coin yes no))
    (hStep :
      countVotes cfg id m l li coin yes no values accepted =
        some e) :
    Honest cfg id log m l e := by
  unfold SpeedingMVBA.countVotes at hStep
  split at hStep
  · rename_i hMany
    split at hStep
    · rename_i hYes
      have hSome : yes ≠ [] := by
        rintro rfl
        exact absurd hYes (Nat.not_lt_zero _)
      have hInput := hHeld hSome
      split at hStep
      · rename_i hPi
        cases hStep
        rcases hValid.pis coin hPi with ⟨v, hV, hCert⟩
        rw [hLog.input_eq hV hInput] at hCert
        exact .haltWith hInputs hValid hCoin hCert hShares
      · rcases Option.map_eq_some_iff.mp hStep with
          ⟨batch, hBatch, rfl⟩
        have hEq := hLog.input_eq (hValues hYes) hInput
        refine .haltWith hInputs hValid hCoin ?_ hShares
        rw [← hEq]
        refine verifies_of_made hCombines hSome ?_ hBatch
        intro s hMem
        rcases hVotes.1 s hMem with ⟨v, hV, hMade⟩
        rw [hLog.input_eq hV (hValues hYes)] at hMade
        exact hMade
    · rename_i hFewYes
      split at hStep
      · rcases Option.map_eq_some_iff.mp hStep with
          ⟨batch, _, rfl⟩
        refine .nextLoop hInputs hValid fun k c hMem => .inl ?_
        rcases List.mem_append.mp hMem with hOld | hNew
        · exact hOld
        · cases List.mem_singleton.mp hNew
      · rename_i hFewNo
        cases hStep
        refine .nextLoop hInputs hValid fun k c hMem => .inr ?_
        cases List.mem_singleton.mp hMem
        refine ⟨rfl, hHeld ?_⟩
        rintro rfl
        rw [List.length_nil] at hMany
        omega
  · cases hStep
    exact
      .setLoop rfl (hValid.setFinish hVotes) hInputs
        (List.forall_mem_nil _)

/- A vote for the coin is counted. -/
theorem Honest.handleVoteYes
    (hCombines : Combines cfg) (hLog : LogOk cfg log)
    (hOk : LoopOk cfg id log l (m.loops l))
    (hValid : LoopValid cfg id log l (m.loops l))
    (hBounded : Bounded (m.loops l))
    (hInput : Input log l (cfg.coin l) msg.rawMsg.values)
    (hSign :
      ∀ s ∈ msg.sign,
        Made cfg
          (cfg.marshal
            (cfg.rawMsg .pbc4 (cfg.coin l)
              (cfg.sha msg.rawMsg.values) l)) s)
    (hStep : handleVoteYes cfg id m l msg = some e) :
    Honest cfg id log m l e := by
  unfold SpeedingMVBA.handleVoteYes at hStep
  dsimp only at hStep
  split at hStep
  · rename_i coin yes no hFinish
    have hHeld := hOk.finish
    rw [hFinish] at hHeld
    have hCoin : coin = cfg.coin l := hHeld.1
    subst hCoin
    have hVotes := hValid.finish
    rw [hFinish] at hVotes
    have hShares : (m.loops l).handlesShare = false :=
      hBounded.finish (by rw [hFinish]; exact nofun)
    rcases Option.bind_eq_some_iff.mp hStep with
      ⟨cert, hCert, hStep⟩
    rcases Option.bind_eq_some_iff.mp hStep with
      ⟨got, hAccept, hStep⟩
    have hSet :=
      hValid.setSigma ⟨_, hInput, rfl⟩ (accept_eq_some hCert).2
    refine
      .countVotes hCombines hLog ?_ ?_ rfl ?_ (fun _ => ?_)
        (fun _ => hInput) ?_ hStep
    · intro c
      dsimp only
      split
      · by_cases hEq : c = cfg.coin l
        · subst hEq
          rw [Function.update_self]
          exact .inr hInput
        · rw [Function.update_of_ne hEq]
          exact .inl rfl
      · exact .inl rfl
    · exact { hSet with }
    · exact hShares
    · dsimp only
      split
      · rw [Function.update_self]
        exact hInput
      · rename_i hFull
        refine (hOk.input _).resolve_left fun hNil => hFull ?_
        rw [hNil]
        rfl
    · refine ⟨fun s hMem => ?_, hVotes.2⟩
      rcases List.mem_append.mp hMem with hOld | hNew
      · exact hVotes.1 s hOld
      · rw [List.mem_singleton.mp hNew]
        exact
          ⟨_, hInput,
            hSign got (acceptSign_eq_some hAccept).1⟩
  · cases hStep

/- A vote against the coin is counted. -/
theorem Honest.handleVoteNo
    (hCombines : Combines cfg) (hLog : LogOk cfg log)
    (hOk : LoopOk cfg id log l (m.loops l))
    (hValid : LoopValid cfg id log l (m.loops l))
    (hBounded : Bounded (m.loops l))
    (hSign :
      ∀ s ∈ msg.sign, Made cfg (cfg.tagged l .voteno) s)
    (hStep : handleVoteNo cfg id m l msg = some e) :
    Honest cfg id log m l e := by
  unfold SpeedingMVBA.handleVoteNo at hStep
  dsimp only at hStep
  split at hStep
  · rename_i coin yes no hFinish
    have hHeld := hOk.finish
    rw [hFinish] at hHeld
    have hVotes := hValid.finish
    rw [hFinish] at hVotes
    have hShares : (m.loops l).handlesShare = false :=
      hBounded.finish (by rw [hFinish]; exact nofun)
    have hFew := hBounded.vote coin yes no hFinish
    rcases Option.bind_eq_some_iff.mp hStep with
      ⟨cert, _, hStep⟩
    rcases Option.bind_eq_some_iff.mp hStep with
      ⟨got, hAccept, hStep⟩
    refine
      .countVotes hCombines hLog (fun _ => .inl rfl) hValid
        hHeld.1 hShares hHeld.2.2.2 (fun hMany => ?_)
        ⟨hVotes.1, ?_⟩ hStep
    · omega
    · exact
        made_append hVotes.2
          (hSign got (acceptSign_eq_some hAccept).1)
  · cases hStep

end Votes

end Agreement

end SpeedingMVBA

end Jumbo

------------------------------------------------------------
-- A Party
------------------------------------------------------------

namespace Jumbo

namespace SpeedingMVBA

namespace Agreement

open Crypto (Bytes)
open Protocol
open Struct

variable {n : Nat}

/-
  What a party holds verifies, loops that it has not started
  are empty, and once the round is over it has put out a halt.
-/
structure PartyValid
    (cfg : Config n) (id : Fin n) (log : Log n)
    (m : MVBA n) : Prop where
  loops :
    ∀ l < m.started, LoopValid cfg id log l (m.loops l)
  fresh :
    ∀ l, m.started ≤ l →
      ∃ input, m.loops l = LoopInfo.new cfg id input
  bounded : ∀ l, Bounded (m.loops l)
  finished : ∀ l, (m.loops l).finish = .done → m.mvbaDone = true
  proofs :
    ∀ k c, .sigma k c ∈ m.oldProofs →
      k < m.started ∧ Input log k c ((m.loops k).inputs c)
  outputs : ∀ msg ∈ m.outputs, msg.rawMsg.type = .halt
  ended : m.mvbaDone = true → m.outputs ≠ []
  returned : m.returned = true → m.mvbaDone = true
  halting :
    ∀ msg, m.halt = .stored msg →
      msg.rawMsg.type = .halt ∧
        msg.rawMsg.round = cfg.round ∧ HaltValid cfg msg
  adopted : m.halt = .done → m.mvbaDone = true

/- A step of a party, with the kind of message it counts. -/
structure TurnOk
    (cfg : Config n) (id : Fin n) (log : Log n)
    (m : MVBA n) (l : Nat) (got : Option (Kind n))
    (e : Effect n) : Prop where
  moves : Moves id m l got e
  party : PartyValid cfg id (posted log id e.sent) e.mvba
  started : m.started ≤ e.mvba.started
  waits : e.mvba.halt = .waits → m.halt = .waits
  ends : Ends id m e
  sent : ∀ packet ∈ e.sent, Says cfg id log packet

section Turn

variable {cfg : Config n} {id : Fin n} {log log' : Log n}
variable {m : MVBA n} {l : Nat} {got : Option (Kind n)}
variable {e : Effect n} {input : Bytes} {msg : Msg}

/- More messages leave a party valid. -/
theorem PartyValid.mono
    (hValid : PartyValid cfg id log m)
    (hSub : log.sent ⊆ log'.sent) :
    PartyValid cfg id log' m :=
  { hValid with
    loops := fun l hLt => (hValid.loops l hLt).mono hSub
    proofs := fun k c hMem =>
      ⟨(hValid.proofs k c hMem).1,
        (hValid.proofs k c hMem).2.mono hSub⟩ }

/- What is over stays over. -/
theorem Ends.done
    (hEnds : Ends id m e) (hDone : m.mvbaDone = true) :
    e.mvba.mvbaDone = true := by
  rcases hEnds with ⟨hSame, _⟩ | ⟨hOver, _⟩
  · rw [hSame]
    exact hDone
  · exact hOver

/- All that is put out is a halt. -/
theorem Ends.outputs
    (hEnds : Ends id m e)
    (hValid : PartyValid cfg id log m) :
    (∀ msg ∈ e.mvba.outputs, msg.rawMsg.type = .halt) ∧
      (e.mvba.mvbaDone = true → e.mvba.outputs ≠ []) := by
  rcases hEnds with ⟨hDone, hOut⟩ | ⟨_, msg, hType, hOut, _⟩
  · rw [hDone, hOut]
    exact ⟨hValid.outputs, hValid.ended⟩
  · rw [hOut]
    refine ⟨fun msg' hMem => ?_, fun _ => ?_⟩
    · rcases List.mem_append.mp hMem with hOld | hNew
      · exact hValid.outputs msg' hOld
      · rw [List.mem_singleton.mp hNew]
        exact hType
    · exact
        List.append_ne_nil_of_right_ne_nil _
          (List.cons_ne_nil _ _)

/- A step in a loop. -/
theorem Honest.turnOk
    (hHonest : Honest cfg id log m l e)
    (hMoves : Moves id m l got e) (hLt : l < m.started)
    (hValid : PartyValid cfg id log m) :
    TurnOk cfg id log m l got e := by
  have hSub : log.sent ⊆ (posted log id e.sent).sent :=
    sent_posted id e.sent
  rcases hHonest.ends.outputs hValid with ⟨hOut, hEnded⟩
  refine
    { moves := hMoves
      party :=
        { loops := ?_
          fresh := ?_
          bounded := ?_
          finished := ?_
          proofs := ?_
          outputs := hOut
          ended := hEnded
          returned := ?_
          halting := ?_
          adopted := ?_ }
      started := Nat.le_of_eq hHonest.started.symm
      waits := fun h => hHonest.halt ▸ h
      ends := hHonest.ends
      sent := hHonest.sent }
  · intro k hk
    rw [hHonest.started] at hk
    by_cases hEq : k = l
    · subst hEq
      exact hHonest.valid.mono hSub
    · rw [hHonest.loops k hEq]
      exact (hValid.loops k hk).mono hSub
  · intro k hk
    rw [hHonest.started] at hk
    rw [hHonest.loops k (by omega)]
    exact hValid.fresh k hk
  · intro k
    by_cases hEq : k = l
    · subst hEq
      exact hMoves.bounded (hValid.bounded k)
    · rw [hHonest.loops k hEq]
      exact hValid.bounded k
  · intro k hDone
    by_contra hOpen
    have hOpen := Bool.eq_false_of_not_eq_true hOpen
    have hOld : (m.loops k).finish = .done := by
      by_cases hEq : k = l
      · subst hEq
        exact hMoves.finished hOpen hDone
      · rw [hHonest.loops k hEq] at hDone
        exact hDone
    rw [hHonest.ends.done (hValid.finished k hOld)] at hOpen
    cases hOpen
  · intro k c hMem
    have hKeep :
        ∀ k c, Input log k c ((m.loops k).inputs c) →
          Input log k c ((e.mvba.loops k).inputs c) := by
      intro k c hInput
      by_cases hEq : k = l
      · subst hEq
        rcases hHonest.inputs c with hSame | hNew
        · rw [hSame]
          exact hInput
        · exact hNew
      · rw [hHonest.loops k hEq]
        exact hInput
    rw [hHonest.started]
    rcases hHonest.proofs k c hMem with hOld | ⟨rfl, hInput⟩
    · rcases hValid.proofs k c hOld with ⟨hk, hInput⟩
      exact ⟨hk, (hKeep k c hInput).mono hSub⟩
    · exact ⟨hLt, hInput.mono hSub⟩
  · rw [hHonest.returned]
    exact fun h => hHonest.ends.done (hValid.returned h)
  · rw [hHonest.halt]
    exact hValid.halting
  · rw [hHonest.halt]
    exact fun h => hHonest.ends.done (hValid.adopted h)

/- A new loop waits for everything. -/
theorem count_new (kind : Kind n) (input input' : Bytes) :
    count kind (LoopInfo.new cfg id input) =
      count kind (LoopInfo.new cfg id input') := by
  cases kind <;> rfl

/- Nothing of the own is counted in a new loop. -/
theorem own_new (kind : Kind n) (input : Bytes) :
    own kind (LoopInfo.new cfg id input) = 0 := by
  cases kind <;> rfl

/- A new loop owes nothing to anybody else. -/
theorem not_due_new
    {q : Fin n} (hNe : q ≠ id) (kind : Kind n) :
    ¬ Due id q kind (LoopInfo.new cfg id input) := by
  intro hDue
  cases kind with
  | pbc1 c => exact hDue
  | pbc2 =>
      simp [Due, LoopInfo.new, hNe, answered] at hDue
  | pbc3 c => simp [Due, LoopInfo.new, tried3] at hDue
  | pbc4 => simp [Due, LoopInfo.new, hNe] at hDue
  | pi => simp [Due, LoopInfo.new] at hDue
  | share => simp [Due, LoopInfo.new] at hDue
  | prev => simp [Due, LoopInfo.new, rank] at hDue
  | vote => simp [Due, LoopInfo.new, rank] at hDue

/- A new loop is bounded. -/
theorem bounded_new (hN : 2 ≤ n) :
    Bounded (LoopInfo.new cfg id input) where
  wait2 := by
    intro hash signs hWait
    cases hWait
    exact maxCount_pos hN
  wait4 := nofun
  share := fun _ => Nat.zero_le _
  prev := nofun
  vote := nofun
  pi := nofun
  ready := by
    rintro - (hMany | hFirst | hDone)
    · exact absurd hMany (Nat.not_lt_zero _)
    · cases hFirst
    · cases hDone
  first := by
    rintro (hNot | hSome)
    · cases hNot
    · exact absurd rfl hSome
  coin := nofun
  elected := fun h => absurd rfl h
  finish := fun h => absurd rfl h

/- A step that changes no loop. -/
theorem Moves.idle
    (hSame : e.mvba.loops = m.loops) :
    Moves id m l none e where
  loops := fun k _ => by rw [hSame]
  counted := by
    intro _ kind
    rw [hSame]
    exact countedAt_same rfl (Nat.le_refl _) nofun
  pays := by
    intro _ q kind _ hDue
    rw [hSame] at hDue
    exact .inl hDue
  bounded := by
    rw [hSame]
    exact fun h => h
  finished := by
    rw [hSame]
    exact fun _ h => h

/- A loop is started that was not. -/
theorem Moves.start
    (hN : 2 ≤ n)
    (hFresh :
      ∃ input', m.loops l = LoopInfo.new cfg id input')
    (hLoops :
      e.mvba.loops =
        (m.setLoop l (LoopInfo.new cfg id input)).loops) :
    Moves id m l none e := by
  rcases hFresh with ⟨input', hOld⟩
  refine
    .setLoop hLoops nofun (fun _ kind => ?_)
      (fun _ q kind hNe hDue => ?_) fun _ => bounded_new hN
  · rw [hOld]
    refine countedAt_same (count_new kind _ _) ?_ nofun
    rw [own_new, own_new]
  · exact absurd hDue (not_due_new hNe kind)

/- What a new loop holds verifies. -/
theorem loopValid_new
    (hInput : Input log l id input) :
    LoopValid cfg id log l (LoopInfo.new cfg id input) where
  pbc := by
    intro c hash hEq
    by_cases hOwn : c = id
    · simp [LoopInfo.new, hOwn, PBC.hash] at hEq
    · simp [LoopInfo.new, hOwn, PBC.hash] at hEq
  mine := ⟨⟨input, hInput, rfl⟩, List.forall_mem_nil _⟩
  sigmas := fun _ hPos => absurd hPos (Nat.lt_irrefl 0)
  pis := fun _ hPos => absurd hPos (Nat.lt_irrefl 0)
  ok := List.forall_mem_nil _
  ready := List.forall_mem_nil _
  shareMine := nofun
  shares := List.forall_mem_nil _
  batch := nofun
  finish := trivial

/- A party starts one more loop. -/
theorem PartyValid.start
    (hN : 2 ≤ n) {m' : MVBA n}
    (hValid : PartyValid cfg id log m)
    (hSub : log.sent ⊆ log'.sent)
    (hInput : Input log' m.started id input)
    (hEq :
      m' =
        { m.setLoop m.started (LoopInfo.new cfg id input) with
          started := m.started + 1 }) :
    PartyValid cfg id log' m' := by
  subst hEq
  have hSame :
      (m.setLoop m.started
        (LoopInfo.new cfg id input)).loops m.started =
          LoopInfo.new cfg id input :=
    setLoop_same
  have hOther :
      ∀ k, k ≠ m.started →
        (m.setLoop m.started
          (LoopInfo.new cfg id input)).loops k = m.loops k :=
    fun k hNe => setLoop_other hNe
  refine
    { loops := fun k hk => ?_
      fresh := fun k hk => ?_
      bounded := fun k => ?_
      finished := fun k hDone => ?_
      proofs := fun k c hMem => ?_
      outputs := hValid.outputs
      ended := hValid.ended
      returned := hValid.returned
      halting := hValid.halting
      adopted := hValid.adopted }
  · by_cases hEq : k = m.started
    · subst hEq
      change LoopValid cfg id log' m.started
        ((m.setLoop m.started _).loops m.started)
      rw [hSame]
      exact loopValid_new hInput
    · change LoopValid cfg id log' k
        ((m.setLoop m.started _).loops k)
      rw [hOther k hEq]
      have hk : k < m.started + 1 := hk
      exact (hValid.loops k (by omega)).mono hSub
  · have hk : m.started + 1 ≤ k := hk
    change ∃ input', (m.setLoop m.started _).loops k = _
    rw [hOther k (by omega)]
    exact hValid.fresh k (by omega)
  · change Bounded ((m.setLoop m.started _).loops k)
    by_cases hEq : k = m.started
    · subst hEq
      rw [hSame]
      exact bounded_new hN
    · rw [hOther k hEq]
      exact hValid.bounded k
  · change ((m.setLoop m.started _).loops k).finish = .done
      at hDone
    by_cases hEq : k = m.started
    · subst hEq
      rw [hSame] at hDone
      cases hDone
    · rw [hOther k hEq] at hDone
      exact hValid.finished k hDone
  · rcases hValid.proofs k c hMem with ⟨hk, hOld⟩
    refine ⟨Nat.lt_succ_of_lt hk, ?_⟩
    change Input log' k c
      (((m.setLoop m.started _).loops k).inputs c)
    rw [hOther k (Nat.ne_of_lt hk)]
    exact hOld.mono hSub

/- The input is sent, and the first loop is started. -/
theorem TurnOk.launch
    (hN : 2 ≤ n) (hValid : PartyValid cfg id log m)
    (hStep : launch cfg id m input = some e) :
    TurnOk cfg id log m 0 none e := by
  unfold SpeedingMVBA.launch at hStep
  rcases Option.ite_none_right_eq_some.mp hStep with
    ⟨hZero, hEq⟩
  cases hEq
  refine
    { moves := ?_
      party := ?_
      started := by
        rw [hZero]
        exact Nat.zero_le _
      waits := fun h => h
      ends := .inl ⟨rfl, rfl⟩
      sent := ?_ }
  · exact
      .start hN (hValid.fresh 0 (Nat.le_of_eq hZero)) rfl
  · refine
      hValid.start hN (sent_posted id _)
        (?_ : Input _ m.started id input) ?_
    · rw [hZero]
      exact
        ⟨_, mem_posted (List.mem_singleton_self _),
          isKind_iff.mpr ⟨rfl, rfl⟩, rfl, rfl⟩
    · rw [hZero]
  · exact
      says_broadcast ⟨rfl, fun q hNe => decide_eq_true hNe⟩

/- The next loop is started with what the last one led to. -/
theorem TurnOk.startLoop
    (hN : 2 ≤ n) (hOk : PartyOk cfg id log m)
    (hValid : PartyValid cfg id log m)
    (hStep : startLoop cfg id m = some e) :
    TurnOk cfg id log m m.started none e := by
  unfold SpeedingMVBA.startLoop at hStep
  rcases Option.ite_none_right_eq_some.mp hStep with
    ⟨⟨hPos, hLoop, _⟩, hEq⟩
  cases hEq
  have hLast : m.started - 1 < m.started := by
    omega
  have hNext :
      (m.loops (m.started - 1)).finish = .next :=
    (hOk.left _ hLast).mpr (by omega)
  have hInput := (hOk.loops _ hLast).finish
  rw [hNext] at hInput
  have hInput :
      Input log (m.started - 1 + 1) id
        (m.loops (m.started - 1)).lastinput :=
    hInput
  rw [Nat.sub_add_cancel hPos] at hInput
  exact
    { moves :=
        .start hN (hValid.fresh _ (Nat.le_refl _)) rfl
      party :=
        hValid.start hN (sent_posted id _)
          (hInput.mono (sent_posted id _)) rfl
      started := Nat.le_succ _
      waits := fun h => h
      ends := .inl ⟨rfl, rfl⟩
      sent := List.forall_mem_nil _ }

/- A halt is stored. -/
theorem TurnOk.handleHalt
    (hValid : PartyValid cfg id log m)
    (hType : msg.rawMsg.type = .halt)
    (hRound : msg.rawMsg.round = cfg.round)
    (hHalt : HaltValid cfg msg)
    (hStep : handleHalt cfg m msg = some e) :
    TurnOk cfg id log m l none e := by
  unfold SpeedingMVBA.handleHalt at hStep
  rcases Option.ite_none_right_eq_some.mp hStep with
    ⟨_, hStep⟩
  rcases Option.map_eq_some_iff.mp hStep with
    ⟨cert, _, rfl⟩
  have hStill : PartyValid cfg id (posted log id []) m :=
    hValid.mono (sent_posted id [])
  exact
    { moves := .idle rfl
      party :=
        { hStill with
          halting := by
            intro msg' hStored
            cases hStored
            exact ⟨hType, hRound, hHalt⟩
          adopted := nofun }
      started := Nat.le_refl _
      waits := nofun
      ends := .inl ⟨rfl, rfl⟩
      sent := List.forall_mem_nil _ }

/- A halt is adopted and passed on. -/
theorem TurnOk.adoptHalt
    (hValid : PartyValid cfg id log m)
    (hStep : adoptHalt cfg id m = some e) :
    TurnOk cfg id log m l none e := by
  unfold SpeedingMVBA.adoptHalt at hStep
  split at hStep
  · rename_i msg hStored
    dsimp only at hStep
    rcases Option.ite_none_right_eq_some.mp hStep with
      ⟨_, hStep⟩
    rcases Option.map_eq_some_iff.mp hStep with
      ⟨cert, _, rfl⟩
    rcases hValid.halting msg hStored with
      ⟨hType, hRound, hHalt⟩
    by_cases hDone : m.mvbaDone = true
    · rw [if_pos hDone]
      have hStill : PartyValid cfg id (posted log id []) m :=
        hValid.mono (sent_posted id [])
      exact
        { moves := .idle rfl
          party :=
            { hStill with
              halting := nofun
              adopted := fun _ => hDone }
          started := Nat.le_refl _
          waits := nofun
          ends := .inl ⟨rfl, rfl⟩
          sent := List.forall_mem_nil _ }
    · rw [if_neg hDone]
      have hStill :
          PartyValid cfg id
            (posted log id [broadcast id msg]) m :=
        hValid.mono (sent_posted id _)
      have hEnds :
          Ends id m
            { mvba :=
                { m with
                  halt := .done
                  mvbaDone := true
                  outputs := m.outputs ++ [msg] }
              sent := [broadcast id msg]
              accepted := [cert] } :=
        .inr ⟨rfl, msg, hType, rfl, List.mem_singleton_self _⟩
      exact
        { moves := .idle rfl
          party :=
            { hStill with
              finished := fun _ _ => rfl
              outputs := (hEnds.outputs hValid).1
              ended := (hEnds.outputs hValid).2
              returned := fun _ => rfl
              halting := nofun
              adopted := fun _ => rfl }
          started := Nat.le_refl _
          waits := nofun
          ends := hEnds
          sent := by
            refine says_broadcast ⟨hRound, ?_⟩
            dsimp only [broadcast]
            rw [hType]
            exact hHalt }
  · cases hStep

/- All goroutines return. -/
theorem TurnOk.returnAll
    (hValid : PartyValid cfg id log m)
    (hDone : m.mvbaDone = true) :
    TurnOk cfg id log m l none
      ⟨{ m with returned := true }, [], [], []⟩ := by
  have hStill : PartyValid cfg id (posted log id []) m :=
    hValid.mono (sent_posted id [])
  exact
    { moves := .idle rfl
      party := { hStill with returned := fun _ => hDone }
      started := Nat.le_refl _
      waits := fun h => h
      ends := .inl ⟨rfl, rfl⟩
      sent := List.forall_mem_nil _ }

end Turn

end Agreement

end SpeedingMVBA

end Jumbo
