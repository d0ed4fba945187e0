import Jumbo.SpeedingMVBA.Turns

/-
  What every run keeps of messages that are waited for.

  What parties that run the code send is read as it should
  be. What is waited for has not been handled, and what is
  due has been sent.

  Main declarations:
    * `TurnOk.receive` and `TurnOk.act`
    * `NetHonest` and `NetCounts`
    * `undivided`
    * `reachable_netHonest`
-/

------------------------------------------------------------
-- A Message Is Read
------------------------------------------------------------

namespace Jumbo

namespace SpeedingMVBA

namespace Agreement

open Crypto (Bytes)
open Protocol
open Struct

variable {n : Nat}

section Read

variable {cfg : Config n} {id : Fin n} {log : Log n}
variable {m : MVBA n} {e : Effect n} {packet : Packet n}

/- The party that a message names. -/
theorem leader_of_names
    {c leader : Fin n}
    (hNames : names c packet = true)
    (hIndex : index n packet.msg.rawMsg.id = some leader) :
    leader = c :=
  eq_of_index (of_decide_eq_true hNames) hIndex

/- An answer is signed by its sender for the reader. -/
theorem made_of_answers
    {type : MsgType}
    (hAnswers : Answers cfg log type packet)
    (hDest : packet.dest id = true) :
    ∀ s ∈ packet.msg.sign,
      Made cfg
        (cfg.marshal
          (cfg.rawMsg type id packet.msg.rawMsg.values
            packet.msg.rawMsg.loop)) s := by
  rcases hAnswers with ⟨leader, hOnly, _, hSign⟩
  rw [← hOnly id hDest] at hSign
  intro s hMem
  rw [hSign] at hMem
  cases hMem
  exact made_self _ _

/- A signature of the sender. -/
theorem made_of_eq
    {bytes : Bytes} {q : Fin n} {signs : Option Signature}
    (hSign : signs = some (sign cfg q bytes)) :
    ∀ s ∈ signs, Made cfg bytes s := by
  intro s hMem
  rw [hSign] at hMem
  cases hMem
  exact made_self _ _

/- A message of a loop is read. -/
theorem TurnOk.receiveLoop
    (hN : 2 ≤ n) (hCombines : Combines cfg)
    (hAccepts : ∀ values, cfg.checkInput values = true)
    (hLog : LogOk cfg log) (hOk : PartyOk cfg id log m)
    (hValid : PartyValid cfg id log m)
    (hMem : packet ∈ log.sent)
    (hPacket : Valid cfg log packet)
    (hDest : packet.dest id = true)
    (hLt : packet.msg.rawMsg.loop < m.started)
    (hStep : receiveLoop cfg id m packet.msg = some e) :
    TurnOk cfg id log m packet.msg.rawMsg.loop
      (kindOf n packet.msg) e := by
  have hLoopOk := hOk.loops _ hLt
  have hLoop := hValid.loops _ hLt
  have hBounded := hValid.bounded packet.msg.rawMsg.loop
  have hSent := hLog.sent packet hMem
  have hSays := hPacket.2
  unfold SentOk at hSent
  unfold SpeedingMVBA.receiveLoop at hStep
  unfold kindOf
  dsimp only at hSent hStep hSays
  cases hType : packet.msg.rawMsg.type <;>
    rw [hType] at hSent hStep hSays <;>
    dsimp only at hSent hStep hSays ⊢
  case pbc1 =>
    rcases Option.bind_eq_some_iff.mp hStep with
      ⟨leader, hIndex, hStep⟩
    rw [hIndex]
    have hLeader := leader_of_names hSent.1 hIndex
    have hInput :
        Input log packet.msg.rawMsg.loop leader
          packet.msg.rawMsg.values :=
      ⟨packet, hMem, isKind_iff.mpr ⟨hType, rfl⟩,
        hLeader.symm, rfl⟩
    exact
      (Honest.handlePBC1 hLoop hInput hStep).turnOk
        (.handlePBC1 (hAccepts _) hStep) hLt hValid
  case pbc2 =>
    exact
      (Honest.handleMinePBC2 hCombines hLoop
        (made_of_answers hSays hDest) hStep).turnOk
        (.handleMinePBC2 hStep) hLt hValid
  case pbc3 =>
    rcases Option.bind_eq_some_iff.mp hStep with
      ⟨leader, hIndex, hStep⟩
    rw [hIndex]
    exact
      (Honest.handlePBC3 hLoop hStep).turnOk
        (.handlePBC3 hStep) hLt hValid
  case pbc4 =>
    exact
      (Honest.handleMinePBC4 hCombines hLog hLoopOk hLoop
        (made_of_answers hSays hDest) hStep).turnOk
        (.handleMinePBC4 hStep) hLt hValid
  case pi =>
    exact
      (Honest.handlePi hCombines hLoop
        (of_decide_eq_true hSent.1) hSent.2.1
        (made_of_eq hSays.2) hStep).turnOk
        (.handlePi hStep) hLt hValid
  case share =>
    exact
      (Honest.handleShare hCombines hLoop
        (made_of_eq hSays.2) hStep).turnOk
        (.handleShare hStep) hLt hValid
  case prevYes =>
    refine
      (Honest.handlePrevYes hCombines hLog hLoopOk hLoop
        hSent.1 hStep).turnOk
        (.handlePrevYes hN ?_ ?_ hStep) hLt hValid
    · intro batch hBatch
      rcases hSays with ⟨batch', hSome, hVerify⟩
      rw [hBatch] at hSome
      cases hSome
      exact hVerify
    · intro coin yesFlag no count hFinish
      have hHeld := hLoopOk.finish
      rw [hFinish] at hHeld
      exact hHeld.1
  case prevNo =>
    exact
      (Honest.handlePrevNo hCombines hLog hLoopOk hLoop
        (made_of_eq hSays) hStep).turnOk
        (.handlePrevNo hN hStep) hLt hValid
  case voteYes =>
    exact
      (Honest.handleVoteYes hCombines hLog hLoopOk hLoop
        hBounded hSent.1 (made_of_eq hSays.2) hStep).turnOk
        (.handleVoteYes hStep) hLt hValid
  case voteNo =>
    exact
      (Honest.handleVoteNo hCombines hLog hLoopOk hLoop
        hBounded (made_of_eq hSays.2) hStep).turnOk
        (.handleVoteNo hStep) hLt hValid
  case halt => cases hStep

/- A message is read. -/
theorem TurnOk.receive
    (hN : 2 ≤ n) (hCombines : Combines cfg)
    (hAccepts : ∀ values, cfg.checkInput values = true)
    (hLog : LogOk cfg log) (hOk : PartyOk cfg id log m)
    (hValid : PartyValid cfg id log m)
    (hMem : packet ∈ log.sent)
    (hPacket : Valid cfg log packet)
    (hDest : packet.dest id = true)
    (hStep : step cfg id m (.receive packet.msg) = some e) :
    TurnOk cfg id log m packet.msg.rawMsg.loop
      (kindOf n packet.msg) e := by
  unfold SpeedingMVBA.step at hStep
  rcases Option.ite_none_left_eq_some.mp hStep with
    ⟨_, hStep⟩
  change SpeedingMVBA.receive cfg id m packet.msg = some e
    at hStep
  unfold SpeedingMVBA.receive at hStep
  rcases Option.ite_none_left_eq_some.mp hStep with
    ⟨_, hStep⟩
  split at hStep
  · rename_i hType
    have hHalt := hPacket.2
    rw [hType] at hHalt
    have hNone : kindOf n packet.msg = none := by
      unfold kindOf
      rw [hType]
    rw [hNone]
    exact .handleHalt hValid hType hPacket.1 hHalt hStep
  · rcases Option.ite_none_right_eq_some.mp hStep with
      ⟨hLt, hStep⟩
    exact
      .receiveLoop hN hCombines hAccepts hLog hOk hValid hMem
        hPacket hDest hLt hStep

/- A halt that is read is kept. -/
theorem halt_of_receive
    (hType : packet.msg.rawMsg.type = .halt)
    (hStep : step cfg id m (.receive packet.msg) = some e) :
    e.mvba.halt ≠ .waits := by
  unfold SpeedingMVBA.step at hStep
  rcases Option.ite_none_left_eq_some.mp hStep with
    ⟨_, hStep⟩
  change SpeedingMVBA.receive cfg id m packet.msg = some e
    at hStep
  unfold SpeedingMVBA.receive at hStep
  rcases Option.ite_none_left_eq_some.mp hStep with
    ⟨_, hStep⟩
  rw [if_pos hType] at hStep
  unfold handleHalt at hStep
  rcases Option.ite_none_right_eq_some.mp hStep with
    ⟨_, hStep⟩
  rcases Option.map_eq_some_iff.mp hStep with
    ⟨cert, _, rfl⟩
  exact nofun

/- A step of a party on its own. -/
theorem TurnOk.act
    (hN : 2 ≤ n) (hCombines : Combines cfg)
    (hLog : LogOk cfg log) (hOk : PartyOk cfg id log m)
    (hValid : PartyValid cfg id log m) {a : PartyAction n}
    (hInternal : a.internal = true)
    (hStep : step cfg id m a = some e) :
    ∃ l, TurnOk cfg id log m l none e := by
  have hInLoop :
      ∀ (l : Nat) (effect : Option (Effect n)),
        inLoop m l effect = some e →
          (LoopOk cfg id log l (m.loops l) →
            LoopValid cfg id log l (m.loops l) →
              effect = some e →
                Honest cfg id log m l e ∧
                  Moves id m l none e) →
            ∃ l, TurnOk cfg id log m l none e := by
    intro l effect hIn hBoth
    rcases Option.ite_none_right_eq_some.mp hIn with
      ⟨hLt, hEffect⟩
    rcases hBoth (hOk.loops l hLt) (hValid.loops l hLt)
        hEffect with
      ⟨hHonest, hMoves⟩
    exact ⟨l, hHonest.turnOk hMoves hLt hValid⟩
  unfold SpeedingMVBA.step at hStep
  rcases Option.ite_none_left_eq_some.mp hStep with
    ⟨_, hStep⟩
  cases a with
  | launch input => exact ⟨0, .launch hN hValid hStep⟩
  | startLoop => exact ⟨_, .startLoop hN hOk hValid hStep⟩
  | receive msg => cases hInternal
  | sendPBC2 l leader =>
      exact hInLoop l _ hStep fun h hLoop hEq =>
        ⟨.sendPBC2 h hLoop hEq, .sendPBC2 hEq⟩
  | sendPBC4 l leader =>
      exact hInLoop l _ hStep fun h hLoop hEq =>
        ⟨.sendPBC4 h hLoop hEq, .sendPBC4 hEq⟩
  | returnPBC l leader =>
      exact hInLoop l _ hStep fun _ hLoop hEq =>
        ⟨.returnPBC hLoop hEq, .returnPBC hEq⟩
  | sendPBC3 l =>
      exact hInLoop l _ hStep fun _ hLoop hEq =>
        ⟨.sendPBC3 hLoop hEq, .sendPBC3 hN hEq⟩
  | returnMinePBC l =>
      exact hInLoop l _ hStep fun _ hLoop hEq =>
        ⟨.returnMinePBC hLoop hEq, .returnMinePBC hEq⟩
  | sendShare l =>
      exact hInLoop l _ hStep fun _ hLoop hEq =>
        ⟨.sendShare hLoop hEq, .sendShare hEq⟩
  | shareMine l =>
      exact hInLoop l _ hStep fun _ hLoop hEq =>
        ⟨.handleShareMine hCombines hLoop hEq,
          .handleShareMine hEq⟩
  | storeCoin l =>
      exact hInLoop l _ hStep fun _ hLoop hEq =>
        ⟨.storeCoin hLoop hEq, .storeCoin hEq⟩
  | coin l =>
      exact hInLoop l _ hStep fun h hLoop hEq =>
        ⟨.handleCoin hN hLog h hLoop (hValid.bounded l) hEq,
          .handleCoin hN hEq⟩
  | adoptHalt => exact ⟨0, .adoptHalt hValid hStep⟩
  | returnAll =>
      rcases Option.ite_none_right_eq_some.mp hStep with
        ⟨hDone, hEq⟩
      cases hEq
      exact ⟨0, .returnAll hValid hDone⟩

/- The input stored where a combined signature is held. -/
theorem input_of_holds
    (hOk : PartyOk cfg id log m)
    (hValid : PartyValid cfg id log m)
    {l : Nat} (hLt : l < m.started) {c : Fin n}
    (hHolds : m.holds l c = true) :
    Input log l c ((m.loops l).inputs c) := by
  have hLoop := hOk.loops l hLt
  unfold MVBA.holds at hHolds
  rcases Bool.or_eq_true_iff.mp hHolds with hHolds | hRelies
  · rcases Bool.or_eq_true_iff.mp hHolds with hSigma | hProof
    · exact
        ((hLoop.sigma c).resolve_left
          (of_decide_eq_true hSigma)).2
    · exact (hValid.proofs l c (of_decide_eq_true hProof)).2
  · have hFinish := hLoop.finish
    cases hAt : (m.loops l).finish with
    | coin | next | done =>
        rw [hAt] at hRelies
        cases hRelies
    | prev coin yesFlag no count =>
        rw [hAt] at hRelies hFinish
        simp only [Finish.relies, Bool.and_eq_true,
          decide_eq_true_eq] at hRelies
        rcases hRelies with ⟨rfl, hFlag⟩
        exact hLoop.input_of_many (hFinish.2.1 hFlag)
    | vote coin yes no =>
        rw [hAt] at hRelies hFinish
        simp only [Finish.relies, Bool.and_eq_true,
          decide_eq_true_eq, Bool.not_eq_true',
          List.isEmpty_eq_false_iff] at hRelies
        rcases hRelies with ⟨rfl, hSome⟩
        exact hFinish.2.2.2 hSome

/- No handler of the party stands between its two steps. -/
def atRest (m : MVBA n) : Bool :=
  (match m.halt with
    | .stored _ => false
    | _ => true) &&
    (List.range m.started).all fun l =>
      !(m.loops l).storesCoin

/- At rest the coin of a loop is stored. -/
theorem coinStored_of_atRest
    (hValid : PartyValid cfg id log m)
    (hRest : atRest m = true) {l : Nat}
    (hLt : l < m.started) :
    m.coinStored cfg l = true := by
  rcases Bool.and_eq_true_iff.mp hRest with ⟨hHalt, hCoins⟩
  have hCoin :=
    List.all_eq_true.mp hCoins l (List.mem_range.mpr hLt)
  unfold MVBA.coinStored
  rw [hCoin, Bool.true_and, Bool.or_eq_true_iff]
  left
  cases hAt : m.halt with
  | waits =>
      rw [Bool.or_eq_true_iff]
      exact .inr (decide_eq_true rfl)
  | stored msg =>
      rw [hAt] at hHalt
      cases hHalt
  | done =>
      rw [hValid.adopted hAt]
      rfl

/- What a party at rest reads keeps values and signatures. -/
theorem reads_of_valid
    (hCombines : Combines cfg)
    (hLog : LogOk cfg log) (hOk : PartyOk cfg id log m)
    (hValid : PartyValid cfg id log m)
    (hRest : atRest m = true)
    (hMem : packet ∈ log.sent)
    (hPacket : Valid cfg log packet)
    (hStep : step cfg id m (.receive packet.msg) = some e) :
    Reads True cfg id m packet.msg := by
  unfold SpeedingMVBA.step at hStep
  rcases Option.ite_none_left_eq_some.mp hStep with
    ⟨_, hStep⟩
  change SpeedingMVBA.receive cfg id m packet.msg = some e
    at hStep
  unfold SpeedingMVBA.receive at hStep
  rcases Option.ite_none_left_eq_some.mp hStep with
    ⟨_, hStep⟩
  unfold Reads
  dsimp only
  split at hStep
  · rename_i hType
    rw [hType]
    trivial
  rcases Option.ite_none_right_eq_some.mp hStep with
    ⟨hLt, hStep⟩
  have hLoop := hOk.loops _ hLt
  have hSent := hLog.sent packet hMem
  have hSays := hPacket.2
  have hStored := coinStored_of_atRest hValid hRest hLt
  have hExact :
      ∀ {bytes : Bytes} {q : Fin n},
        packet.msg.sign = some (sign cfg q bytes) →
          ∀ s ∈ packet.msg.sign, exact cfg s = true := by
    intro bytes q hSign s hIn
    rw [hSign] at hIn
    cases hIn
    exact (hCombines.usable q bytes).2
  have hSame :
      ∀ {c : Fin n},
        Input log packet.msg.rawMsg.loop c
            packet.msg.rawMsg.values →
          Input log packet.msg.rawMsg.loop c
              ((m.loops packet.msg.rawMsg.loop).inputs c) →
            cfg.sha packet.msg.rawMsg.values =
              cfg.sha
                ((m.loops packet.msg.rawMsg.loop).inputs
                  c) := by
    intro c hFirst hSecond
    rw [hLog.input_eq hFirst hSecond]
  unfold SentOk at hSent
  unfold SpeedingMVBA.receiveLoop at hStep
  dsimp only at hSent hStep hSays
  cases hType : packet.msg.rawMsg.type <;>
    rw [hType] at hSent hStep hSays <;>
    dsimp only at hSent hStep hSays ⊢
  case pbc1 =>
    intro leader hIndex hHolds
    have hLeader := leader_of_names hSent.1 hIndex
    refine hSame ?_ (input_of_holds hOk hValid hLt hHolds)
    exact
      ⟨packet, hMem, isKind_iff.mpr ⟨hType, rfl⟩,
        hLeader.symm, rfl⟩
  case pbc2 =>
    rcases hSays with ⟨_, _, _, hSign⟩
    exact hExact hSign
  case pbc3 =>
    intro leader hIndex
    rw [hIndex] at hStep
    have hLeader := leader_of_names hSent.1 hIndex
    subst hLeader
    change handlePBC3 cfg m _ _ packet.msg = some e at hStep
    unfold handlePBC3 at hStep
    dsimp only at hStep
    split at hStep
    · rename_i hash hAt
      have hHeld := hLoop.pbc packet.src
      rw [hAt] at hHeld
      exact hLog.hash_eq hSays.1 hHeld
    · cases hStep
  case pi =>
    intro leader hIndex hHeld
    have hLeader := leader_of_names hSent.1 hIndex
    subst hLeader
    refine hSame hSent.2.1 ?_
    rcases hHeld with rfl | hHolds
    · exact hLoop.own
    · exact input_of_holds hOk hValid hLt hHolds
  case prevYes =>
    intro coin no count hFinish hOwn
    have hHeld := hLoop.finish
    rw [hFinish] at hHeld
    rcases hHeld with ⟨hCoin, _⟩
    rw [← hCoin, hOwn] at hSent
    exact hSame hSent.1 hLoop.own
  case voteYes =>
    refine ⟨fun _ => hStored, ?_⟩
    intro coin yes no hFinish
    have hHeld := hLoop.finish
    rw [hFinish] at hHeld
    rcases hHeld with ⟨hCoin, _⟩
    rw [← hCoin] at hSent
    by_cases hOwn : coin = id
    · subst hOwn
      exact .inr (hSame hSent.1 hLoop.own)
    · rcases hLoop.input coin with hNil | hInput
      · left
        refine ⟨hOwn, ?_⟩
        rw [hNil]
        rfl
      · exact .inr (hSame hSent.1 hInput)
  case voteNo =>
    exact ⟨fun _ => hStored, hExact hSays.2⟩

end Read

end Agreement

end SpeedingMVBA

end Jumbo

------------------------------------------------------------
-- Runs
------------------------------------------------------------

namespace Jumbo

namespace SpeedingMVBA

namespace Agreement

open Crypto (Bytes)
open Protocol
open Struct

variable {n : Nat}

/- Every party and every message is in order. -/
structure NetHonest (cfg : Config n) (s : Net n) : Prop where
  net : NetOk cfg s
  party : ∀ id, PartyValid cfg id s.log (s.party id)
  strict :
    ∀ id, SpeedingMVBA.PartyOk True cfg id (s.party id)
  valid : ∀ packet ∈ s.log.sent, Valid cfg s.log packet
  carried :
    ∀ packet ∈ s.log.sent, SpeedingMVBA.SentOk cfg packet

/-
  What is waited for has not been handled, what is due and
  every halt put out has been sent, a halt that is handled is
  kept, and only messages of loops that are left are dropped.
-/
structure NetCounts (s : Net n) : Prop where
  counted :
    ∀ id l kind k, (s.party id).mvbaDone = false →
      count kind ((s.party id).loops l) = some k →
        s.log.tally id .handled
              (fun p => decide (Reaches id kind l p)) +
            own kind ((s.party id).loops l) ≤
          k
  paid :
    ∀ id q l kind, (s.party id).mvbaDone = false → q ≠ id →
      Due id q kind ((s.party id).loops l) →
        ∃ packet ∈ s.log.sent, packet.src = id ∧
          Reaches q kind l packet
  halted :
    ∀ id, (s.party id).mvbaDone = true →
      ∃ packet ∈ s.log.sent, packet.src = id ∧
        packet.msg.rawMsg.type = .halt ∧
          ∀ q, q ≠ id → packet.dest q = true
  heard :
    ∀ id i packet, s.log.sent[i]? = some packet →
      packet.dest id = true → s.log.loc id i = .handled →
        packet.msg.rawMsg.type = .halt →
          (s.party id).halt ≠ .waits
  dropped :
    ∀ id i packet, s.log.sent[i]? = some packet →
      s.log.loc id i = .dropped →
        packet.msg.rawMsg.type ≠ .halt ∧
          packet.msg.rawMsg.loop + 1 < (s.party id).started

section Run

variable {cfg : Config n} {s s' : Net n} {id : Fin n}
variable {log : Log n} {e : Effect n} {l : Nat}
variable {got : Option (Kind n)}

/- What is posted to others counts for nobody. -/
theorem tally_posted_le
    (q : Fin n) {sent : List (Packet n)} (P : Packet n → Bool)
    (hOthers :
      ∀ packet ∈ sent, q = id → P packet = false) :
    (posted log id sent).tally q .handled P ≤
      log.tally q .handled P := by
  apply Finset.card_le_card
  intro i hi
  rw [BroadcastLog.mem_settled_iff] at hi ⊢
  rcases hi with ⟨⟨packet, hAt, hP⟩, hLoc⟩
  by_cases hLt : i < log.sent.length
  · rw [BroadcastLog.getElem?_postAll_of_lt _ _ _ _ _ hLt]
      at hAt
    rw [BroadcastLog.postAll_loc_of_lt _ _ _ _ _ _ hLt]
      at hLoc
    exact ⟨⟨packet, hAt, hP⟩, hLoc⟩
  · exfalso
    have hGe := Nat.le_of_not_lt hLt
    have hBound :
        i < log.sent.length + sent.length := by
      have hSome := (List.getElem?_eq_some_iff.mp hAt).1
      rw [BroadcastLog.postAll_sent, List.length_append]
        at hSome
      exact hSome
    rw [BroadcastLog.postAll_loc_of_ge _ _ _ _ _ _ hGe hBound]
      at hLoc
    by_cases hEq : q = id
    · rw [BroadcastLog.postAll_sent,
        List.getElem?_append_right hGe] at hAt
      rw [hOthers packet (List.mem_of_getElem? hAt) hEq] at hP
      cases hP
    · rw [if_neg hEq] at hLoc
      cases hLoc

/- A step of a party keeps the order. -/
theorem NetHonest.apply
    (hHonest : NetHonest cfg s)
    (hNet : NetOk cfg (s.apply id log e))
    (hSame : log.sent = s.log.sent)
    (hTurn : TurnOk cfg id log (s.party id) l got e)
    (hEffect : EffectOk True cfg id e) :
    NetHonest cfg (s.apply id log e) := by
  have hSub :
      s.log.sent ⊆ (posted log id e.sent).sent := by
    rw [← hSame]
    exact sent_posted id e.sent
  have hMem :
      ∀ {packet},
        packet ∈ (posted log id e.sent).sent →
          packet ∈ s.log.sent ∨ packet ∈ e.sent := by
    intro packet hIn
    rw [BroadcastLog.postAll_sent, hSame] at hIn
    exact List.mem_append.mp hIn
  refine
    { net := hNet
      party := fun q => ?_
      strict := fun q => ?_
      valid := fun packet hIn => ?_
      carried := fun packet hIn => ?_ }
  · change
      PartyValid cfg q (posted log id e.sent)
        (Function.update s.party id e.mvba q)
    by_cases hEq : q = id
    · subst hEq
      rw [Function.update_self]
      exact hTurn.party
    · rw [Function.update_of_ne hEq]
      exact (hHonest.party q).mono hSub
  · change
      SpeedingMVBA.PartyOk True cfg q
        (Function.update s.party id e.mvba q)
    by_cases hEq : q = id
    · subst hEq
      rw [Function.update_self]
      exact hEffect.1
    · rw [Function.update_of_ne hEq]
      exact hHonest.strict q
  · change Valid cfg (posted log id e.sent) packet
    rcases hMem hIn with hOld | hNew
    · exact (hHonest.valid packet hOld).mono hSub
    · exact
        (hTurn.sent packet hNew).1.mono
          (sent_posted id e.sent)
  · rcases hMem hIn with hOld | hNew
    · exact hHonest.carried packet hOld
    · exact hEffect.2 packet hNew

/- A message changes its place and nothing else. -/
theorem NetHonest.carry
    (hHonest : NetHonest cfg s) {i : Nat} {loc : Loc}
    (hFrom : s.log.loc id i ≠ .handled)
    (hTo : loc ≠ .handled) :
    NetHonest cfg { s with log := s.log.move id i loc } where
  net := hHonest.net.carry hFrom hTo
  party := fun q =>
    (hHonest.party q).mono (List.Subset.refl _)
  strict := hHonest.strict
  valid := fun packet hIn =>
    (hHonest.valid packet hIn).mono (List.Subset.refl _)
  carried := hHonest.carried

/- A step of a party counts what it takes. -/
theorem NetCounts.apply
    (hCounts : NetCounts s)
    (hSame : log.sent = s.log.sent)
    (hTurn : TurnOk cfg id log (s.party id) l got e)
    (hTally :
      ∀ q kind k,
        log.tally q .handled
            (fun p => decide (Reaches q kind k p)) ≤
          s.log.tally q .handled
              (fun p => decide (Reaches q kind k p)) +
            if q = id ∧ k = l ∧ got = some kind then 1 else 0)
    (hHeard :
      ∀ q i packet, log.sent[i]? = some packet →
        packet.dest q = true → log.loc q i = .handled →
          packet.msg.rawMsg.type = .halt →
            s.log.loc q i = .handled ∨
              (q = id ∧ e.mvba.halt ≠ .waits))
    (hDropped :
      ∀ q i, log.loc q i = .dropped →
        s.log.loc q i = .dropped) :
    NetCounts (s.apply id log e) := by
  have hSub :
      s.log.sent ⊆ (posted log id e.sent).sent := by
    rw [← hSame]
    exact sent_posted id e.sent
  have hOpen :
      e.mvba.mvbaDone = false →
        (s.party id).mvbaDone = false := by
    intro hNot
    by_contra hDone
    rw [hTurn.ends.done (by simpa using hDone)] at hNot
    cases hNot
  have hPosted :
      ∀ q kind k,
        (posted log id e.sent).tally q .handled
            (fun p => decide (Reaches q kind k p)) ≤
          s.log.tally q .handled
              (fun p => decide (Reaches q kind k p)) +
            if q = id ∧ k = l ∧ got = some kind then 1
            else 0 := by
    intro q kind k
    refine (tally_posted_le q _ ?_).trans (hTally q kind k)
    rintro packet hIn rfl
    refine decide_eq_false fun hReaches => ?_
    have hDest := hReaches.1
    rw [(hTurn.sent packet hIn).2.2] at hDest
    cases hDest
  have hPlace :
      ∀ {i : Nat} {packet : Packet n} {q : Fin n},
        (posted log id e.sent).sent[i]? = some packet →
          (log.sent[i]? = some packet ∧
              (posted log id e.sent).loc q i = log.loc q i) ∨
            (packet ∈ e.sent ∧
              (posted log id e.sent).loc q i =
                if q = id then .handled else .queued) := by
    intro i packet q hAt
    by_cases hLt : i < log.sent.length
    · left
      rw [BroadcastLog.getElem?_postAll_of_lt _ _ _ _ _ hLt]
        at hAt
      exact
        ⟨hAt,
          BroadcastLog.postAll_loc_of_lt _ _ _ _ _ _ hLt⟩
    · right
      have hGe := Nat.le_of_not_lt hLt
      have hBound :
          i < log.sent.length + e.sent.length := by
        have hSome := (List.getElem?_eq_some_iff.mp hAt).1
        rw [BroadcastLog.postAll_sent, List.length_append]
          at hSome
        exact hSome
      rw [BroadcastLog.postAll_sent,
        List.getElem?_append_right hGe] at hAt
      exact
        ⟨List.mem_of_getElem? hAt,
          BroadcastLog.postAll_loc_of_ge _ _ _ _ _ _ hGe
            hBound⟩
  refine
    { counted := fun q k kind c hNot hCount => ?_
      paid := fun q r k kind hNot hNe hDue => ?_
      halted := fun q hDone => ?_
      heard := fun q i packet hAt hDest hLoc hType => ?_
      dropped := fun q i packet hAt hLoc => ?_ }
  · change
      (Function.update s.party id e.mvba q).mvbaDone = false
        at hNot
    change
      count kind
          ((Function.update s.party id e.mvba q).loops k) =
        some c at hCount
    change
      (posted log id e.sent).tally q .handled
            (fun p => decide (Reaches q kind k p)) +
          own kind
            ((Function.update s.party id e.mvba q).loops k) ≤
        c
    have hMore := hPosted q kind k
    by_cases hEq : q = id
    · subst hEq
      rw [Function.update_self] at hNot hCount ⊢
      by_cases hLoop : k = l
      · subst hLoop
        rcases hTurn.moves.counted (hOpen hNot) kind c
            hCount with
          ⟨c', hOld, hLe⟩
        have hBefore :=
          hCounts.counted q k kind c' (hOpen hNot) hOld
        simp only [true_and] at hMore
        omega
      · rw [hTurn.moves.loops k hLoop] at hCount ⊢
        have hBefore :=
          hCounts.counted q k kind c (hOpen hNot) hCount
        rw [if_neg fun h => hLoop h.2.1] at hMore
        omega
    · rw [Function.update_of_ne hEq] at hNot hCount ⊢
      have hBefore := hCounts.counted q k kind c hNot hCount
      rw [if_neg fun h => hEq h.1] at hMore
      omega
  · change
      (Function.update s.party id e.mvba q).mvbaDone = false
        at hNot
    change
      Due q r kind
        ((Function.update s.party id e.mvba q).loops k) at hDue
    have hOld :
        (s.party q).mvbaDone = false →
          Due q r kind ((s.party q).loops k) →
            ∃ packet ∈ (posted log id e.sent).sent,
              packet.src = q ∧ Reaches r kind k packet := by
      intro hBefore hDue
      rcases hCounts.paid q r k kind hBefore hNe hDue with
        ⟨packet, hIn, hPacket⟩
      exact ⟨packet, hSub hIn, hPacket⟩
    by_cases hEq : q = id
    · subst hEq
      rw [Function.update_self] at hNot hDue
      by_cases hLoop : k = l
      · subst hLoop
        rcases hTurn.moves.pays hNot r kind hNe hDue with
          hBefore | ⟨packet, hIn, hReaches⟩
        · exact hOld (hOpen hNot) hBefore
        · exact
            ⟨packet, mem_posted hIn,
              (hTurn.sent packet hIn).2.1, hReaches⟩
      · rw [hTurn.moves.loops k hLoop] at hDue
        exact hOld (hOpen hNot) hDue
    · rw [Function.update_of_ne hEq] at hNot hDue
      exact hOld hNot hDue
  · change
      (Function.update s.party id e.mvba q).mvbaDone = true
        at hDone
    have hOld :
        (s.party q).mvbaDone = true →
          ∃ packet ∈ (posted log id e.sent).sent,
            packet.src = q ∧
              packet.msg.rawMsg.type = .halt ∧
                ∀ r, r ≠ q → packet.dest r = true := by
      intro hBefore
      rcases hCounts.halted q hBefore with
        ⟨packet, hIn, hPacket⟩
      exact ⟨packet, hSub hIn, hPacket⟩
    by_cases hEq : q = id
    · subst hEq
      rw [Function.update_self] at hDone
      rcases hTurn.ends with
        ⟨hSameDone, _⟩ | ⟨_, msg, hType, _, hIn⟩
      · exact hOld (hSameDone ▸ hDone)
      · exact
          ⟨_, mem_posted hIn, rfl, hType,
            fun r hNe => decide_eq_true hNe⟩
    · rw [Function.update_of_ne hEq] at hDone
      exact hOld hDone
  · change (posted log id e.sent).sent[i]? = some packet
      at hAt
    change (posted log id e.sent).loc q i = .handled at hLoc
    change
      (Function.update s.party id e.mvba q).halt ≠ .waits
    rcases hPlace (q := q) hAt with ⟨hOld, hEq⟩ | ⟨hIn, hEq⟩
    · rw [hEq] at hLoc
      rcases hHeard q i packet hOld hDest hLoc hType with
        hBefore | ⟨rfl, hNow⟩
      · rw [hSame] at hOld
        have hKept :=
          hCounts.heard q i packet hOld hDest hBefore hType
        by_cases hEq : q = id
        · subst hEq
          rw [Function.update_self]
          exact fun h => hKept (hTurn.waits h)
        · rw [Function.update_of_ne hEq]
          exact hKept
      · rw [Function.update_self]
        exact hNow
    · rw [hEq] at hLoc
      split at hLoc
      · rename_i hOwn
        rw [hOwn, (hTurn.sent packet hIn).2.2] at hDest
        cases hDest
      · cases hLoc
  · change (posted log id e.sent).sent[i]? = some packet
      at hAt
    change (posted log id e.sent).loc q i = .dropped at hLoc
    change
      _ ∧ _ < (Function.update s.party id e.mvba q).started
    rcases hPlace (q := q) hAt with ⟨hOld, hEq⟩ | ⟨_, hEq⟩
    · rw [hEq] at hLoc
      rw [hSame] at hOld
      rcases hCounts.dropped q i packet hOld
          (hDropped q i hLoc) with
        ⟨hType, hLeft⟩
      refine ⟨hType, ?_⟩
      by_cases hEq : q = id
      · subst hEq
        rw [Function.update_self]
        exact Nat.lt_of_lt_of_le hLeft hTurn.started
      · rw [Function.update_of_ne hEq]
        exact hLeft
    · rw [hEq] at hLoc
      split at hLoc
      · cases hLoc
      · cases hLoc

/- A message changes its place and is not handled. -/
theorem NetCounts.carry
    (hCounts : NetCounts s) {i : Nat} {loc : Loc}
    {packet : Packet n}
    (hAt : s.log.sent[i]? = some packet)
    (hFrom : s.log.loc id i ≠ .handled)
    (hTo : loc ≠ .handled)
    (hDrop :
      loc = .dropped →
        packet.msg.rawMsg.type ≠ .halt ∧
          packet.msg.rawMsg.loop + 1 <
            (s.party id).started) :
    NetCounts { s with log := s.log.move id i loc } := by
  have hLoc :
      ∀ q j, (s.log.move id i loc).loc q j = loc ∨
        (s.log.move id i loc).loc q j = s.log.loc q j := by
    intro q j
    by_cases hHere : q = id ∧ j = i
    · rcases hHere with ⟨rfl, rfl⟩
      exact .inl (s.log.move_loc_self q j loc)
    · exact
        .inr (s.log.move_loc_of_ne loc
          (not_and_or.mp hHere))
  refine
    { counted := fun q k kind c hNot hCount => ?_
      paid := hCounts.paid
      halted := hCounts.halted
      heard := fun q j packet' hAt' hDest hHandled hType => ?_
      dropped := fun q j packet' hAt' hGone => ?_ }
  · change
      (s.log.move id i loc).tally q .handled _ + _ ≤ c
    rw [s.log.tally_move_other id q i _ hTo hFrom]
    exact hCounts.counted q k kind c hNot hCount
  · change (s.log.move id i loc).loc q j = .handled
      at hHandled
    rcases hLoc q j with hNew | hOld
    · rw [hNew] at hHandled
      exact absurd hHandled hTo
    · rw [hOld] at hHandled
      exact
        hCounts.heard q j packet' hAt' hDest hHandled hType
  · change (s.log.move id i loc).loc q j = .dropped at hGone
    by_cases hHere : q = id ∧ j = i
    · rcases hHere with ⟨rfl, rfl⟩
      rw [s.log.move_loc_self] at hGone
      have hEq : packet' = packet :=
        Option.some.inj (hAt'.symm.trans hAt)
      subst hEq
      exact hDrop hGone
    · rw [s.log.move_loc_of_ne loc (not_and_or.mp hHere)]
        at hGone
      exact hCounts.dropped q j packet' hAt' hGone

/- No message is read between two steps of a handler. -/
def undivided (s : Net n) : NetAction n → Bool
| .receive id _ => atRest (s.party id)
| _ => true

/- A step keeps all in order. -/
theorem NetHonest.exec
    (hN : 2 ≤ n) (hCombines : Combines cfg)
    (hAccepts : ∀ values, cfg.checkInput values = true)
    (hHonest : NetHonest cfg s) (hCounts : NetCounts s)
    {a : NetAction n} (hWhole : undivided s a = true)
    (hExec : Net.exec cfg s a = some s') :
    NetHonest cfg s' ∧ NetCounts s' := by
  have hNet := hHonest.net.exec hN hExec
  cases netStep_of_exec hExec with
  | @act id a e hAlive hInternal hStep =>
      rcases TurnOk.act hN hCombines hHonest.net.log
          (hHonest.net.party id) (hHonest.party id) hInternal
          hStep with
        ⟨l, hTurn⟩
      have hEffect : EffectOk True cfg id e := by
        refine
          (hHonest.strict id).step hN hCombines ?_ hStep
        rintro msg rfl
        cases hInternal
      exact
        ⟨hHonest.apply hNet rfl hTurn hEffect,
          hCounts.apply rfl hTurn
            (fun _ _ _ => Nat.le_add_right _ _)
            (fun _ _ _ _ _ hLoc _ => .inl hLoc)
            fun _ _ hLoc => hLoc⟩
  | @receive id i packet e hAlive hAt hDest hLoc hStep =>
      have hMem : packet ∈ s.log.sent :=
        List.mem_of_getElem? hAt
      have hMoved :
          Grows id s.log (s.log.move id i .handled) :=
        ⟨List.Subset.refl _,
          s.log.tally_le_move id id i .handled⟩
      have hTurn :
          TurnOk cfg id (s.log.move id i .handled) (s.party id)
            packet.msg.rawMsg.loop (kindOf n packet.msg) e :=
        .receive hN hCombines hAccepts
          (hHonest.net.log.of_sent rfl)
          ((hHonest.net.party id).mono hMoved)
          ((hHonest.party id).mono hMoved.sent) hMem
          ((hHonest.valid packet hMem).mono hMoved.sent)
          hDest hStep
      have hEffect : EffectOk True cfg id e := by
        refine
          (hHonest.strict id).step hN hCombines ?_ hStep
        rintro msg hEq
        cases hEq
        exact
          reads_of_valid hCombines hHonest.net.log
            (hHonest.net.party id) (hHonest.party id) hWhole
            hMem (hHonest.valid packet hMem) hStep
      refine
        ⟨hHonest.apply hNet rfl hTurn hEffect,
          hCounts.apply rfl hTurn ?_ ?_ ?_⟩
      · intro q kind k
        by_cases hEq : q = id
        · subst hEq
          rw [s.log.tally_move_to q _ hAt
            (by rw [hLoc]; exact nofun)]
          refine Nat.add_le_add_left ?_ _
          by_cases hReaches : Reaches q kind k packet
          · rw [if_pos (decide_eq_true hReaches),
              if_pos ⟨rfl, hReaches.2.1.symm, hReaches.2.2⟩]
          · rw [if_neg (by simpa using hReaches)]
            exact Nat.zero_le _
        · rw [s.log.tally_move_of_ne i _ _ _ hEq]
          exact Nat.le_add_right _ _
      · intro q j packet' hAt' _ hHandled hType
        by_cases hHere : q = id ∧ j = i
        · rcases hHere with ⟨rfl, rfl⟩
          have hEq : packet' = packet :=
            Option.some.inj (hAt'.symm.trans hAt)
          subst hEq
          exact .inr ⟨rfl, halt_of_receive hType hStep⟩
        · rw [s.log.move_loc_of_ne _ (not_and_or.mp hHere)]
            at hHandled
          exact .inl hHandled
      · intro q j hGone
        by_cases hHere : q = id ∧ j = i
        · rcases hHere with ⟨rfl, rfl⟩
          rw [s.log.move_loc_self] at hGone
          cases hGone
        · rw [s.log.move_loc_of_ne _ (not_and_or.mp hHere)]
            at hGone
          exact hGone
  | transmit hAt hDest hLoc hAlive =>
      exact
        ⟨hHonest.carry (by rw [hLoc]; exact nofun) nofun,
          hCounts.carry hAt (by rw [hLoc]; exact nofun) nofun
            nofun⟩
  | drop hAt hDest hLoc hType hLeft =>
      exact
        ⟨hHonest.carry (by rw [hLoc]; exact nofun) nofun,
          hCounts.carry hAt (by rw [hLoc]; exact nofun) nofun
            fun _ => ⟨hType, hLeft⟩⟩
  | crash hAlive =>
      exact
        ⟨⟨hNet, hHonest.party, hHonest.strict, hHonest.valid,
            hHonest.carried⟩,
          ⟨hCounts.counted, hCounts.paid, hCounts.halted,
            hCounts.heard, hCounts.dropped⟩⟩

end Run

end Agreement

end SpeedingMVBA

end Jumbo
