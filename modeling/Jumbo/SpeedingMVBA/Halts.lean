import Jumbo.SpeedingMVBA.Ballots
import Jumbo.SpeedingMVBA.NextLoop

/-
  What the parties of a round output.

  Any of them may crash at any point and messages come in any
  order. All halts carry the same values, whatever the loops
  they are for; once a party has halted, every later input
  has those values; and they have been the input of a party.

  Main declarations:
    * `StepOk`
    * `NetOk`
    * `halts_agree`
    * `inputs_locked`
    * `halts_valid`
-/

------------------------------------------------------------
-- Steps of a Party
------------------------------------------------------------

namespace Jumbo

namespace SpeedingMVBA

namespace Agreement

open Crypto (Bytes)
open Protocol
open Struct

variable {n : Nat}

/- A step of a party, in whatever loops. -/
structure StepOk
    (cfg : Config n) (id : Fin n) (log : Log n)
    (m m' : MVBA n) (sent : List (Packet n)) : Prop where
  party : PartyOk cfg id (posted log id sent) m'
  started : m.started ≤ m'.started
  later : ∀ k < m.started, Later (m.loops k) (m'.loops k)
  few : sent.length ≤ 1
  sent : ∀ packet ∈ sent, Sends cfg id log m m' packet

section Party

variable {cfg : Config n} {id : Fin n} {log log' : Log n}
variable {m m' : MVBA n} {l : Nat} {e : Effect n}
variable {msg : Msg} {packet : Packet n}
variable {sent : List (Packet n)}

/- A step of a loop keeps the party in order. -/
theorem LoopStep.stepOk
    (hStep : LoopStep cfg id log m l m' sent)
    (hOk : PartyOk cfg id log m) (hLt : l < m.started) :
    StepOk cfg id log m m' sent := by
  have hHere :
      (m.loops l).finish ≠ .next → m.loop = l := by
    intro hRuns
    have hNot : ¬ l < m.loop := fun h =>
      hRuns ((hOk.left l hLt).mpr h)
    have hAhead := hOk.ahead.2
    omega
  refine
    { party :=
        { loops := ?_
          ahead := ?_
          left := ?_
          outputs := ?_
          halt := ?_ }
      started := by rw [hStep.started]
      later := ?_
      few := hStep.few
      sent := hStep.sent }
  · intro k hk
    rw [hStep.started] at hk
    by_cases hEq : k = l
    · subst hEq
      exact hStep.ok
    · rw [hStep.loops k hEq]
      exact (hOk.loops k hk).mono (grows_posted _)
  · have hAhead := hOk.ahead
    rw [hStep.started]
    rcases hStep.turn with ⟨hLoop, _⟩ | ⟨hLoop, hRuns, _⟩
    · rw [hLoop]
      exact hAhead
    · have hEq := hHere hRuns
      rw [hLoop]
      exact ⟨by omega, by omega⟩
  · intro k hk
    rw [hStep.started] at hk
    have hOld := hOk.left k hk
    rcases hStep.turn with
      ⟨hLoop, hNext⟩ | ⟨hLoop, hRuns, hNext⟩
    · rw [hLoop]
      by_cases hEq : k = l
      · subst hEq
        exact hNext.trans hOld
      · rw [hStep.loops k hEq]
        exact hOld
    · have hAt := hHere hRuns
      rw [hLoop]
      by_cases hEq : k = l
      · subst hEq
        exact ⟨fun _ => by omega, fun _ => hNext⟩
      · rw [hStep.loops k hEq, hOld]
        omega
  · intro msg hMem
    have hSub : log.sent ⊆ (posted log id sent).sent :=
      sent_posted id sent
    rcases hStep.outputs msg hMem with hOld | hHalt
    · exact (hOk.outputs msg hOld).mono hSub
    · exact hHalt.mono hSub
  · intro msg hStored
    rw [hStep.halt] at hStored
    rcases hOk.halt msg hStored with ⟨hType, hHalt⟩
    exact ⟨hType, hHalt.mono (sent_posted id sent)⟩
  · intro k _
    by_cases hEq : k = l
    · subst hEq
      exact hStep.later
    · rw [hStep.loops k hEq]
      exact later_rfl

/- A loop that has not made a step. -/
theorem loopOk_new
    {input : Bytes} (hInput : Input log l id input) :
    LoopOk cfg id log l (LoopInfo.new cfg id input) where
  own := by
    unfold LoopInfo.new
    dsimp only
    rw [Function.update_self]
    exact hInput
  input := by
    intro c
    unfold LoopInfo.new
    dsimp only
    by_cases hEq : c = id
    · subst hEq
      rw [Function.update_self]
      exact .inr hInput
    · rw [Function.update_of_ne hEq]
      exact .inl rfl
  sigma := fun _ => .inl rfl
  pi := fun _ => .inl rfl
  ownPbc := by
    unfold LoopInfo.new
    dsimp only
    rw [Function.update_self]
  pbc := by
    intro c
    have hAt :
        (LoopInfo.new cfg id input).pbc c = .wait1 ∨
          (LoopInfo.new cfg id input).pbc c = .done := by
      unfold LoopInfo.new
      dsimp only
      by_cases hEq : c = id
      · subst hEq
        rw [Function.update_self]
        exact .inr rfl
      · rw [Function.update_of_ne hEq]
        exact .inl rfl
    rcases hAt with hAt | hAt <;> rw [hAt] <;> trivial
  mine := trivial
  coin := nofun
  first := nofun
  finish := trivial

/- The launch starts the first loop with the input. -/
theorem StepOk.launch
    (hOk : PartyOk cfg id log m) {input : Bytes}
    (hStep : launch cfg id m input = some e) :
    StepOk cfg id log m e.mvba e.sent := by
  unfold SpeedingMVBA.launch at hStep
  rcases Option.ite_none_right_eq_some.mp hStep with
    ⟨hFresh, hEq⟩
  cases hEq
  have hAhead := hOk.ahead.1
  refine
    { party :=
        { loops := ?_
          ahead := ?_
          left := ?_
          outputs := ?_
          halt := ?_ }
      started := by rw [hFresh]; exact Nat.zero_le _
      later := fun k hk => by omega
      few := Nat.le_refl _
      sent := List.forall_mem_singleton.mpr ?_ }
  · intro k hk
    have hZero : k = 0 := Nat.lt_one_iff.mp hk
    subst hZero
    simp only [MVBA.setLoop, Function.update_self]
    refine
      loopOk_new
        ⟨_, mem_posted (List.mem_singleton_self _), ?_, rfl,
          rfl⟩
    simp [isKind, broadcast, Config.rawMsg]
  · simp only [MVBA.setLoop]
    exact ⟨by omega, by omega⟩
  · intro k hk
    have hZero : k = 0 := Nat.lt_one_iff.mp hk
    subst hZero
    simp only [MVBA.setLoop, Function.update_self]
    refine ⟨fun h => ?_, fun h => by omega⟩
    cases h
  · intro msg hMem
    exact
      (hOk.outputs msg hMem).mono
        (sent_posted id _)
  · intro msg hStored
    rcases hOk.halt msg hStored with ⟨hType, hHalt⟩
    exact ⟨hType, hHalt.mono (sent_posted id _)⟩
  · refine
      { src := rfl
        ok := ⟨names_self rfl, trivial⟩
        past :=
          ⟨Nat.zero_lt_one,
            fun k hk => absurd hk.symm (Nat.succ_ne_zero k)⟩
        fresh := ?_ }
    rintro old _ hPast ⟨_, _, s, hOld, hNew⟩
    cases hNew
    have hStarted := (hPast.input hOld).1
    omega

/- The next loop is started with what the last one carried. -/
theorem StepOk.startLoop
    (hOk : PartyOk cfg id log m)
    (hStep : startLoop cfg id m = some e) :
    StepOk cfg id log m e.mvba e.sent := by
  unfold SpeedingMVBA.startLoop at hStep
  rcases Option.ite_none_right_eq_some.mp hStep with
    ⟨⟨hPos, hLoop, _⟩, hEq⟩
  cases hEq
  have hInput :
      Input log m.started id
        (m.loops (m.started - 1)).lastinput := by
    have hLast : m.started - 1 < m.started := by omega
    have hFinish := (hOk.loops _ hLast).finish
    rw [(hOk.left _ hLast).mpr (by omega)] at hFinish
    dsimp only [FinishOk] at hFinish
    rw [Nat.sub_add_cancel hPos] at hFinish
    exact hFinish
  have hKeep :
      ∀ k < m.started,
        (m.setLoop m.started
            (LoopInfo.new cfg id
              (m.loops (m.started - 1)).lastinput)).loops k =
          m.loops k :=
    fun k hk => setLoop_other (by omega)
  have hGrows : Grows id log (posted log id []) :=
    grows_posted []
  refine
    { party :=
        { loops := ?_
          ahead := ?_
          left := ?_
          outputs := ?_
          halt := (hOk.mono hGrows).halt }
      started := Nat.le_succ _
      later := fun k hk => ?_
      few := Nat.zero_le _
      sent := List.forall_mem_nil _ }
  · intro k hk
    dsimp only
    rcases Nat.lt_succ_iff_lt_or_eq.mp hk with hOld | rfl
    · rw [hKeep k hOld]
      exact (hOk.loops k hOld).mono hGrows
    · rw [setLoop_same]
      exact loopOk_new (hInput.mono hGrows.sent)
  · simp only [MVBA.setLoop]
    exact ⟨by omega, by omega⟩
  · intro k hk
    dsimp only
    rcases Nat.lt_succ_iff_lt_or_eq.mp hk with hOld | rfl
    · rw [hKeep k hOld]
      exact hOk.left k hOld
    · rw [setLoop_same]
      refine ⟨fun h => ?_, fun h => ?_⟩
      · cases h
      · change m.started < m.loop at h
        omega
  · intro msg hMem
    exact (hOk.outputs msg hMem).mono hGrows.sent
  · dsimp only
    rw [hKeep k hk]
    exact later_rfl

/- A halt that is taken is one that may be put out. -/
theorem StepOk.handleHalt
    (hOk : PartyOk cfg id log m)
    (hType : msg.rawMsg.type = .halt)
    (hHalt : HaltOk cfg log msg)
    (hStep : handleHalt cfg m msg = some e) :
    StepOk cfg id log m e.mvba e.sent := by
  unfold SpeedingMVBA.handleHalt at hStep
  rcases Option.ite_none_right_eq_some.mp hStep with
    ⟨_, hStep⟩
  rcases Option.map_eq_some_iff.mp hStep with ⟨cert2, _, hEq⟩
  cases hEq
  have hGrows : Grows id log (posted log id []) :=
    grows_posted []
  have hStill := hOk.mono hGrows
  refine
    { party :=
        { loops := hStill.loops
          ahead := hOk.ahead
          left := hOk.left
          outputs := hStill.outputs
          halt := ?_ }
      started := Nat.le_refl _
      later := fun _ _ => later_rfl
      few := Nat.zero_le _
      sent := List.forall_mem_nil _ }
  intro got hStored
  cases hStored
  exact ⟨hType, hHalt.mono hGrows.sent⟩

/- A halt that is adopted is passed on. -/
theorem StepOk.adoptHalt
    (hOk : PartyOk cfg id log m)
    (hStep : adoptHalt cfg id m = some e) :
    StepOk cfg id log m e.mvba e.sent := by
  unfold SpeedingMVBA.adoptHalt at hStep
  split at hStep
  · rename_i msg hStored
    rcases hOk.halt msg hStored with ⟨hType, hHalt⟩
    rcases Option.ite_none_right_eq_some.mp hStep with
      ⟨_, hStep⟩
    rcases Option.map_eq_some_iff.mp hStep with
      ⟨cert, _, hEq⟩
    split at hEq
    · cases hEq
      have hStill := hOk.mono (grows_posted [])
      exact
        { party :=
            { loops := hStill.loops
              ahead := hOk.ahead
              left := hOk.left
              outputs := hStill.outputs
              halt := nofun }
          started := Nat.le_refl _
          later := fun _ _ => later_rfl
          few := Nat.zero_le _
          sent := List.forall_mem_nil _ }
    · cases hEq
      have hGrows :
          Grows id log (posted log id [broadcast id msg]) :=
        grows_posted _
      have hStill := hOk.mono hGrows
      refine
        { party :=
            { loops := hStill.loops
              ahead := hOk.ahead
              left := hOk.left
              outputs := ?_
              halt := nofun }
          started := Nat.le_refl _
          later := fun _ _ => later_rfl
          few := Nat.le_refl _
          sent := List.forall_mem_singleton.mpr ?_ }
      · intro got hMem
        rcases List.mem_append.mp hMem with hOld | hNew
        · exact hStill.outputs got hOld
        · rw [List.mem_singleton.mp hNew]
          exact hHalt.mono hGrows.sent
      · refine .plain rfl (by rw [broadcast, hType]; rfl) ?_
        unfold SentOk
        simp only [broadcast, hType]
        exact hHalt
  · cases hStep

end Party

end Agreement

end SpeedingMVBA

end Jumbo

------------------------------------------------------------
-- Receiving
------------------------------------------------------------

namespace Jumbo

namespace SpeedingMVBA

namespace Agreement

open Crypto (Bytes)
open Protocol
open Struct

variable {n : Nat}

section Receive

variable {cfg : Config n} {id : Fin n} {log log' : Log n}
variable {m : MVBA n} {e : Effect n} {packet : Packet n}

/- A message of a loop, by its type. -/
theorem LoopStep.receiveLoop
    (hLog : LogOk cfg log')
    (hOk : PartyOk cfg id log m)
    (hMoved : Moved id log log' packet)
    (hDest : packet.dest id = true)
    (hLt : packet.msg.rawMsg.loop < m.started)
    (hStep : receiveLoop cfg id m packet.msg = some e) :
    LoopStep cfg id log' m packet.msg.rawMsg.loop e.mvba
      e.sent := by
  have hLoop := hOk.loops _ hLt
  have hLoop' := hLoop.mono hMoved.toGrows
  have hSent := hLog.sent packet hMoved.mem
  unfold SentOk at hSent
  unfold SpeedingMVBA.receiveLoop at hStep
  dsimp only at hSent hStep
  cases hType : packet.msg.rawMsg.type <;>
    rw [hType] at hSent hStep <;>
    dsimp only at hSent hStep
  case pbc1 =>
    rcases Option.bind_eq_some_iff.mp hStep with
      ⟨leader, hIndex, hStep⟩
    have hEq := eq_of_index (of_decide_eq_true hSent.1) hIndex
    refine .handlePBC1 hLoop' ?_ hStep
    exact
      ⟨packet, hMoved.mem, isKind_iff.mpr ⟨hType, rfl⟩,
        hEq.symm, rfl⟩
  case pbc2 => exact .handleMinePBC2 hLoop' hStep
  case pbc3 =>
    rcases Option.bind_eq_some_iff.mp hStep with
      ⟨leader, _, hStep⟩
    exact .handlePBC3 hLoop' hSent.2 hStep
  case pbc4 =>
    exact
      .handleMinePBC4 hLog hLoop hMoved rfl hType rfl
        (hSent.2 id hDest) hStep
  case pi =>
    exact
      .handlePi hLoop' (of_decide_eq_true hSent.1) hSent.2.1
        hSent.2.2 hStep
  case share => exact .handleShare hLoop' hStep
  case prevYes =>
    exact
      .handlePrevYes hLog hLoop' hLt hSent.1 hSent.2 hStep
  case prevNo =>
    exact
      .handlePrevNo hLog hLoop hLt hMoved
        (isKind_iff.mpr ⟨hType, rfl⟩) hStep
  case voteYes =>
    exact
      .handleVoteYes hLog hLoop hLt hMoved
        (isKind_iff.mpr ⟨hType, rfl⟩) hSent.1 hSent.2 hStep
  case voteNo =>
    exact
      .handleVoteNo hLog hLoop hLt hMoved
        (isKind_iff.mpr ⟨hType, rfl⟩) hStep
  case halt => cases hStep

/- Reading a message keeps the party in order. -/
theorem StepOk.receive
    (hLog : LogOk cfg log')
    (hOk : PartyOk cfg id log m)
    (hMoved : Moved id log log' packet)
    (hDest : packet.dest id = true)
    (hStep : step cfg id m (.receive packet.msg) = some e) :
    StepOk cfg id log' m e.mvba e.sent := by
  have hOk' := hOk.mono hMoved.toGrows
  unfold SpeedingMVBA.step at hStep
  rcases Option.ite_none_left_eq_some.mp hStep with
    ⟨_, hStep⟩
  change SpeedingMVBA.receive cfg id m packet.msg = some e
    at hStep
  unfold SpeedingMVBA.receive at hStep
  rcases Option.ite_none_left_eq_some.mp hStep with
    ⟨_, hStep⟩
  split at hStep
  · rename_i hType
    have hSent := hLog.sent packet hMoved.mem
    unfold SentOk at hSent
    dsimp only at hSent
    rw [hType] at hSent
    exact .handleHalt hOk' hType hSent hStep
  · rcases Option.ite_none_right_eq_some.mp hStep with
      ⟨hLt, hStep⟩
    exact
      (LoopStep.receiveLoop hLog hOk hMoved hDest hLt
        hStep).stepOk hOk' hLt

/- A step of a party on its own. -/
theorem StepOk.act
    (hN : 2 ≤ n)
    (hOk : PartyOk cfg id log m) {a : PartyAction n}
    (hInternal : a.internal = true)
    (hStep : step cfg id m a = some e) :
    StepOk cfg id log m e.mvba e.sent := by
  have hInLoop :
      ∀ (l : Nat) (effect : Option (Effect n)),
        inLoop m l effect = some e →
          (LoopOk cfg id log l (m.loops l) → l < m.started →
            effect = some e →
              LoopStep cfg id log m l e.mvba e.sent) →
            StepOk cfg id log m e.mvba e.sent := by
    intro l effect hIn hLoopStep
    rcases Option.ite_none_right_eq_some.mp hIn with
      ⟨hLt, hEffect⟩
    exact
      (hLoopStep (hOk.loops l hLt) hLt hEffect).stepOk hOk hLt
  unfold SpeedingMVBA.step at hStep
  rcases Option.ite_none_left_eq_some.mp hStep with
    ⟨_, hStep⟩
  cases a with
  | launch input => exact .launch hOk hStep
  | startLoop => exact .startLoop hOk hStep
  | receive msg => cases hInternal
  | sendPBC2 l leader =>
      exact hInLoop l _ hStep fun h _ => .sendPBC2 h
  | sendPBC4 l leader =>
      exact hInLoop l _ hStep fun h hLt => .sendPBC4 h hLt
  | returnPBC l leader =>
      exact hInLoop l _ hStep fun h _ => .returnPBC h
  | sendPBC3 l =>
      exact hInLoop l _ hStep fun h hLt => .sendPBC3 h hLt
  | returnMinePBC l =>
      exact hInLoop l _ hStep fun h _ => .returnMinePBC h
  | sendShare l =>
      exact hInLoop l _ hStep fun h _ => .sendShare h
  | shareMine l =>
      exact hInLoop l _ hStep fun h _ => .handleShareMine h
  | storeCoin l =>
      exact hInLoop l _ hStep fun h _ => .storeCoin h
  | coin l =>
      exact hInLoop l _ hStep fun h hLt => .handleCoin hN h hLt
  | adoptHalt => exact .adoptHalt hOk hStep
  | returnAll =>
      rcases Option.ite_none_right_eq_some.mp hStep with
        ⟨_, hEq⟩
      cases hEq
      have hStill := hOk.mono (grows_posted [])
      exact
        { party :=
            ⟨hStill.loops, hOk.ahead, hOk.left,
              hStill.outputs, hStill.halt⟩
          started := Nat.le_refl _
          later := fun _ _ => later_rfl
          few := Nat.zero_le _
          sent := List.forall_mem_nil _ }

end Receive

end Agreement

end SpeedingMVBA

end Jumbo

------------------------------------------------------------
-- The Network
------------------------------------------------------------

namespace Jumbo

namespace SpeedingMVBA

namespace Agreement

open Crypto (Bytes)
open Protocol
open Struct

variable {n : Nat}

/-
  The messages and all parties are in order, and each
  message lies in the past of its sender.
-/
structure NetOk (cfg : Config n) (s : Net n) : Prop where
  log : LogOk cfg s.log
  past :
    ∀ packet ∈ s.log.sent,
      Past packet.src (s.party packet.src) packet
  party : ∀ id, PartyOk cfg id s.log (s.party id)

section Net

variable {cfg : Config n} {s s' : Net n} {id : Fin n}
variable {log : Log n} {e : Effect n}

/- A step of a party that has handled what `log` says. -/
theorem NetOk.apply
    (hNet : NetOk cfg s)
    (hSame : log.sent = s.log.sent)
    (hGrows : ∀ q, Grows q s.log log)
    (hLog : LogOk cfg log)
    (hStep :
      StepOk cfg id log (s.party id) e.mvba e.sent) :
    NetOk cfg (s.apply id log e) := by
  have hSub : log.sent ⊆ (posted log id e.sent).sent :=
    sent_posted id e.sent
  refine
    { log :=
        { sent := ?_
          once := ?_ }
      past := ?_
      party := ?_ }
  · intro packet hMem
    change packet ∈ (posted log id e.sent).sent at hMem
    rw [BroadcastLog.postAll_sent] at hMem
    rcases List.mem_append.mp hMem with hOld | hNew
    · exact (hLog.sent packet hOld).mono hSub
    · exact (hStep.sent packet hNew).ok.mono hSub
  · change (posted log id e.sent).sent.Pairwise _
    rw [BroadcastLog.postAll_sent, List.pairwise_append]
    refine ⟨hLog.once, ?_, ?_⟩
    · cases hSent : e.sent with
      | nil => exact .nil
      | cons packet rest =>
          have hFew := hStep.few
          rw [hSent, List.length_cons] at hFew
          have hNil : rest = [] :=
            List.length_eq_zero_iff.mp (by omega)
          rw [hNil]
          exact List.pairwise_singleton _ _
    · intro old hOld packet hNew hClash
      have hSends := hStep.sent packet hNew
      have hSrc : old.src = id := hClash.1.trans hSends.src
      rw [hSame] at hOld
      have hPast := hNet.past old hOld
      rw [hSrc] at hPast
      exact hSends.fresh old hSrc hPast hClash
  · intro packet hMem
    change packet ∈ (posted log id e.sent).sent at hMem
    rw [BroadcastLog.postAll_sent, hSame] at hMem
    change
      Past packet.src
        (Function.update s.party id e.mvba packet.src) packet
    rcases List.mem_append.mp hMem with hOld | hNew
    · have hPast := hNet.past packet hOld
      by_cases hSrc : packet.src = id
      · rw [hSrc] at hPast ⊢
        rw [Function.update_self]
        exact hPast.mono hStep.started hStep.later
      · rw [Function.update_of_ne hSrc]
        exact hPast
    · have hSends := hStep.sent packet hNew
      rw [hSends.src, Function.update_self]
      exact hSends.past
  · intro q
    change
      PartyOk cfg q (posted log id e.sent)
        (Function.update s.party id e.mvba q)
    by_cases hEq : q = id
    · subst hEq
      rw [Function.update_self]
      exact hStep.party
    · rw [Function.update_of_ne hEq]
      exact
        ((hNet.party q).mono (hGrows q)).mono (grows_from id _)

/- The order of messages is about what was sent. -/
theorem LogOk.of_sent
    {log' : Log n} (hLog : LogOk cfg log)
    (hSame : log'.sent = log.sent) :
    LogOk cfg log' where
  sent := by
    rw [hSame]
    intro packet hMem
    refine (hLog.sent packet hMem).mono ?_
    rw [hSame]
    exact List.Subset.refl _
  once := by
    rw [hSame]
    exact hLog.once

/- A message reaches a place where it is not yet handled. -/
theorem NetOk.carry
    (hNet : NetOk cfg s) {i : Nat} {loc : Loc}
    (hFrom : s.log.loc id i ≠ .handled)
    (hTo : loc ≠ .handled) :
    NetOk cfg { s with log := s.log.move id i loc } where
  log := hNet.log.of_sent rfl
  past := hNet.past
  party := by
    intro q
    refine (hNet.party q).mono ⟨List.Subset.refl _, ?_⟩
    intro P
    exact
      Nat.le_of_eq
        (s.log.tally_move_other id q i P hTo hFrom).symm

/- Every step of the network keeps the order. -/
theorem NetOk.exec
    (hN : 2 ≤ n) (hNet : NetOk cfg s) {a : NetAction n}
    (hExec : Net.exec cfg s a = some s') :
    NetOk cfg s' := by
  cases netStep_of_exec hExec with
  | @act id a e hAlive hInternal hStep =>
      exact
        hNet.apply rfl (fun _ => grows_rfl) hNet.log
          (.act hN (hNet.party id) hInternal hStep)
  | @receive id i packet e hAlive hAt hDest hLoc hStep =>
      have hMoved :
          Moved id s.log (s.log.move id i .handled) packet :=
        { sent := List.Subset.refl _
          held := s.log.tally_le_move id id i .handled
          same := rfl
          mem := List.mem_of_getElem? hAt
          more := by
            intro P hP
            rw [s.log.tally_move_to id P hAt
              (by rw [hLoc]; nofun), if_pos hP] }
      have hLog : LogOk cfg (s.log.move id i .handled) :=
        hNet.log.of_sent rfl
      refine
        hNet.apply rfl (fun q => ⟨List.Subset.refl _, ?_⟩) hLog
          (.receive hLog (hNet.party id) hMoved hDest hStep)
      exact s.log.tally_le_move id q i .handled
  | transmit hAt hDest hLoc hAlive =>
      exact hNet.carry (by rw [hLoc]; nofun) nofun
  | drop hAt hDest hLoc hType hLeft =>
      exact hNet.carry (by rw [hLoc]; nofun) nofun
  | crash hAlive => exact ⟨hNet.log, hNet.past, hNet.party⟩

theorem netOk_new : NetOk cfg (Net.new cfg) where
  log := ⟨List.forall_mem_nil _, .nil⟩
  past := List.forall_mem_nil _
  party := fun _ =>
    { loops := fun l hl => absurd hl (Nat.not_lt_zero l)
      ahead := ⟨Nat.le_refl 0, Nat.zero_le 1⟩
      left := fun l hl => absurd hl (Nat.not_lt_zero l)
      outputs := List.forall_mem_nil _
      halt := nofun }

/- It holds in every run. -/
theorem reachable_netOk
    (hN : 2 ≤ n) (hReach : (network cfg).Reachable s) :
    NetOk cfg s :=
  hReach.invariant (NetOk cfg) netOk_new
    fun _ _ _ _ hNet hExec => hNet.exec hN hExec

end Net

end Agreement

end SpeedingMVBA

end Jumbo

------------------------------------------------------------
-- Halts
------------------------------------------------------------

namespace Jumbo

namespace SpeedingMVBA

namespace Agreement

open Crypto (Bytes)
open Protocol

variable {n : Nat} {cfg : Config n} {s : Net n}

/- What a party has output is decided in the loop it names. -/
theorem NetOk.decided
    (hNet : NetOk cfg s) {p : Fin n} {msg : Msg}
    (hOut : msg ∈ (s.party p).outputs) :
    (loops cfg s.log).Decided msg.rawMsg.loop
      msg.rawMsg.values :=
  (hNet.party p).outputs msg hOut

/-
  Agreement: two halts that are output, in whatever loops and
  on whatever path, have the same values.
-/
theorem halts_agree
    (hN : 2 ≤ n) (hReach : (network cfg).Reachable s)
    {p q : Fin n} {msg msg' : Msg}
    (hOut : msg ∈ (s.party p).outputs)
    (hOut' : msg' ∈ (s.party q).outputs) :
    msg.rawMsg.values = msg'.rawMsg.values := by
  have hNet := reachable_netOk hN hReach
  exact
    hNet.log.sound.decided_agree (hNet.decided hOut)
      (hNet.decided hOut')

/-
  Once a party has halted, a party that goes on to a later
  loop does so with the values of the halt.
-/
theorem inputs_locked
    (hN : 2 ≤ n) (hReach : (network cfg).Reachable s)
    {p : Fin n} {msg : Msg} {packet : Packet n}
    (hOut : msg ∈ (s.party p).outputs)
    (hSent : packet ∈ s.log.sent)
    (hType : packet.msg.rawMsg.type = .pbc1)
    (hLater : msg.rawMsg.loop < packet.msg.rawMsg.loop) :
    packet.msg.rawMsg.values = msg.rawMsg.values := by
  have hNet := reachable_netOk hN hReach
  refine
    hNet.log.sound.locked (hNet.decided hOut) hLater ?_
      (a := packet.src)
  exact
    ⟨packet, hSent, isKind_iff.mpr ⟨hType, rfl⟩, rfl, rfl⟩

/- Validity: what is output has been put in by a party. -/
theorem halts_valid
    (hN : 2 ≤ n) (hReach : (network cfg).Reachable s)
    {p : Fin n} {msg : Msg}
    (hOut : msg ∈ (s.party p).outputs) :
    ∃ q, Input s.log 0 q msg.rawMsg.values := by
  have hNet := reachable_netOk hN hReach
  exact hNet.log.sound.validity (hNet.decided hOut).1

/-
  What a halt settles for every party: its halts have the
  same values, and it takes these values into every later
  loop. They are what it leaves the loop before with, what it
  starts the loop with, and what it sends as its input.
-/
theorem halt_settles
    (hN : 2 ≤ n) (hReach : (network cfg).Reachable s)
    {p : Fin n} {msg : Msg}
    (hOut : msg ∈ (s.party p).outputs) (q : Fin n) :
    (∀ msg' ∈ (s.party q).outputs,
      msg'.rawMsg.values = msg.rawMsg.values) ∧
    ∀ l, msg.rawMsg.loop ≤ l →
      (l < (s.party q).loop →
        ((s.party q).loops l).lastinput =
          msg.rawMsg.values) ∧
      (l + 1 < (s.party q).started →
        ((s.party q).loops (l + 1)).inputs q =
          msg.rawMsg.values) ∧
      ∀ packet ∈ s.log.sent, packet.src = q →
        packet.msg.rawMsg.type = .pbc1 →
          packet.msg.rawMsg.loop = l + 1 →
            packet.msg.rawMsg.values = msg.rawMsg.values := by
  have hNet := reachable_netOk hN hReach
  have hDecided := hNet.decided hOut
  have hParty := hNet.party q
  refine ⟨?_, ?_⟩
  · intro msg' hOut'
    exact
      hNet.log.sound.decided_agree (hNet.decided hOut')
        hDecided
  · intro l hLe
    have hFixed :
        ∀ values, Input s.log (l + 1) q values →
          values = msg.rawMsg.values :=
      fun values hInput =>
        hNet.log.sound.locked hDecided
          (Nat.lt_succ_of_le hLe) hInput
    refine ⟨?_, ?_, ?_⟩
    · intro hLeft
      have hStarted : l < (s.party q).started :=
        Nat.lt_of_lt_of_le hLeft hParty.ahead.1
      have hFinish := (hParty.loops l hStarted).finish
      rw [(hParty.left l hStarted).mpr hLeft] at hFinish
      exact hFixed _ hFinish
    · intro hStarted
      exact hFixed _ (hParty.loops (l + 1) hStarted).own
    · intro packet hSent hSrc hType hLoop
      exact
        hFixed _
          ⟨packet, hSent, isKind_iff.mpr ⟨hType, hLoop⟩, hSrc,
            rfl⟩

end Agreement

end SpeedingMVBA

end Jumbo

------------------------------------------------------------
-- A Halt and a Later Loop
------------------------------------------------------------

namespace Jumbo

namespace SpeedingMVBA

namespace Agreement

open Crypto (Bytes)
open Protocol

/- The message `i` is handed to a party. -/
def deliver (id : Fin 4) (i : Nat) : List (NetAction 4) :=
  [.transmit id i, .receive id i]

/- A party answers the input `i`; the answer is `k`. -/
def answer (leader id : Fin 4) (i k : Nat) :
    List (NetAction 4) :=
  deliver id i ++
  ([.act id (.sendPBC2 0 leader)] : List (NetAction 4)) ++
  deliver leader k

/- A party sends its share `k` on the certificate `i`. -/
def release (leader id : Fin 4) (i k : Nat) :
    List (NetAction 4) :=
  deliver id i ++
  ([.act id (.sendPBC4 0 leader)] : List (NetAction 4)) ++
  deliver leader k

/-
  The input `i` of a leader is certified by two others, with
  the messages from `k` on, of which the last is pi.
-/
def certify (leader a b : Fin 4) (i k : Nat) :
    List (NetAction 4) :=
  answer leader a i k ++ answer leader b i (k + 1) ++
  ([.act leader (.sendPBC3 0)] : List (NetAction 4)) ++
  release leader a (k + 2) (k + 3) ++
  release leader b (k + 2) (k + 4)

/- A halt is taken, and then adopted. -/
def adopt (id : Fin 4) (i : Nat) : List (NetAction 4) :=
  deliver id i ++ ([.act id .adoptHalt] : List (NetAction 4))

/- A party sends its share of the coin. -/
def tossCoin (id : Fin 4) : List (NetAction 4) :=
  [.act id (.sendShare 0), .act id (.shareMine 0)]

/-
  The coin is party 1. It has its own input certified, and no
  other party holds the certificate. Parties 0 and 2 are told
  by party 1 and vote yes, party 3 hears from those two that
  they hold nothing and votes no. Party 1 halts with the votes
  of parties 0 and 2, and with the same votes and its own
  party 3 goes on to loop 1.
-/
def splitVotes : List (NetAction 4) :=
  ([.act 0 (.launch [10]), .act 1 (.launch [11]),
    .act 2 (.launch [12]), .act 3 (.launch [13])]
    : List (NetAction 4)) ++
  certify 0 2 3 0 4 ++ certify 2 0 3 2 10 ++
  certify 3 0 2 3 16 ++
  answer 1 0 1 22 ++ answer 1 2 1 23 ++
  -- pi and shares
  deliver 0 15 ++ deliver 0 21 ++ deliver 2 9 ++
  deliver 2 21 ++ deliver 3 9 ++ deliver 3 15 ++
  tossCoin 0 ++ tossCoin 2 ++ tossCoin 3 ++
  deliver 0 25 ++ deliver 0 26 ++ deliver 2 24 ++
  deliver 2 26 ++ deliver 3 24 ++ deliver 3 25 ++
  deliver 1 24 ++ deliver 1 25 ++ tossCoin 1 ++
  ([.act 0 (.coin 0), .act 1 (.coin 0), .act 2 (.coin 0),
    .act 3 (.coin 0)] : List (NetAction 4)) ++
  -- who holds the certificate
  deliver 0 29 ++ deliver 0 30 ++ deliver 2 29 ++
  deliver 2 28 ++ deliver 3 28 ++ deliver 3 30 ++
  deliver 1 28 ++ deliver 1 30 ++
  -- votes
  deliver 1 32 ++ deliver 1 33 ++ deliver 3 32 ++
  deliver 3 33 ++ adopt 0 36

/- Where the run with split votes ends. -/
def splitNet : Net 4 :=
  (network paddedConfig).drive (fun _ _ => true)
    (network paddedConfig).init splitVotes

/- Party 1 has halted, party 0 after it; party 3 goes on. -/
theorem splitNet_sent :
    (∃ msg, (splitNet.party 1).outputs[0]? = some msg ∧
        msg.rawMsg.loop = 0) ∧
      (∃ msg, (splitNet.party 0).outputs[0]? = some msg ∧
          msg.rawMsg.loop = 0) ∧
        ∃ packet, splitNet.log.sent[37]? = some packet ∧
          packet.msg.rawMsg.type = .pbc1 ∧
            packet.msg.rawMsg.loop = 1 := by
  decide +kernel

/- It is a run of the network. -/
theorem splitNet_reachable :
    (network paddedConfig).Reachable splitNet :=
  Machine.reachable_drive _ splitVotes

/- Both parties halt with one value. -/
theorem halts_agree_split :
    ∃ msg ∈ (splitNet.party 0).outputs,
      ∃ msg' ∈ (splitNet.party 1).outputs,
        msg.rawMsg.values = msg'.rawMsg.values := by
  rcases splitNet_sent with
    ⟨⟨msg', hOut', _⟩, ⟨msg, hOut, _⟩, _⟩
  have hMem := List.mem_of_getElem? hOut
  have hMem' := List.mem_of_getElem? hOut'
  exact
    ⟨msg, hMem, msg', hMem',
      halts_agree (by decide) splitNet_reachable hMem hMem'⟩

/- Party 3 goes on with the input of party 1. -/
theorem inputs_locked_split :
    ∃ msg ∈ (splitNet.party 1).outputs,
      ∃ packet ∈ splitNet.log.sent,
        msg.rawMsg.loop < packet.msg.rawMsg.loop ∧
          packet.msg.rawMsg.values = msg.rawMsg.values := by
  rcases splitNet_sent with
    ⟨⟨msg, hOut, hLoop⟩, _, packet, hSent, hType, hNext⟩
  have hMem := List.mem_of_getElem? hOut
  have hMem' := List.mem_of_getElem? hSent
  have hLater :
      msg.rawMsg.loop < packet.msg.rawMsg.loop := by
    rw [hLoop, hNext]
    exact Nat.zero_lt_one
  exact
    ⟨msg, hMem, packet, hMem', hLater,
      inputs_locked (by decide) splitNet_reachable hMem hMem'
        hType hLater⟩

/- It was the input of a party. -/
theorem halts_valid_split :
    ∃ msg ∈ (splitNet.party 0).outputs,
      ∃ q, Input splitNet.log 0 q msg.rawMsg.values := by
  rcases splitNet_sent with ⟨_, ⟨msg, hOut, _⟩, _⟩
  have hMem := List.mem_of_getElem? hOut
  exact
    ⟨msg, hMem,
      halts_valid (by decide) splitNet_reachable hMem⟩

/-
  Party 0 has halted after party 1, and party 3 leaves loop 0
  with the input of party 1.
-/
theorem halt_settles_split :
    ∃ msg ∈ (splitNet.party 1).outputs,
      (∃ msg' ∈ (splitNet.party 0).outputs,
        msg'.rawMsg.values = msg.rawMsg.values) ∧
        0 < (splitNet.party 3).loop ∧
          ((splitNet.party 3).loops 0).lastinput =
            msg.rawMsg.values := by
  rcases splitNet_sent with
    ⟨⟨msg, hOut, hLoop⟩, ⟨msg', hOut', _⟩, _⟩
  have hMem := List.mem_of_getElem? hOut
  have hMem' := List.mem_of_getElem? hOut'
  have hLeft : 0 < (splitNet.party 3).loop := by
    decide +kernel
  have hHalts :=
    (halt_settles (by decide) splitNet_reachable hMem 0).1
  have hGoesOn :=
    ((halt_settles (by decide) splitNet_reachable hMem 3).2 0
      (Nat.le_of_eq hLoop)).1
  exact
    ⟨msg, hMem, ⟨msg', hMem', hHalts msg' hMem'⟩, hLeft,
      hGoesOn hLeft⟩

end Agreement

end SpeedingMVBA

end Jumbo
