import Jumbo.SpeedingMVBA.Holding
import Jumbo.SpeedingMVBA.Parties

/-
  The steps of a loop up to its coin, against the log.

  A share is sent with the combined signature stored, and
  before anything has made the party refuse; so is the
  combined signature of the own input. With the shares of
  enough others a party knows of a quorum.

  Main declarations:
    * `LoopStep.sendPBC4` and `LoopStep.sendPBC3`
    * `LoopStep.handleMinePBC4`
    * `LoopStep.handlePi`
    * `LoopStep.countShare`
-/

------------------------------------------------------------
-- Steps of One Loop
------------------------------------------------------------

namespace Jumbo

namespace SpeedingMVBA

namespace Agreement

open Crypto (Bytes)
open Protocol
open Struct

variable {n : Nat}

theorem later_rfl {li : LoopInfo n} : Later li li :=
  ⟨Nat.le_refl _, fun h => h, fun h => h, fun _ h => h,
    fun _ h => h⟩

section Step

variable {cfg : Config n} {id : Fin n} {log : Log n}
variable {m : MVBA n} {l : Nat} {li' : LoopInfo n}
variable {e : Effect n} {msg : Msg}

/- A step that leaves the loop as `li'`. -/
theorem LoopStep.stay
    {m' : MVBA n} {sent : List (Packet n)}
    (hLoops : m'.loops = (m.setLoop l li').loops)
    (hStarted : m'.started = m.started)
    (hLoop : m'.loop = m.loop)
    (hHalt : m'.halt = m.halt)
    (hOutputs :
      ∀ msg ∈ m'.outputs,
        msg ∈ m.outputs ∨ HaltOk cfg log msg)
    (hOk : LoopOk cfg id (posted log id sent) l li')
    (hLater : Later (m.loops l) li')
    (hNext :
      li'.finish = .next ↔ (m.loops l).finish = .next)
    (hFew : sent.length ≤ 1)
    (hSent :
      ∀ packet ∈ sent, Sends cfg id log m m' packet) :
    LoopStep cfg id log m l m' sent where
  started := hStarted
  loops := fun k hk => by
    rw [hLoops]
    exact setLoop_other hk
  ok := by
    rw [hLoops, setLoop_same]
    exact hOk
  later := by
    rw [hLoops, setLoop_same]
    exact hLater
  turn := by
    refine .inl ⟨hLoop, ?_⟩
    rw [hLoops, setLoop_same]
    exact hNext
  halt := hHalt
  outputs := hOutputs
  few := hFew
  sent := hSent

/- A step that sends nothing. -/
theorem LoopStep.quiet
    (hOk : LoopOk cfg id log l li')
    (hLater : Later (m.loops l) li')
    (hNext :
      li'.finish = .next ↔ (m.loops l).finish = .next) :
    LoopStep cfg id log m l (m.setLoop l li') [] :=
  .stay rfl rfl rfl rfl (fun _ h => .inl h)
    (hOk.mono (grows_posted [])) hLater hNext
    (Nat.zero_le _) (List.forall_mem_nil _)

/- A step that sends one message. -/
theorem LoopStep.post
    {packet : Packet n}
    (hOk : LoopOk cfg id (posted log id [packet]) l li')
    (hLater : Later (m.loops l) li')
    (hNext :
      li'.finish = .next ↔ (m.loops l).finish = .next)
    (hSends : Sends cfg id log m (m.setLoop l li') packet) :
    LoopStep cfg id log m l (m.setLoop l li') [packet] :=
  .stay rfl rfl rfl rfl (fun _ h => .inl h) hOk hLater hNext
    (Nat.le_refl _) (List.forall_mem_singleton.mpr hSends)

/- Messages that take no slot. -/
def plain : MsgType → Bool
| .pbc2 | .pi | .share | .prevYes | .halt => true
| _ => false

/- A message that is bound to no phase. -/
theorem Sends.plain
    {m' : MVBA n} {packet : Packet n}
    (hSrc : packet.src = id)
    (hType : plain packet.msg.rawMsg.type = true)
    (hOk : SentOk cfg log packet) :
    Sends cfg id log m m' packet where
  src := hSrc
  ok := hOk
  past := by
    unfold Past
    cases hAt : packet.msg.rawMsg.type <;>
      rw [hAt] at hType <;>
      trivial
  fresh := by
    have hNone : slot cfg packet.msg = none := by
      unfold slot
      cases hAt : packet.msg.rawMsg.type <;>
        rw [hAt] at hType <;>
        first | rfl | cases hType
    rintro old _ _ ⟨_, _, s, _, hSlot⟩
    rw [hNone] at hSlot
    cases hSlot

/- A broadcast that has ended stays so. -/
theorem pbc_done
    {pbcs : Fin n → PBC} {leader c : Fin n} {pbc : PBC}
    (hAt : pbcs leader ≠ .done) (hDone : pbcs c = .done) :
    Function.update pbcs leader pbc c = .done := by
  have hOther : c ≠ leader := by
    rintro rfl
    exact hAt hDone
  rw [Function.update_of_ne hOther]
  exact hDone

/- A broadcast that runs is of another party. -/
theorem LoopOk.leader_ne
    {li : LoopInfo n} {leader : Fin n}
    (hOk : LoopOk cfg id log l li)
    (hAt : li.pbc leader ≠ .done) :
    leader ≠ id := by
  rintro rfl
  exact hAt hOk.ownPbc

/- Only the place for one leader changes. -/
theorem LoopOk.movePbc
    {li : LoopInfo n} {leader : Fin n}
    (hOk : LoopOk cfg id log l li)
    (hAt : li.pbc leader ≠ .done) (pbc : PBC)
    (hPbc :
      PbcOk log l leader (li.inputs leader)
        (li.sigmas leader) pbc) :
    LoopOk cfg id log l
        { li with pbc := Function.update li.pbc leader pbc } ∧
      Later li
        { li with
          pbc := Function.update li.pbc leader pbc } :=
  ⟨hOk.setPbc (fun h => absurd h (hOk.leader_ne hAt)) hPbc,
    { later_rfl with pbc := fun _ => pbc_done hAt }⟩

/- What replaces the input or signature of a party. -/
theorem later_of_sigmas
    {sigmas : Fin n → BatchSignature} {c : Fin n}
    {batch : BatchSignature} (hMany : Many n batch)
    (c' : Fin n) (hOld : Many n (sigmas c')) :
    Many n (Function.update sigmas c batch c') := by
  by_cases hEq : c' = c
  · subst hEq
    rw [Function.update_self]
    exact hMany
  · rw [Function.update_of_ne hEq]
    exact hOld

/- A certificate of many signatures has many members. -/
theorem many_batchSign
    {bytes : Bytes} {signs : List Signature}
    {batch : BatchSignature}
    (hMany : maxCount n < signs.length)
    (hBatch : batchSign cfg bytes signs = some batch) :
    Many n batch := by
  unfold batchSign at hBatch
  rcases Option.map_eq_some_iff.mp hBatch with ⟨_, _, rfl⟩
  unfold Many
  rw [List.length_map]
  exact hMany

end Step

end Agreement

end SpeedingMVBA

end Jumbo

------------------------------------------------------------
-- What Has Been Sent
------------------------------------------------------------

namespace Jumbo

namespace SpeedingMVBA

namespace Agreement

open Protocol

variable {n : Nat} {cfg : Config n} {id : Fin n}
variable {m : MVBA n} {old : Packet n}

/- Later than later is later. -/
theorem Later.trans
    {li li' li'' : LoopInfo n}
    (hFirst : Later li li') (hSecond : Later li' li'') :
    Later li li'' where
  rank := hFirst.rank.trans hSecond.rank
  pbcDone := fun h => hSecond.pbcDone (hFirst.pbcDone h)
  mine := fun h => hSecond.mine (hFirst.mine h)
  pbc := fun c h => hSecond.pbc c (hFirst.pbc c h)
  sigmas := fun c h => hSecond.sigmas c (hFirst.sigmas c h)

/- A party that has taken the side of another, or refused. -/
theorem Past.side
    (hPast : Past id m old) {k : Int}
    (hSlot : slot cfg old.msg = some (.side k)) :
    let l := old.msg.rawMsg.loop
    let li := m.loops l
    (k = id.val + 1 ∧ tried3 li.mine = true ∧
        Many n (li.sigmas id)) ∨
      (∃ c, k = c.val + 1 ∧ c ≠ id ∧ li.pbc c = .done ∧
          Many n (li.sigmas c)) ∨
        (k = (cfg.coin l).val + 1 ∧ li.pbcDone = true ∧
          1 ≤ rank li.finish) := by
  dsimp only
  unfold slot at hSlot
  unfold Past names at hPast
  dsimp only at hPast
  cases hType : old.msg.rawMsg.type <;>
    rw [hType] at hSlot hPast <;>
    dsimp only at hSlot hPast <;>
    cases hSlot
  case pbc3 =>
    exact
      .inl ⟨of_decide_eq_true hPast.2.1, hPast.2.2⟩
  case pbc4 =>
    rcases hPast with ⟨_, c, hNames, hHeld⟩
    exact .inr (.inl ⟨c, of_decide_eq_true hNames, hHeld⟩)
  case prevNo =>
    exact .inr (.inr ⟨rfl, hPast.2⟩)

/- After the vote the loop is in the last phase. -/
theorem Past.vote
    (hPast : Past id m old)
    (hSlot : slot cfg old.msg = some .vote) :
    2 ≤ rank (m.loops old.msg.rawMsg.loop).finish := by
  unfold slot at hSlot
  unfold Past at hPast
  dsimp only at hPast
  cases hType : old.msg.rawMsg.type <;>
    rw [hType] at hSlot hPast <;>
    dsimp only at hSlot hPast <;>
    cases hSlot
  case voteYes => exact hPast.2
  case voteNo => exact hPast.2

/- The input of a loop was sent after the one before. -/
theorem Past.input
    (hPast : Past id m old)
    (hSlot : slot cfg old.msg = some .input) :
    0 < m.started ∧
      ∀ k, old.msg.rawMsg.loop = k + 1 →
        k < m.started ∧ 3 ≤ rank (m.loops k).finish := by
  unfold slot at hSlot
  unfold Past at hPast
  dsimp only at hPast
  cases hType : old.msg.rawMsg.type <;>
    rw [hType] at hSlot hPast <;>
    dsimp only at hSlot hPast <;>
    cases hSlot
  case pbc1 => exact hPast

/- What has been sent stays sent. -/
theorem Past.mono
    {m' : MVBA n}
    (hPast : Past id m old)
    (hStarted : m.started ≤ m'.started)
    (hLater :
      ∀ k < m.started, Later (m.loops k) (m'.loops k)) :
    Past id m' old := by
  unfold Past at hPast ⊢
  dsimp only at hPast ⊢
  cases hType : old.msg.rawMsg.type <;>
    rw [hType] at hPast <;>
    dsimp only at hPast ⊢
  case pbc1 =>
    refine ⟨by omega, fun k hLoop => ?_⟩
    rcases hPast.2 k hLoop with ⟨hLt, hRank⟩
    exact ⟨by omega, hRank.trans (hLater k hLt).rank⟩
  case pbc3 =>
    rcases hPast with ⟨hLt, hNames, hMine, hMany⟩
    exact
      ⟨by omega, hNames, (hLater _ hLt).mine hMine,
        (hLater _ hLt).sigmas _ hMany⟩
  case pbc4 =>
    rcases hPast with ⟨hLt, c, hNames, hNe, hDone, hMany⟩
    exact
      ⟨by omega, c, hNames, hNe, (hLater _ hLt).pbc c hDone,
        (hLater _ hLt).sigmas _ hMany⟩
  case prevNo =>
    rcases hPast with ⟨hLt, hClosed, hRank⟩
    exact
      ⟨by omega, (hLater _ hLt).pbcDone hClosed,
        hRank.trans (hLater _ hLt).rank⟩
  case voteYes =>
    exact
      ⟨by omega, hPast.2.trans (hLater _ hPast.1).rank⟩
  case voteNo =>
    exact
      ⟨by omega, hPast.2.trans (hLater _ hPast.1).rank⟩

theorem names_self
    {c : Fin n} {packet : Packet n}
    (hId : packet.msg.rawMsg.id = c.val + 1) :
    names c packet = true :=
  decide_eq_true hId

/- The number tells the party. -/
theorem id_inj {c d : Fin n} (hEq : (c.val + 1 : Int) = d.val + 1) :
    c = d := by
  apply Fin.ext
  omega

end Agreement

end SpeedingMVBA

end Jumbo

------------------------------------------------------------
-- The First Broadcast
------------------------------------------------------------

namespace Jumbo

namespace SpeedingMVBA

namespace Agreement

open Crypto (Bytes)
open Protocol
open Struct

variable {n : Nat}

section PBC

variable {cfg : Config n} {id : Fin n} {log : Log n}
variable {m : MVBA n} {l : Nat} {leader : Fin n}
variable {e : Effect n} {msg : Msg}

/- A first message is stored. -/
theorem LoopStep.handlePBC1
    (hOk : LoopOk cfg id log l (m.loops l))
    (hInput : Input log l leader msg.rawMsg.values)
    (hStep : handlePBC1 cfg m l leader msg = some e) :
    LoopStep cfg id log m l e.mvba e.sent := by
  unfold SpeedingMVBA.handlePBC1 at hStep
  dsimp only at hStep
  split at hStep
  · cases hStep
  · rename_i hWait
    have hAt : (m.loops l).pbc leader ≠ .done := by
      rw [not_not.mp hWait]
      exact PBC.noConfusion
    split at hStep
    · rcases Option.map_eq_some_iff.mp hStep with
        ⟨certs, _, rfl⟩
      have hNe := hOk.leader_ne hAt
      refine .quiet ?_ ?_ Iff.rfl
      · refine
          (hOk.setInput hInput).setPbc (fun h => absurd h hNe)
            ?_
        dsimp only [PbcOk]
        rw [Function.update_self]
        exact hInput
      · exact { later_rfl with pbc := fun _ => pbc_done hAt }
    · split at hStep
      · cases hStep
        have hMove := hOk.movePbc hAt .done trivial
        exact .quiet hMove.1 hMove.2 Iff.rfl
      · cases hStep

/- It is answered once. -/
theorem LoopStep.sendPBC2
    (hOk : LoopOk cfg id log l (m.loops l))
    (hStep : sendPBC2 cfg id m l leader = some e) :
    LoopStep cfg id log m l e.mvba e.sent := by
  unfold SpeedingMVBA.sendPBC2 at hStep
  dsimp only at hStep
  split at hStep
  · rename_i hash hSend
    have hAt : (m.loops l).pbc leader ≠ .done := by
      rw [hSend]
      exact PBC.noConfusion
    split at hStep
    · cases hStep
      have hMove := hOk.movePbc hAt .done trivial
      exact .quiet hMove.1 hMove.2 Iff.rfl
    · cases hStep
      have hInput := hOk.pbc leader
      rw [hSend] at hInput
      have hMove := hOk.movePbc hAt (.wait3 hash) hInput
      refine
        .post (hMove.1.mono (grows_posted _)) hMove.2 Iff.rfl ?_
      exact .plain rfl rfl trivial
  · cases hStep

/- A third message comes with many signatures. -/
theorem LoopStep.handlePBC3
    (hOk : LoopOk cfg id log l (m.loops l))
    (hMany : ∀ batch ∈ msg.ss, Many n batch)
    (hStep : handlePBC3 cfg m l leader msg = some e) :
    LoopStep cfg id log m l e.mvba e.sent := by
  unfold SpeedingMVBA.handlePBC3 at hStep
  dsimp only at hStep
  split at hStep
  · rename_i hash hWait
    have hAt : (m.loops l).pbc leader ≠ .done := by
      rw [hWait]
      exact PBC.noConfusion
    have hNe := hOk.leader_ne hAt
    rcases Option.ite_none_right_eq_some.mp hStep with
      ⟨_, hStep⟩
    rcases Option.map_eq_some_iff.mp hStep with
      ⟨cert, hAccept, rfl⟩
    have hCert := hMany _ (accept_eq_some hAccept).1
    have hInput := hOk.pbc leader
    rw [hWait] at hInput
    refine .quiet ?_ ?_ Iff.rfl
    · refine
        (hOk.setSigma hCert hInput).setPbc
          (fun h => absurd h hNe) ?_
      dsimp only [PbcOk]
      rw [Function.update_self]
      exact hCert
    · exact
        { later_rfl with
          pbc := fun _ => pbc_done hAt
          sigmas := later_of_sigmas hCert }
  · cases hStep

/- A share is sent before the party refuses. -/
theorem LoopStep.sendPBC4
    (hOk : LoopOk cfg id log l (m.loops l))
    (hLt : l < m.started)
    (hStep : sendPBC4 cfg id m l leader = some e) :
    LoopStep cfg id log m l e.mvba e.sent := by
  unfold SpeedingMVBA.sendPBC4 at hStep
  dsimp only at hStep
  split at hStep
  · rename_i hash hSend
    have hAt : (m.loops l).pbc leader ≠ .done := by
      rw [hSend]
      exact PBC.noConfusion
    have hNe := hOk.leader_ne hAt
    have hMany : Many n ((m.loops l).sigmas leader) := by
      have hPbc := hOk.pbc leader
      rw [hSend] at hPbc
      exact hPbc
    have hMove := hOk.movePbc hAt .done trivial
    split at hStep
    · cases hStep
      exact .quiet hMove.1 hMove.2 Iff.rfl
    · rename_i hOpen
      cases hStep
      refine
        .post (hMove.1.mono (grows_posted _)) hMove.2 Iff.rfl ?_
      refine
        { src := rfl
          ok := ?_
          past := ?_
          fresh := ?_ }
      · refine
          ⟨decide_eq_false fun hId => hNe (id_inj hId), ?_⟩
        intro q hDest
        rw [of_decide_eq_true hDest]
        exact names_self rfl
      · refine ⟨hLt, leader, names_self rfl, hNe, ?_, ?_⟩
        · simp [MVBA.setLoop, Config.rawMsg, send]
        · simpa [MVBA.setLoop, Config.rawMsg, send] using hMany
      · rintro old _ hPast ⟨_, hLoop, s, hOld, hNew⟩
        cases hNew
        have hSide := hPast.side hOld
        rw [hLoop] at hSide
        rcases hSide with
          ⟨hId, _⟩ | ⟨c, hId, _, hDone, _⟩ | ⟨_, hClosed, _⟩
        · exact hNe (id_inj hId)
        · rw [← id_inj hId] at hDone
          exact hAt hDone
        · simp [Config.rawMsg, send] at hClosed
          simp [hClosed] at hOpen
  · cases hStep

/- The end of a broadcast sends nothing. -/
theorem LoopStep.returnPBC
    (hOk : LoopOk cfg id log l (m.loops l))
    (hStep : returnPBC m l leader = some e) :
    LoopStep cfg id log m l e.mvba e.sent := by
  have hReturn :
      (m.loops l).pbc leader ≠ .done →
        (if (m.loops l).pbcDone then
            some
              (m.leave l
                { m.loops l with
                  pbc :=
                    Function.update (m.loops l).pbc leader
                      .done } [])
          else none) = some e →
          LoopStep cfg id log m l e.mvba e.sent := by
    intro hAt hReturn
    rcases Option.ite_none_right_eq_some.mp hReturn with
      ⟨_, hEq⟩
    cases hEq
    have hMove := hOk.movePbc hAt .done trivial
    exact .quiet hMove.1 hMove.2 Iff.rfl
  unfold SpeedingMVBA.returnPBC at hStep
  dsimp only at hStep
  split at hStep
  · rename_i hAt
    exact hReturn (by rw [hAt]; exact PBC.noConfusion) hStep
  · rename_i hAt
    exact hReturn (by rw [hAt]; exact PBC.noConfusion) hStep
  · cases hStep

end PBC

section MinePBC

variable {cfg : Config n} {id : Fin n} {log log' : Log n}
variable {m : MVBA n} {l : Nat}
variable {e : Effect n} {msg : Msg} {packet : Packet n}

/- The place of `handle_mine_PBC`. -/
theorem LoopOk.setMine
    {li : LoopInfo n}
    (hOk : LoopOk cfg id log l li) (mine : MinePBC)
    (hMine : MineOk id log l (li.sigmas id) mine) :
    LoopOk cfg id log l { li with mine := mine } :=
  { hOk with mine := hMine }

/- Answers are put together when they are many. -/
theorem LoopStep.handleMinePBC2
    (hOk : LoopOk cfg id log l (m.loops l))
    (hStep : handleMinePBC2 cfg id m l msg = some e) :
    LoopStep cfg id log m l e.mvba e.sent := by
  unfold SpeedingMVBA.handleMinePBC2 at hStep
  dsimp only at hStep
  split at hStep
  · rename_i hash signs hWait
    have hTried : tried3 (m.loops l).mine = false := by
      rw [hWait]
      rfl
    rcases Option.ite_none_right_eq_some.mp hStep with
      ⟨_, hStep⟩
    rcases Option.bind_eq_some_iff.mp hStep with
      ⟨got, _, hStep⟩
    split at hStep
    · rename_i hEnough
      rcases Option.bind_eq_some_iff.mp hStep with
        ⟨batch, hBatch, hEq⟩
      cases hEq
      have hMany : Many n batch := by
        refine many_batchSign ?_ hBatch
        rw [List.length_append, List.length_singleton]
        omega
      refine .quiet ?_ ?_ Iff.rfl
      · refine (hOk.setSigma hMany hOk.own).setMine _ ⟨hMany, ?_⟩
        dsimp only
        rw [Function.update_self]
        exact hMany
      · exact
          { later_rfl with
            mine := fun h => by rw [hTried] at h; cases h
            sigmas := later_of_sigmas hMany }
    · cases hStep
      exact
        .quiet (hOk.setMine _ trivial)
          { later_rfl with
            mine := fun h => by rw [hTried] at h; cases h }
          Iff.rfl
  · cases hStep

/- The combined signature is sent before the party refuses. -/
theorem LoopStep.sendPBC3
    (hOk : LoopOk cfg id log l (m.loops l))
    (hLt : l < m.started)
    (hStep : sendPBC3 cfg id m l = some e) :
    LoopStep cfg id log m l e.mvba e.sent := by
  unfold SpeedingMVBA.sendPBC3 at hStep
  dsimp only at hStep
  split at hStep
  · rename_i hash batch hSend
    split at hStep
    · cases hStep
      exact
        .quiet (hOk.setMine _ trivial)
          { later_rfl with mine := fun _ => rfl } Iff.rfl
    · rename_i hOpen
      cases hStep
      have hMine := hOk.mine
      rw [hSend] at hMine
      rcases hMine with ⟨hMany, hSigma⟩
      refine .post ?_ ?_ Iff.rfl ?_
      · refine
          (hOk.mono (grows_posted _)).setMine _
            ⟨Nat.zero_le _, ?_⟩
        refine
          mem_senders_posted (List.mem_singleton_self _) rfl ?_
        simp [isRelease, isKind, names, Config.rawMsg,
          broadcast]
      · exact { later_rfl with mine := fun _ => rfl }
      · refine
          { src := rfl
            ok := ?_
            past := ?_
            fresh := ?_ }
        · refine ⟨names_self rfl, ?_⟩
          rintro _ ⟨⟩
          exact hMany
        · refine ⟨hLt, names_self rfl, ?_, ?_⟩
          · simp [MVBA.setLoop, Config.rawMsg, broadcast,
              tried3]
          · simpa [MVBA.setLoop, Config.rawMsg, broadcast]
              using hSigma
        · rintro old _ hPast ⟨_, hLoop, s, hOld, hNew⟩
          cases hNew
          have hSide := hPast.side hOld
          rw [hLoop] at hSide
          rcases hSide with
            ⟨_, hTried, _⟩ | ⟨c, hId, hNe, _⟩ |
              ⟨_, hClosed, _⟩
          · simp [Config.rawMsg, broadcast, hSend, tried3]
              at hTried
          · exact hNe (id_inj hId).symm
          · simp [Config.rawMsg, broadcast] at hClosed
            simp [hClosed] at hOpen
  · cases hStep

/- The end of the own broadcast sends nothing. -/
theorem LoopStep.returnMinePBC
    (hOk : LoopOk cfg id log l (m.loops l))
    (hStep : returnMinePBC m l = some e) :
    LoopStep cfg id log m l e.mvba e.sent := by
  have hReturn :
      (if (m.loops l).pbcDone then
          some (m.leave l { m.loops l with mine := .done } [])
        else none) = some e →
        LoopStep cfg id log m l e.mvba e.sent := by
    intro hReturn
    rcases Option.ite_none_right_eq_some.mp hReturn with
      ⟨_, hEq⟩
    cases hEq
    exact
      .quiet (hOk.setMine _ trivial)
        { later_rfl with mine := fun _ => rfl } Iff.rfl
  unfold SpeedingMVBA.returnMinePBC at hStep
  dsimp only at hStep
  split at hStep
  · exact hReturn hStep
  · exact hReturn hStep
  · cases hStep

/- What another OK leaves of a loop. -/
theorem countPi_ok
    {li li' : LoopInfo n} {sign : Signature}
    {certs : List Cert}
    (hOk : LoopOk cfg id log l li)
    (hCount : countPi cfg l li sign = some (li', certs)) :
    LoopOk cfg id log l li' ∧ Later li li' ∧
      li'.finish = li.finish ∧ li'.inputs = li.inputs := by
  unfold countPi at hCount
  dsimp only at hCount
  split at hCount
  · rcases Option.map_eq_some_iff.mp hCount with
      ⟨batch, _, hEq⟩
    cases hEq
    refine ⟨?_, ?_, rfl, rfl⟩
    · exact
        { hOk with
          coin := fun c hCoin => ⟨(hOk.coin c hCoin).1, rfl⟩
          first := fun _ => rfl }
    · exact { later_rfl with pbcDone := fun _ => rfl }
  · cases hCount
    exact ⟨{ hOk with }, { later_rfl with }, rfl, rfl⟩

/- The shares of enough others, and the own. -/
theorem LogOk.released
    (hLog : LogOk cfg log) {signs : List Signature}
    (hHeld :
      signs.length ≤ log.tally id .handled (isShare id l))
    (hOwn : id ∈ log.senders Packet.src (isRelease id l))
    (hEnough : maxCount n ≤ signs.length) :
    Quorum log (isRelease id l) := by
  have hNot :
      id ∉ log.senders Packet.src (isShare id l) := by
    intro hMem
    rcases (BroadcastLog.mem_senders_iff _ _ _ _).mp hMem with
      ⟨packet, hPacket, hShare, rfl⟩
    rcases Bool.and_eq_true_iff.mp hShare with
      ⟨hKind, hNames⟩
    have hSent := hLog.sent packet hPacket
    unfold SentOk at hSent
    dsimp only at hSent
    rw [(isKind_iff.mp hKind).1] at hSent
    dsimp only at hSent
    rw [hNames] at hSent
    cases hSent.1
  have hSub :
      insert id (log.senders Packet.src (isShare id l)) ⊆
        log.senders Packet.src (isRelease id l) := by
    apply Finset.insert_subset hOwn
    intro q hq
    rw [BroadcastLog.mem_senders_iff] at hq ⊢
    rcases hq with ⟨packet, hMem, hShare, hSrc⟩
    exact ⟨packet, hMem, by simp [isRelease, hShare], hSrc⟩
  have hTally := hLog.tally_le (takes_share (l := l) id) id
  calc
    maxCount n
        < (log.senders Packet.src (isShare id l)).card + 1 := by
      omega
    _ =
        (insert id
          (log.senders Packet.src (isShare id l))).card :=
      (Finset.card_insert_of_notMem hNot).symm
    _ ≤ (log.senders Packet.src (isRelease id l)).card :=
      Finset.card_le_card hSub

/- A certificate pi is sent when a quorum has released it. -/
theorem LoopStep.handleMinePBC4
    (hLog : LogOk cfg log')
    (hOk : LoopOk cfg id log l (m.loops l))
    (hMoved : Moved id log log' packet)
    (hShare : packet.msg = msg)
    (hType : msg.rawMsg.type = .pbc4)
    (hLoop : msg.rawMsg.loop = l)
    (hNames : names id packet = true)
    (hStep : handleMinePBC4 cfg id m l msg = some e) :
    LoopStep cfg id log' m l e.mvba e.sent := by
  have hOk' := hOk.mono hMoved.toGrows
  unfold SpeedingMVBA.handleMinePBC4 at hStep
  dsimp only at hStep
  split at hStep
  · rename_i hash signs hWait
    have hMine := hOk.mine
    rw [hWait] at hMine
    rcases hMine with ⟨hHeld, hOwn⟩
    rcases Option.ite_none_right_eq_some.mp hStep with
      ⟨_, hStep⟩
    rcases Option.bind_eq_some_iff.mp hStep with
      ⟨got, _, hStep⟩
    have hMore :
        (signs ++ [got]).length ≤
          log'.tally id .handled (isShare id l) := by
      have hTally := hMoved.more (isShare id l) (by
        simp [isShare, isKind, hShare, hType, hLoop, hNames])
      rw [List.length_append, List.length_singleton]
      omega
    have hOwn' := senders_mono hMoved.sent _ hOwn
    split at hStep
    · rename_i hEnough
      rcases Option.bind_eq_some_iff.mp hStep with
        ⟨batch, _, hStep⟩
      rcases Option.bind_eq_some_iff.mp hStep with
        ⟨⟨li', certs⟩, hCount, hEq⟩
      cases hEq
      have hQuorum := hLog.released hMore hOwn' hEnough
      rcases countPi_ok
          (hOk'.setMine .done trivial) hCount with
        ⟨hPi, hLater, hFinish, hInputs⟩
      have hBoth : Later (m.loops l) li' :=
        { hLater with
          mine := fun _ => hLater.mine rfl }
      have hNext :
          li'.finish = .next ↔
            (m.loops l).finish = .next := by
        rw [hFinish]
      dsimp only
      split
      · exact .quiet hPi hBoth hNext
      · refine
          .post (hPi.mono (grows_posted _)) hBoth hNext ?_
        refine .plain rfl rfl ?_
        refine ⟨names_self rfl, ?_, hQuorum⟩
        dsimp only [broadcast, Config.rawMsg]
        rw [hInputs]
        exact hOk'.own
    · cases hStep
      refine .quiet (hOk'.setMine _ ⟨hMore, hOwn'⟩) ?_ Iff.rfl
      exact { later_rfl with mine := fun _ => rfl }
  · cases hStep

end MinePBC

end Agreement

end SpeedingMVBA

end Jumbo

------------------------------------------------------------
-- Pi and Shares
------------------------------------------------------------

namespace Jumbo

namespace SpeedingMVBA

namespace Agreement

open Crypto (Bytes)
open Protocol
open Struct

variable {n : Nat}

section Shares

variable {cfg : Config n} {id : Fin n} {log : Log n}
variable {m : MVBA n} {l : Nat}
variable {e : Effect n} {msg : Msg}

/- The index of a number is its party. -/
theorem eq_of_index
    {k : Int} {c leader : Fin n}
    (hId : k = c.val + 1)
    (hIndex : index n k = some leader) :
    leader = c := by
  subst hId
  unfold index at hIndex
  split at hIndex
  · cases hIndex
    apply Fin.ext
    simp
  · cases hIndex

/- A proof comes from a quorum. -/
theorem LoopStep.handlePi
    (hOk : LoopOk cfg id log l (m.loops l))
    {c : Fin n} (hId : msg.rawMsg.id = c.val + 1)
    (hInput : Input log l c msg.rawMsg.values)
    (hQuorum : Quorum log (isRelease c l))
    (hStep : handlePi cfg m l msg = some e) :
    LoopStep cfg id log m l e.mvba e.sent := by
  unfold SpeedingMVBA.handlePi at hStep
  dsimp only at hStep
  rcases Option.ite_none_right_eq_some.mp hStep with
    ⟨_, hStep⟩
  rcases Option.bind_eq_some_iff.mp hStep with
    ⟨leader, hIndex, hStep⟩
  rcases Option.bind_eq_some_iff.mp hStep with
    ⟨cert, _, hStep⟩
  rcases Option.bind_eq_some_iff.mp hStep with
    ⟨okSign, _, hStep⟩
  rcases Option.bind_eq_some_iff.mp hStep with
    ⟨⟨li', certs⟩, hCount, hEq⟩
  cases hEq
  rw [eq_of_index hId hIndex] at hCount
  have hStored :=
    (hOk.setInput hInput).setPi cert.2 hQuorum (by
      dsimp only
      rw [Function.update_self]
      exact hInput)
  rcases countPi_ok hStored hCount with
    ⟨hPi, hLater, hFinish, _⟩
  refine .quiet { hPi with } ?_ ?_
  · exact
      { rank := hLater.rank
        pbcDone := hLater.pbcDone
        mine := hLater.mine
        pbc := hLater.pbc
        sigmas := hLater.sigmas }
  · dsimp only
    rw [hFinish]

/- The share ends all answers. -/
theorem LoopStep.sendShare
    (hOk : LoopOk cfg id log l (m.loops l))
    (hStep : sendShare cfg id m l = some e) :
    LoopStep cfg id log m l e.mvba e.sent := by
  unfold SpeedingMVBA.sendShare at hStep
  dsimp only at hStep
  split at hStep
  · split at hStep
    · cases hStep
      exact .quiet { hOk with } { later_rfl with } Iff.rfl
    · cases hStep
      refine
        .post (LoopOk.mono ?_ (grows_posted _))
          { later_rfl with } Iff.rfl (.plain rfl rfl trivial)
      exact { hOk with }
  · cases hStep

/- The coin is known only when `PBC_done` is closed. -/
theorem LoopStep.countShare
    (hOk : LoopOk cfg id log l (m.loops l))
    {share : Signature} {ss : BatchSignature}
    {certs : List Cert}
    (hStep : countShare cfg m l share ss certs = some e) :
    LoopStep cfg id log m l e.mvba e.sent := by
  have hClosed :
      ((m.loops l).pbcDone || (m.loops l).firstShare) =
        true := by
    cases hFlag : (m.loops l).firstShare with
    | true => exact Bool.or_true _
    | false => rw [hOk.first hFlag, Bool.true_or]
  unfold SpeedingMVBA.countShare at hStep
  dsimp only at hStep
  split at hStep
  · rcases Option.map_eq_some_iff.mp hStep with
      ⟨batch, _, rfl⟩
    refine
      .quiet ?_ { later_rfl with pbcDone := fun _ => hClosed }
        Iff.rfl
    exact
      { hOk with
        coin := fun c hCoin =>
          ⟨(Option.some.inj hCoin).symm, hClosed⟩
        first := fun _ => hClosed }
  · cases hStep
    refine
      .quiet ?_ { later_rfl with pbcDone := fun _ => hClosed }
        Iff.rfl
    exact
      { hOk with
        coin := fun c hCoin =>
          ⟨(hOk.coin c hCoin).1, hClosed⟩
        first := fun _ => hClosed }

/- Reading a share sends nothing more. -/
theorem LoopStep.handleShare
    (hOk : LoopOk cfg id log l (m.loops l))
    (hStep : handleShare cfg m l msg = some e) :
    LoopStep cfg id log m l e.mvba e.sent := by
  unfold SpeedingMVBA.handleShare at hStep
  rcases Option.ite_none_right_eq_some.mp hStep with
    ⟨_, hStep⟩
  rcases Option.bind_eq_some_iff.mp hStep with
    ⟨cert, _, hStep⟩
  rcases Option.bind_eq_some_iff.mp hStep with
    ⟨share, _, hStep⟩
  exact .countShare hOk hStep

/- A change of the loop that comes before a step in it. -/
theorem LoopStep.after
    {taken : LoopInfo n} {m' : MVBA n}
    {sent : List (Packet n)}
    (hStep :
      LoopStep cfg id log (m.setLoop l taken) l m' sent)
    (hLater : Later (m.loops l) taken)
    (hFinish : taken.finish = (m.loops l).finish) :
    LoopStep cfg id log m l m' sent where
  started := hStep.started
  loops := fun k hk =>
    (hStep.loops k hk).trans (setLoop_other hk)
  ok := hStep.ok
  later := by
    have hNow := hStep.later
    rw [setLoop_same] at hNow
    exact hLater.trans hNow
  turn := by
    have hNow := hStep.turn
    unfold Turn at hNow ⊢
    rw [setLoop_same, hFinish] at hNow
    exact hNow
  halt := hStep.halt
  outputs := hStep.outputs
  few := hStep.few
  sent := by
    intro packet hMem
    have hSends := hStep.sent packet hMem
    refine { hSends with fresh := fun old hSrc hPast => ?_ }
    refine hSends.fresh old hSrc ?_
    refine hPast.mono (Nat.le_refl _) fun k _ => ?_
    by_cases hEq : k = l
    · subst hEq
      rw [setLoop_same]
      exact hLater
    · rw [setLoop_other hEq]
      exact later_rfl

/- Nor does the own share. -/
theorem LoopStep.handleShareMine
    (hOk : LoopOk cfg id log l (m.loops l))
    (hStep : handleShareMine cfg m l = some e) :
    LoopStep cfg id log m l e.mvba e.sent := by
  unfold SpeedingMVBA.handleShareMine at hStep
  dsimp only at hStep
  rcases Option.ite_none_right_eq_some.mp hStep with
    ⟨_, hStep⟩
  rcases Option.bind_eq_some_iff.mp hStep with
    ⟨msg, _, hStep⟩
  rcases Option.bind_eq_some_iff.mp hStep with
    ⟨share, _, hStep⟩
  rcases Option.bind_eq_some_iff.mp hStep with
    ⟨ss, _, hStep⟩
  refine (LoopStep.countShare ?_ hStep).after ?_ rfl
  · rw [setLoop_same]
    exact { hOk with }
  · exact { later_rfl with }

/- `handle_share` stores its coin beside the loops. -/
theorem LoopStep.storeCoin
    (hOk : LoopOk cfg id log l (m.loops l))
    (hStep : storeCoin cfg m l = some e) :
    LoopStep cfg id log m l e.mvba e.sent := by
  unfold SpeedingMVBA.storeCoin at hStep
  dsimp only at hStep
  rcases Option.ite_none_right_eq_some.mp hStep with
    ⟨_, hEq⟩
  cases hEq
  have hStill := hOk.mono (grows_posted [])
  exact
    .stay rfl rfl rfl rfl (fun _ h => .inl h) { hStill with }
      { later_rfl with } Iff.rfl (Nat.zero_le _)
      (List.forall_mem_nil _)

end Shares

end Agreement

end SpeedingMVBA

end Jumbo
