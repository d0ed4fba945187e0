import Jumbo.SpeedingMVBA.Parties

/-
  The steps of a loop before its votes.

  Broadcasts, certificates, shares and the coin: none of them
  takes the input stored for a party away from the combined
  signature for it, when the message read is steady.

  Main declarations:
    * `EffectOk`
    * `PartyOk.store` and `PartyOk.quiet`
    * `PartyOk.certify`
    * `PartyOk.storeCoin`
-/

------------------------------------------------------------
-- Steps before the Coin
------------------------------------------------------------

namespace Jumbo

namespace SpeedingMVBA

open Crypto (Bytes)
open Struct

variable {n : Nat}

/- What a step leaves and sends meets the invariant. -/
def EffectOk
    (strict : Prop) (cfg : Config n) (id : Fin n)
    (e : Effect n) : Prop :=
  PartyOk strict cfg id e.mvba ∧
    ∀ packet ∈ e.sent, SentOk cfg packet

/- What the invariant reads of a loop, but its inputs. -/
structure SameVotes (li li' : LoopInfo n) : Prop where
  sigmas : li'.sigmas = li.sigmas
  lastinput : li'.lastinput = li.lastinput
  handlesShare : li'.handlesShare = li.handlesShare
  storesCoin : li'.storesCoin = li.storesCoin
  coinReady : li'.coinReady = li.coinReady
  finish : li'.finish = li.finish

/- A change that the invariant does not see. -/
structure Quiet (id : Fin n) (li li' : LoopInfo n) : Prop
    extends SameVotes li li' where
  inputs : li'.inputs = li.inputs
  mine :
    ∀ hash signs, li'.mine = .wait2 hash signs →
      li.mine = .wait2 hash signs
  pbc : li.pbc id = .done → li'.pbc id = .done

section Quiet

variable {strict : Prop}
variable {cfg : Config n} {id : Fin n} {m : MVBA n}
variable {l : Nat} {li' : LoopInfo n}

/- Only inputs of a loop have to be carried. -/
theorem sentOk_of_type
    {packet : Packet n}
    (hType : packet.msg.rawMsg.type ≠ .pbc1) :
    SentOk cfg packet :=
  fun h => absurd h hType

/-
  Steps that store no combined signature and may replace an
  input that none is held for.
-/
theorem PartyOk.store
    (hOk : PartyOk strict cfg id m) (hLt : l < m.started)
    (hSame : SameVotes (m.loops l) li')
    (hInput :
      cfg.sha (li'.inputs id) =
        cfg.sha ((m.loops l).inputs id))
    (hHeld :
      ∀ c, m.holds l c = true →
        cfg.sha (li'.inputs c) =
          cfg.sha ((m.loops l).inputs c))
    (hMine :
      ∀ hash signs, li'.mine = .wait2 hash signs →
        hash = cfg.sha ((m.loops l).inputs id) ∧
          ∀ sign ∈ signs,
            Usable cfg
              (cfg.marshal (cfg.rawMsg .pbc2 id hash l)) sign)
    (hPbc :
      (m.loops l).pbc id = .done → li'.pbc id = .done) :
    PartyOk strict cfg id (m.setLoop l li') := by
  have hLoop := hOk.loops l hLt
  have hBound :
      ∀ c, m.holds l c = true → (m.loops l).Bound cfg l c →
        li'.Bound cfg l c := by
    intro c hHolds hOld
    unfold LoopInfo.Bound
    rw [hHeld c hHolds, hSame.sigmas]
    exact hOld
  refine hOk.setLoop hLt ?_ ?_
  · refine
      { sigmas := ?_
        mine := ?_
        pbc := hPbc hLoop.pbc
        coin := ?_
        share := ?_
        finish := ?_ }
    · intro c
      by_cases hNone : (m.loops l).sigmas c = ⟨[], []⟩
      · exact .inl (hSame.sigmas ▸ hNone)
      · refine .inr (hBound c ?_ ?_)
        · simp [MVBA.holds, hNone]
        · exact (hLoop.sigmas c).resolve_left hNone
    · intro hash signs hWait
      rw [hInput]
      exact hMine hash signs hWait
    · rw [hSame.coinReady, hSame.handlesShare]
      exact hLoop.coin
    · rw [hSame.handlesShare, hSame.storesCoin]
      exact hLoop.share
    · rw [hSame.finish]
      refine hLoop.finish.mono ?_ ?_
      · rw [hSame.handlesShare]
        exact fun h => h
      · intro c hRelies
        exact hBound c (by simp [MVBA.holds, hRelies])
  · refine
      { lastinput := hSame.lastinput
        next := by rw [hSame.finish]
        done := by rw [hSame.finish]; exact fun h => h
        input := hInput
        share := ?_
        stored := ?_
        tied := ?_ }
    · intro hLeft
      rw [hSame.handlesShare, hSame.storesCoin]
      exact (hOk.left l hLeft).2
    · rw [hSame.handlesShare, hSame.storesCoin]
      exact fun hStrict => hOk.stored hStrict l hLt
    · intro c hMem
      have hHolds : m.holds l c = true := by
        simp [MVBA.holds, hMem]
      exact ⟨hHeld c hHolds, hBound c hHolds⟩

/- Steps that store nothing. -/
theorem PartyOk.quiet
    (hOk : PartyOk strict cfg id m) (hLt : l < m.started)
    (hQuiet : Quiet id (m.loops l) li') :
    PartyOk strict cfg id (m.setLoop l li') := by
  refine
    hOk.store hLt hQuiet.toSameVotes
      (by rw [hQuiet.inputs])
      (fun c _ => by rw [hQuiet.inputs]) ?_ hQuiet.pbc
  intro hash signs hWait
  exact
    (hOk.loops l hLt).mine hash signs
      (hQuiet.mine _ _ hWait)

/- A goroutine for a leader that is not done is not the own. -/
theorem PartyOk.leader_ne
    (hOk : PartyOk strict cfg id m) (hLt : l < m.started)
    {leader : Fin n}
    (hPbc : (m.loops l).pbc leader ≠ .done) :
    leader ≠ id := by
  rintro rfl
  exact hPbc (hOk.loops l hLt).pbc

/- The own broadcast is left as it was. -/
theorem update_pbc
    {li : LoopInfo n} {leader : Fin n} {pbc : PBC}
    (hNe : leader ≠ id) (hDone : li.pbc id = .done) :
    Function.update li.pbc leader pbc id = .done := by
  rw [Function.update_of_ne (Ne.symm hNe)]
  exact hDone

/- A step that stores nothing and sends no input. -/
theorem PartyOk.leave
    (hOk : PartyOk strict cfg id m) (hLt : l < m.started)
    {sent : List (Packet n)}
    (hQuiet : Quiet id (m.loops l) li')
    (hSent :
      ∀ packet ∈ sent, packet.msg.rawMsg.type ≠ .pbc1) :
    EffectOk strict cfg id (m.leave l li' sent) :=
  ⟨hOk.quiet hLt hQuiet,
    fun packet hMem => sentOk_of_type (hSent packet hMem)⟩

/- A step of the goroutine for another leader. -/
theorem PartyOk.leavePBC
    (hOk : PartyOk strict cfg id m) (hLt : l < m.started)
    (leader : Fin n)
    (hPbc : (m.loops l).pbc leader ≠ .done)
    (pbc : PBC) {sent : List (Packet n)}
    (hSent :
      ∀ packet ∈ sent, packet.msg.rawMsg.type ≠ .pbc1) :
    EffectOk strict cfg id
      (m.leave l
        { m.loops l with
          pbc := Function.update (m.loops l).pbc leader pbc }
        sent) := by
  refine hOk.leave hLt ?_ hSent
  exact
    ⟨⟨rfl, rfl, rfl, rfl, rfl, rfl⟩, rfl, fun _ _ h => h,
      update_pbc (hOk.leader_ne hLt hPbc)⟩

/- The answer to a leader keeps the party in order. -/
theorem PartyOk.sendPBC2
    (hOk : PartyOk strict cfg id m) (hLt : l < m.started)
    {leader : Fin n} {e : Effect n}
    (hStep : sendPBC2 cfg id m l leader = some e) :
    EffectOk strict cfg id e := by
  unfold SpeedingMVBA.sendPBC2 at hStep
  dsimp only at hStep
  split at hStep
  · rename_i hash hWait
    have hPbc : (m.loops l).pbc leader ≠ .done := by
      rw [hWait]
      exact PBC.noConfusion
    split at hStep
    · cases hStep
      exact hOk.leavePBC hLt _ hPbc _ (List.forall_mem_nil _)
    · cases hStep
      refine hOk.leavePBC hLt _ hPbc _ ?_
      intro packet hMem
      rw [List.mem_singleton.mp hMem]
      exact MsgType.noConfusion
  · cases hStep

/- So does the second answer. -/
theorem PartyOk.sendPBC4
    (hOk : PartyOk strict cfg id m) (hLt : l < m.started)
    {leader : Fin n} {e : Effect n}
    (hStep : sendPBC4 cfg id m l leader = some e) :
    EffectOk strict cfg id e := by
  unfold SpeedingMVBA.sendPBC4 at hStep
  dsimp only at hStep
  split at hStep
  · rename_i hash hWait
    have hPbc : (m.loops l).pbc leader ≠ .done := by
      rw [hWait]
      exact PBC.noConfusion
    split at hStep
    · cases hStep
      exact hOk.leavePBC hLt _ hPbc _ (List.forall_mem_nil _)
    · cases hStep
      refine hOk.leavePBC hLt _ hPbc _ ?_
      intro packet hMem
      rw [List.mem_singleton.mp hMem]
      exact MsgType.noConfusion
  · cases hStep

/- So does the end of a broadcast. -/
theorem PartyOk.returnPBC
    (hOk : PartyOk strict cfg id m) (hLt : l < m.started)
    {leader : Fin n} {e : Effect n}
    (hStep : returnPBC m l leader = some e) :
    EffectOk strict cfg id e := by
  have hReturn :
      (m.loops l).pbc leader ≠ .done →
        (if (m.loops l).pbcDone then
            some
              (m.leave l
                { m.loops l with
                  pbc :=
                    Function.update (m.loops l).pbc leader
                      .done } [])
          else none) = some e →
          EffectOk strict cfg id e := by
    intro hPbc hReturn
    rcases Option.ite_none_right_eq_some.mp hReturn with
      ⟨_, hEq⟩
    cases hEq
    exact hOk.leavePBC hLt _ hPbc _ (List.forall_mem_nil _)
  unfold SpeedingMVBA.returnPBC at hStep
  dsimp only at hStep
  split at hStep
  · rename_i hPbc
    exact hReturn (by rw [hPbc]; exact PBC.noConfusion) hStep
  · rename_i hPbc
    exact hReturn (by rw [hPbc]; exact PBC.noConfusion) hStep
  · cases hStep

/- So does the own third message. -/
theorem PartyOk.sendPBC3
    (hOk : PartyOk strict cfg id m) (hLt : l < m.started)
    {e : Effect n}
    (hStep : sendPBC3 cfg id m l = some e) :
    EffectOk strict cfg id e := by
  unfold SpeedingMVBA.sendPBC3 at hStep
  dsimp only at hStep
  split at hStep
  · split at hStep
    · cases hStep
      refine hOk.leave hLt ?_ (List.forall_mem_nil _)
      exact
        ⟨⟨rfl, rfl, rfl, rfl, rfl, rfl⟩, rfl, nofun,
          fun h => h⟩
    · cases hStep
      refine hOk.leave hLt ?_ ?_
      · exact
          ⟨⟨rfl, rfl, rfl, rfl, rfl, rfl⟩, rfl, nofun,
            fun h => h⟩
      · intro packet hMem
        rw [List.mem_singleton.mp hMem]
        exact MsgType.noConfusion
  · cases hStep

/- So does the end of the own broadcast. -/
theorem PartyOk.returnMinePBC
    (hOk : PartyOk strict cfg id m) (hLt : l < m.started)
    {e : Effect n}
    (hStep : returnMinePBC m l = some e) :
    EffectOk strict cfg id e := by
  have hReturn :
      (if (m.loops l).pbcDone then
          some (m.leave l { m.loops l with mine := .done } [])
        else none) = some e →
        EffectOk strict cfg id e := by
    intro hReturn
    rcases Option.ite_none_right_eq_some.mp hReturn with
      ⟨_, hEq⟩
    cases hEq
    refine hOk.leave hLt ?_ (List.forall_mem_nil _)
    exact
      ⟨⟨rfl, rfl, rfl, rfl, rfl, rfl⟩, rfl, nofun,
        fun h => h⟩
  unfold SpeedingMVBA.returnMinePBC at hStep
  dsimp only at hStep
  split at hStep
  · exact hReturn hStep
  · exact hReturn hStep
  · cases hStep

/- So does the own share. -/
theorem PartyOk.sendShare
    (hOk : PartyOk strict cfg id m) (hLt : l < m.started)
    {e : Effect n}
    (hStep : sendShare cfg id m l = some e) :
    EffectOk strict cfg id e := by
  unfold SpeedingMVBA.sendShare at hStep
  dsimp only at hStep
  split at hStep
  · split at hStep
    · cases hStep
      refine hOk.leave hLt ?_ (List.forall_mem_nil _)
      exact
        ⟨⟨rfl, rfl, rfl, rfl, rfl, rfl⟩, rfl, fun _ _ h => h,
          fun h => h⟩
    · cases hStep
      refine hOk.leave hLt ?_ ?_
      · exact
          ⟨⟨rfl, rfl, rfl, rfl, rfl, rfl⟩, rfl, fun _ _ h => h,
            fun h => h⟩
      · intro packet hMem
        rw [List.mem_singleton.mp hMem]
        exact MsgType.noConfusion
  · cases hStep

/- What another OK leaves of a loop. -/
theorem countPi_same
    {li li' : LoopInfo n} {sign : Signature}
    {certs : List Cert}
    (hCount : countPi cfg l li sign = some (li', certs)) :
    SameVotes li li' ∧ li'.inputs = li.inputs ∧
      li'.mine = li.mine ∧ li'.pbc = li.pbc := by
  unfold countPi at hCount
  dsimp only at hCount
  split at hCount
  · rcases Option.map_eq_some_iff.mp hCount with
      ⟨batch, _, hEq⟩
    cases hEq
    exact ⟨⟨rfl, rfl, rfl, rfl, rfl, rfl⟩, rfl, rfl, rfl⟩
  · cases hCount
    exact ⟨⟨rfl, rfl, rfl, rfl, rfl, rfl⟩, rfl, rfl, rfl⟩

/- So does an answer to the third message. -/
theorem PartyOk.handleMinePBC4
    (hOk : PartyOk strict cfg id m) (hLt : l < m.started)
    {msg : Msg} {e : Effect n}
    (hStep : handleMinePBC4 cfg id m l msg = some e) :
    EffectOk strict cfg id e := by
  unfold SpeedingMVBA.handleMinePBC4 at hStep
  dsimp only at hStep
  split at hStep
  · rename_i hash signs hWait
    rcases Option.ite_none_right_eq_some.mp hStep with
      ⟨_, hStep⟩
    rcases Option.bind_eq_some_iff.mp hStep with
      ⟨got, _, hStep⟩
    split at hStep
    · rcases Option.bind_eq_some_iff.mp hStep with
        ⟨batch, _, hStep⟩
      rcases Option.bind_eq_some_iff.mp hStep with
        ⟨⟨li', certs⟩, hCount, hEq⟩
      cases hEq
      rcases countPi_same hCount with
        ⟨hSame, hInputs, hMine, hPbc⟩
      refine ⟨?_, ?_⟩
      · refine hOk.quiet hLt ⟨?_, hInputs, ?_, ?_⟩
        · exact { hSame with }
        · intro hash' signs' hWait'
          rw [hMine] at hWait'
          cases hWait'
        · intro hDone
          rw [hPbc]
          exact hDone
      · intro packet hMem
        dsimp only at hMem
        split at hMem
        · cases hMem
        · rw [List.mem_singleton.mp hMem]
          exact sentOk_of_type MsgType.noConfusion
    · cases hStep
      refine hOk.leave hLt ?_ (List.forall_mem_nil _)
      exact
        ⟨⟨rfl, rfl, rfl, rfl, rfl, rfl⟩, rfl, nofun,
          fun h => h⟩
  · cases hStep

end Quiet

end SpeedingMVBA

end Jumbo

------------------------------------------------------------
-- Inputs, Combined Signatures and Shares
------------------------------------------------------------

namespace Jumbo

namespace SpeedingMVBA

open Crypto (Bytes)
open Struct

variable {n : Nat}

section Store

variable {strict : Prop}
variable {cfg : Config n} {id : Fin n} {m : MVBA n}
variable {l : Nat} {msg : Msg} {e : Effect n}

theorem setLoop_setLoop (li li' : LoopInfo n) :
    (m.setLoop l li).setLoop l li' = m.setLoop l li' := by
  simp [MVBA.setLoop]

/- The input of a leader is replaced by one allowed. -/
theorem PartyOk.overwrite
    (hOk : PartyOk strict cfg id m) (hLt : l < m.started)
    {c : Fin n} {values : Bytes}
    (hSame :
      c = id ∨ m.holds l c = true →
        cfg.sha values = cfg.sha ((m.loops l).inputs c)) :
    PartyOk strict cfg id
      (m.setLoop l
        { m.loops l with
          inputs :=
            Function.update (m.loops l).inputs c values }) := by
  have hKeep :
      ∀ c', c' = id ∨ m.holds l c' = true →
        cfg.sha
            (Function.update (m.loops l).inputs c values c') =
          cfg.sha ((m.loops l).inputs c') := by
    intro c' hOr
    by_cases hEq : c' = c
    · subst hEq
      rw [Function.update_self]
      exact hSame hOr
    · rw [Function.update_of_ne hEq]
  exact
    hOk.store hLt ⟨rfl, rfl, rfl, rfl, rfl, rfl⟩
      (hKeep id (.inl rfl)) (fun c' h => hKeep c' (.inr h))
      (hOk.loops l hLt).mine (fun h => h)

/- A first message that is steady stores no other input. -/
theorem PartyOk.handlePBC1
    (hOk : PartyOk strict cfg id m) (hLt : l < m.started)
    {leader : Fin n}
    (hSteady :
      m.holds l leader = true →
        cfg.sha msg.rawMsg.values =
          cfg.sha ((m.loops l).inputs leader))
    (hStep : handlePBC1 cfg m l leader msg = some e) :
    EffectOk strict cfg id e := by
  unfold SpeedingMVBA.handlePBC1 at hStep
  dsimp only at hStep
  split at hStep
  · cases hStep
  · rename_i hWait
    have hPbc : (m.loops l).pbc leader ≠ .done := by
      rw [not_not.mp hWait]
      exact PBC.noConfusion
    split at hStep
    · rcases Option.map_eq_some_iff.mp hStep with
        ⟨certs, _, rfl⟩
      refine ⟨?_, List.forall_mem_nil _⟩
      have hFirst :
          PartyOk strict cfg id
            (m.setLoop l
              { m.loops l with
                inputs :=
                  Function.update (m.loops l).inputs leader
                    msg.rawMsg.values }) := by
        refine hOk.overwrite hLt fun hOr => ?_
        rcases hOr with hSelf | hHolds
        · exact absurd hSelf (hOk.leader_ne hLt hPbc)
        · exact hSteady hHolds
      have hBoth := hFirst.leavePBC hLt leader
        (by rw [setLoop_same]; exact hPbc)
        (.send2 (cfg.sha msg.rawMsg.values))
        (List.forall_mem_nil _)
      simpa only [MVBA.leave, setLoop_setLoop, setLoop_same]
        using hBoth.1
    · split at hStep
      · cases hStep
        exact hOk.leavePBC hLt _ hPbc _ (List.forall_mem_nil _)
      · cases hStep

/- Nor does a proof that is steady. -/
theorem PartyOk.handlePi
    (hOk : PartyOk strict cfg id m) (hLt : l < m.started)
    (hSteady :
      ∀ leader, index n msg.rawMsg.id = some leader →
        leader = id ∨ m.holds l leader = true →
          cfg.sha msg.rawMsg.values =
            cfg.sha ((m.loops l).inputs leader))
    (hStep : handlePi cfg m l msg = some e) :
    EffectOk strict cfg id e := by
  unfold SpeedingMVBA.handlePi at hStep
  dsimp only at hStep
  rcases Option.ite_none_right_eq_some.mp hStep with
    ⟨_, hStep⟩
  rcases Option.bind_eq_some_iff.mp hStep with
    ⟨leader, hIndex, hStep⟩
  rcases Option.bind_eq_some_iff.mp hStep with
    ⟨cert, _, hStep⟩
  rcases Option.bind_eq_some_iff.mp hStep with
    ⟨okSign, _, hStep⟩
  rcases Option.bind_eq_some_iff.mp hStep with
    ⟨⟨li', certs⟩, hCount, hEq⟩
  cases hEq
  rcases countPi_same hCount with
    ⟨hSame, hInputs, hMine, hPbc⟩
  refine ⟨?_, List.forall_mem_nil _⟩
  have hFirst := hOk.overwrite hLt (hSteady leader hIndex)
  have hBoth :
      PartyOk strict cfg id
        ((m.setLoop l
          { m.loops l with
            inputs :=
              Function.update (m.loops l).inputs leader
                msg.rawMsg.values }).setLoop l
          { li' with
            handlesPi :=
              !decide (maxCount n < li'.piCount) }) := by
    refine hFirst.quiet hLt ?_
    rw [setLoop_same]
    refine ⟨?_, hInputs, ?_, ?_⟩
    · exact { hSame with }
    · intro hash signs hWait
      rw [← hMine]
      exact hWait
    · intro hDone
      rw [← hDone]
      exact congrFun hPbc id
  rw [setLoop_setLoop] at hBoth
  exact hBoth

/- A combined signature for the input stored is kept. -/
theorem PartyOk.certify
    (hOk : PartyOk strict cfg id m) (hLt : l < m.started)
    {c : Fin n} {batch : BatchSignature}
    (hCert :
      Certified cfg l c
        (cfg.sha ((m.loops l).inputs c)) batch) :
    PartyOk strict cfg id
      (m.setLoop l
        { m.loops l with
          sigmas :=
            Function.update (m.loops l).sigmas c batch }) := by
  have hLoop := hOk.loops l hLt
  have hBound :
      ∀ c', (m.loops l).Bound cfg l c' →
        LoopInfo.Bound cfg l
          { m.loops l with
            sigmas :=
              Function.update (m.loops l).sigmas c batch }
          c' := by
    intro c' hOld
    unfold LoopInfo.Bound
    dsimp only
    by_cases hEq : c' = c
    · subst hEq
      rw [Function.update_self]
      exact hCert
    · rw [Function.update_of_ne hEq]
      exact hOld
  refine hOk.setLoop hLt ?_ ?_
  · refine
      { hLoop with
        sigmas := ?_
        finish := ?_ }
    · intro c'
      by_cases hEq : c' = c
      · subst hEq
        right
        unfold LoopInfo.Bound
        dsimp only
        rw [Function.update_self]
        exact hCert
      · rcases hLoop.sigmas c' with hNone | hOld
        · left
          dsimp only
          rw [Function.update_of_ne hEq]
          exact hNone
        · exact .inr (hBound c' hOld)
    · exact
        hLoop.finish.mono (fun h => h) fun c' _ => hBound c'
  · exact
      { lastinput := rfl
        next := Iff.rfl
        done := fun h => h
        input := rfl
        share := fun hLeft => (hOk.left l hLeft).2
        stored := fun hStrict => hOk.stored hStrict l hLt
        tied := fun c' _ => ⟨rfl, hBound c'⟩ }

/- A third message has the hash that is held. -/
theorem PartyOk.handlePBC3
    (hOk : PartyOk strict cfg id m) (hLt : l < m.started)
    {leader : Fin n}
    (hSteady :
      msg.rawMsg.values =
        cfg.sha ((m.loops l).inputs leader))
    (hStep : handlePBC3 cfg m l leader msg = some e) :
    EffectOk strict cfg id e := by
  unfold SpeedingMVBA.handlePBC3 at hStep
  dsimp only at hStep
  split at hStep
  · rename_i hash hWait
    have hPbc : (m.loops l).pbc leader ≠ .done := by
      rw [hWait]
      exact PBC.noConfusion
    rcases Option.ite_none_right_eq_some.mp hStep with
      ⟨rfl, hStep⟩
    rcases Option.map_eq_some_iff.mp hStep with
      ⟨cert, hAccept, rfl⟩
    refine ⟨?_, List.forall_mem_nil _⟩
    have hCert := (accept_eq_some hAccept).2
    rw [hSteady] at hCert
    have hFirst := hOk.certify hLt hCert
    have hBoth := hFirst.leavePBC hLt leader
      (by rw [setLoop_same]; exact hPbc)
      (.send4 msg.rawMsg.values) (List.forall_mem_nil _)
    simpa only [MVBA.leave, setLoop_setLoop, setLoop_same]
      using hBoth.1
  · cases hStep

/- Answers are put together to a certificate. -/
theorem PartyOk.handleMinePBC2
    (hCombines : Combines cfg)
    (hOk : PartyOk strict cfg id m) (hLt : l < m.started)
    (hSteady : ∀ sign ∈ msg.sign, exact cfg sign = true)
    (hStep : handleMinePBC2 cfg id m l msg = some e) :
    EffectOk strict cfg id e := by
  have hLoop := hOk.loops l hLt
  unfold SpeedingMVBA.handleMinePBC2 at hStep
  dsimp only at hStep
  split at hStep
  · rename_i hash signs hWait
    rcases hLoop.mine hash signs hWait with
      ⟨hHash, hSigns⟩
    rcases Option.ite_none_right_eq_some.mp hStep with
      ⟨_, hStep⟩
    rcases Option.bind_eq_some_iff.mp hStep with
      ⟨got, hAccept, hStep⟩
    rcases acceptSign_eq_some hAccept with ⟨hSign, hVerify⟩
    have hGot :
        Usable cfg
          (cfg.marshal (cfg.rawMsg .pbc2 id hash l)) got :=
      ⟨hVerify, hSteady got hSign⟩
    have hAll :
        ∀ sign ∈ signs ++ [got],
          Usable cfg
            (cfg.marshal (cfg.rawMsg .pbc2 id hash l))
            sign := by
      intro sign hMem
      rcases List.mem_append.mp hMem with hOld | hNew
      · exact hSigns sign hOld
      · rw [List.mem_singleton.mp hNew]
        exact hGot
    split at hStep
    · rcases Option.bind_eq_some_iff.mp hStep with
        ⟨batch, hBatch, hEq⟩
      cases hEq
      refine ⟨?_, List.forall_mem_nil _⟩
      have hCert :
          Certified cfg l id
            (cfg.sha ((m.loops l).inputs id)) batch := by
        rw [← hHash]
        refine hCombines.batchSign (by simp) ?_ hBatch
        intro sign hMem
        rcases List.mem_append.mp hMem with hOld | hNew
        · exact hAll sign hOld
        · rw [List.mem_singleton.mp hNew]
          exact hCombines.usable id _
      have hBoth :
          PartyOk strict cfg id
            ((m.setLoop l
              { m.loops l with
                sigmas :=
                  Function.update (m.loops l).sigmas id
                    batch }).setLoop l
              { m.loops l with
                sigmas :=
                  Function.update (m.loops l).sigmas id batch
                mine := .send3 hash batch }) := by
        refine (hOk.certify hLt hCert).quiet hLt ?_
        rw [setLoop_same]
        exact
          ⟨⟨rfl, rfl, rfl, rfl, rfl, rfl⟩, rfl, nofun,
            fun h => h⟩
      rw [setLoop_setLoop] at hBoth
      exact hBoth
    · cases hStep
      refine ⟨?_, List.forall_mem_nil _⟩
      refine
        hOk.store hLt ⟨rfl, rfl, rfl, rfl, rfl, rfl⟩ rfl
          (fun _ _ => rfl) ?_ (fun h => h)
      intro hash' signs' hWait'
      cases hWait'
      exact ⟨hHash, hAll⟩
  · cases hStep

/- A share that completes the coin sets it. -/
theorem PartyOk.countShare
    (hOk : PartyOk strict cfg id m) (hLt : l < m.started)
    (hHandles : (m.loops l).handlesShare = true)
    {share : Signature} {ss : BatchSignature}
    {certs : List Cert}
    (hStep : countShare cfg m l share ss certs = some e) :
    EffectOk strict cfg id e := by
  unfold SpeedingMVBA.countShare at hStep
  dsimp only at hStep
  have hQuiet :
      PartyOk strict cfg id
        (m.setLoop l
          { m.loops l with
            shares := (m.loops l).shares ++ [share]
            shareReady :=
              if (m.loops l).firstShare then
                (m.loops l).shareReady ++ [ss]
              else (m.loops l).shareReady
            pbcDone :=
              (m.loops l).pbcDone || (m.loops l).firstShare
            firstShare := false }) := by
    refine hOk.quiet hLt ?_
    exact
      ⟨⟨rfl, rfl, rfl, rfl, rfl, rfl⟩, rfl, fun _ _ h => h,
        fun h => h⟩
  split at hStep
  · rcases Option.map_eq_some_iff.mp hStep with
      ⟨batch, _, rfl⟩
    refine ⟨?_, List.forall_mem_nil _⟩
    have hLoop := hOk.loops l hLt
    refine hOk.setLoop hLt ?_ ?_
    · exact
        { sigmas := hLoop.sigmas
          mine := hLoop.mine
          pbc := hLoop.pbc
          coin := fun c hCoin =>
            ⟨(Option.some.inj hCoin).symm, rfl⟩
          share := nofun
          finish :=
            hLoop.finish.mono (fun _ => rfl)
              fun _ _ h => h }
    · refine
        { lastinput := rfl
          next := Iff.rfl
          done := fun h => h
          input := rfl
          share := ?_
          stored := nofun
          tied := fun _ _ => ⟨rfl, fun h => h⟩ }
      intro hLeft
      have hOff := (hOk.left l hLeft).2.1
      rw [hHandles] at hOff
      cases hOff
  · cases hStep
    exact ⟨hQuiet, List.forall_mem_nil _⟩

/- Reading a share keeps the party in order. -/
theorem PartyOk.handleShare
    (hOk : PartyOk strict cfg id m) (hLt : l < m.started)
    (hStep : handleShare cfg m l msg = some e) :
    EffectOk strict cfg id e := by
  unfold SpeedingMVBA.handleShare at hStep
  rcases Option.ite_none_right_eq_some.mp hStep with
    ⟨hHandles, hStep⟩
  rcases Option.bind_eq_some_iff.mp hStep with
    ⟨cert, _, hStep⟩
  rcases Option.bind_eq_some_iff.mp hStep with
    ⟨share, _, hStep⟩
  exact hOk.countShare hLt hHandles hStep

/- So does the own share. -/
theorem PartyOk.handleShareMine
    (hOk : PartyOk strict cfg id m) (hLt : l < m.started)
    (hStep : handleShareMine cfg m l = some e) :
    EffectOk strict cfg id e := by
  unfold SpeedingMVBA.handleShareMine at hStep
  dsimp only at hStep
  rcases Option.ite_none_right_eq_some.mp hStep with
    ⟨hHandles, hStep⟩
  rcases Option.bind_eq_some_iff.mp hStep with
    ⟨msg, _, hStep⟩
  rcases Option.bind_eq_some_iff.mp hStep with
    ⟨share, _, hStep⟩
  rcases Option.bind_eq_some_iff.mp hStep with
    ⟨ss, _, hStep⟩
  have hTaken :
      PartyOk strict cfg id
        (m.setLoop l
          { m.loops l with shareMine := none }) := by
    refine hOk.quiet hLt ?_
    exact
      ⟨⟨rfl, rfl, rfl, rfl, rfl, rfl⟩, rfl, fun _ _ h => h,
        fun h => h⟩
  refine hTaken.countShare hLt ?_ hStep
  rw [setLoop_same]
  exact hHandles

/- The coin of the loop that the party is in is stored. -/
theorem PartyOk.storeCoin
    (hOk : PartyOk strict cfg id m) (hLt : l < m.started)
    (hStep : storeCoin cfg m l = some e) :
    EffectOk strict cfg id e := by
  have hLoop := hOk.loops l hLt
  unfold SpeedingMVBA.storeCoin at hStep
  dsimp only at hStep
  rcases Option.ite_none_right_eq_some.mp hStep with
    ⟨hStores, hEq⟩
  cases hEq
  refine ⟨?_, List.forall_mem_nil _⟩
  have hHere : strict → l = m.loop := by
    intro hStrict
    have hNot : ¬ l < m.loop := by
      intro hLeft
      have hOff := (hOk.left l hLeft).2.2 hStrict
      rw [hStores] at hOff
      cases hOff
    have hAhead := hOk.ahead.2
    omega
  have hLength : strict → m.loop ≤ m.oldCoins.length := by
    intro hStrict
    by_contra hShort
    have hCoin :=
      hOk.coins hStrict m.oldCoins.length (by omega)
    rw [List.getElem?_eq_none (Nat.le_refl _)] at hCoin
    cases hCoin
  have hCoins :
      PartyOk strict cfg id
        { m with
          oldCoins :=
            if m.oldCoins.length ≤ l then
              m.oldCoins ++ [cfg.coin l]
            else m.oldCoins } := by
    split
    · rename_i hShort
      refine
        { hOk with
          coins := ?_
          stored := ?_
          honest := ?_
          carries := fun hNot =>
            (hOk.carries hNot).mono fun _ _ _ h => h }
      · intro hStrict k hk
        have hLeft : k < m.loop := hk
        have hMany := hLength hStrict
        rw [List.getElem?_append_left (by omega)]
        exact hOk.coins hStrict k hLeft
      · intro hStrict k hk hOff hDone
        have hOld := hOk.stored hStrict k hk hOff hDone
        simp only [List.length_append]
        omega
      · intro hStrict hOpen hWaits k c hMem
        by_cases hOld : k < m.oldCoins.length
        · rw [List.getElem?_append_left hOld] at hMem
          exact hOk.honest hStrict hOpen hWaits k c hMem
        · have hMany :=
            (List.getElem?_eq_some_iff.mp hMem).1
          rw [List.length_append, List.length_singleton]
            at hMany
          have hLast : k = m.oldCoins.length := by omega
          have hLe := hLength hStrict
          have hEq := hHere hStrict
          have hIndex : k = l := by omega
          rw [hLast, List.getElem?_concat_length] at hMem
          rw [hIndex]
          exact (Option.some.inj hMem).symm
    · exact hOk
  have hMore :
      strict →
        l <
          (if m.oldCoins.length ≤ l then
            m.oldCoins ++ [cfg.coin l]
          else m.oldCoins).length := by
    intro hStrict
    have hLe := hLength hStrict
    have hEq := hHere hStrict
    split
    · rw [List.length_append, List.length_singleton]
      omega
    · omega
  refine hCoins.setLoop hLt ?_ ?_
  · exact
      { sigmas := hLoop.sigmas
        mine := hLoop.mine
        pbc := hLoop.pbc
        coin := hLoop.coin
        share := fun _ => rfl
        finish :=
          hLoop.finish.mono (fun h => h) fun _ _ h => h }
  · exact
      { lastinput := rfl
        next := Iff.rfl
        done := fun h => h
        input := rfl
        share := fun hLeft =>
          ⟨(hOk.left l hLeft).2.1, fun _ => rfl⟩
        stored := fun hStrict _ _ => hMore hStrict
        tied := fun _ _ => ⟨rfl, fun h => h⟩ }

end Store

end SpeedingMVBA

end Jumbo
