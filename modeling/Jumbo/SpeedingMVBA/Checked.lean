import Jumbo.SpeedingMVBA.Halts

/-
  What is output has been checked.

  A leader does not check its own input; the parties that it
  asks for a signature do. Whoever holds the combined
  signature of a leader, or has been asked for a share, knows
  of a party that has. So the values of a halt have passed
  the check, in whatever loop and on whatever path.

  Main declarations:
    * `Checked`
    * `LoopChecked`
    * `NetChecked`
    * `halts_checked`
-/

------------------------------------------------------------
-- Checked Inputs
------------------------------------------------------------

namespace Jumbo

namespace SpeedingMVBA

namespace Agreement

open Crypto (Bytes)
open Protocol
open Struct

variable {n : Nat}

/- A party has started a loop with what passes the check. -/
def Checked
    (cfg : Config n) (log : Log n) (l : Nat) (c : Fin n) :
    Prop :=
  ∃ values, Input log l c values ∧
    cfg.checkInput values = true

/- `handle_PBC` has taken the input of its leader. -/
def taken : PBC → Bool
| .send2 _ | .wait3 _ | .send4 _ => true
| _ => false

/- `handle_mine_PBC` has combined signatures. -/
def combined : MinePBC → Bool
| .send3 .. | .wait4 .. => true
| _ => false

/- What a party has signed in a loop has been checked. -/
structure LoopChecked
    (cfg : Config n) (id : Fin n) (log : Log n) (l : Nat)
    (li : LoopInfo n) : Prop where
  pbc : ∀ c, taken (li.pbc c) = true → Checked cfg log l c
  sigma :
    ∀ c, 0 < (li.sigmas c).mems.length → Checked cfg log l c
  mine : combined li.mine = true → Checked cfg log l id

/- Whose input a message says to be checked. -/
def Vouched
    (cfg : Config n) (log : Log n) (packet : Packet n) :
    Prop :=
  let l := packet.msg.rawMsg.loop
  match packet.msg.rawMsg.type with
  | .pbc2 | .pbc4 =>
      ∀ q, packet.dest q = true ∨ names q packet = true →
        Checked cfg log l q
  | .pbc3 => Checked cfg log l packet.src
  | .prevYes | .voteYes => Checked cfg log l (cfg.coin l)
  | _ => True

/- A step in the loop `l`. -/
structure CheckedStep
    (cfg : Config n) (id : Fin n) (log : Log n)
    (m : MVBA n) (l : Nat) (m' : MVBA n)
    (sent : List (Packet n)) : Prop where
  started : m'.started = m.started
  loops : ∀ k, k ≠ l → m'.loops k = m.loops k
  ok : LoopChecked cfg id log l (m'.loops l)
  sent : ∀ packet ∈ sent, Vouched cfg log packet

section Steps

variable {cfg : Config n} {id : Fin n}
variable {log log' : Log n} {m : MVBA n} {l : Nat}
variable {li li' : LoopInfo n}
variable {e : Effect n} {msg : Msg}

/- More messages keep a value checked. -/
theorem Checked.mono
    {c : Fin n} (hChecked : Checked cfg log l c)
    (hSub : log.sent ⊆ log'.sent) :
    Checked cfg log' l c := by
  rcases hChecked with ⟨values, hInput, hCheck⟩
  exact ⟨values, hInput.mono hSub, hCheck⟩

/- More messages keep a loop checked. -/
theorem LoopChecked.mono
    (hOk : LoopChecked cfg id log l li)
    (hSub : log.sent ⊆ log'.sent) :
    LoopChecked cfg id log' l li where
  pbc := fun c h => (hOk.pbc c h).mono hSub
  sigma := fun c h => (hOk.sigma c h).mono hSub
  mine := fun h => (hOk.mine h).mono hSub

/- More messages keep a message vouched for. -/
theorem Vouched.mono
    {packet : Packet n} (hVouched : Vouched cfg log packet)
    (hSub : log.sent ⊆ log'.sent) :
    Vouched cfg log' packet := by
  unfold Vouched at hVouched ⊢
  dsimp only at hVouched ⊢
  cases hType : packet.msg.rawMsg.type <;>
    rw [hType] at hVouched <;>
    dsimp only at hVouched ⊢
  case pbc2 => exact fun q hq => (hVouched q hq).mono hSub
  case pbc3 => exact hVouched.mono hSub
  case pbc4 => exact fun q hq => (hVouched q hq).mono hSub
  case prevYes => exact hVouched.mono hSub
  case voteYes => exact hVouched.mono hSub

/- A new loop has signed nothing. -/
theorem loopChecked_new {input : Bytes} :
    LoopChecked cfg id log l
      (LoopInfo.new cfg id input) where
  pbc := by
    intro c hTaken
    unfold LoopInfo.new at hTaken
    dsimp only at hTaken
    by_cases hEq : c = id
    · subst hEq
      rw [Function.update_self] at hTaken
      cases hTaken
    · rw [Function.update_of_ne hEq] at hTaken
      cases hTaken
  sigma := fun c hPos => absurd hPos (Nat.lt_irrefl 0)
  mine := fun hCombined => by cases hCombined

/- Only the place for one leader changes. -/
theorem LoopChecked.setPbc
    {leader : Fin n} (hOk : LoopChecked cfg id log l li)
    (pbc : PBC)
    (hPbc : taken pbc = true → Checked cfg log l leader) :
    LoopChecked cfg id log l
      { li with pbc := Function.update li.pbc leader pbc } where
  pbc := by
    intro c hTaken
    dsimp only at hTaken
    by_cases hEq : c = leader
    · subst hEq
      rw [Function.update_self] at hTaken
      exact hPbc hTaken
    · rw [Function.update_of_ne hEq] at hTaken
      exact hOk.pbc c hTaken
  sigma := hOk.sigma
  mine := hOk.mine

/- A certificate of a checked value may be stored. -/
theorem LoopChecked.setSigma
    (hOk : LoopChecked cfg id log l li)
    (batch : BatchSignature) {c : Fin n}
    (hChecked : Checked cfg log l c) :
    LoopChecked cfg id log l
      { li with
        sigmas := Function.update li.sigmas c batch } where
  pbc := hOk.pbc
  sigma := by
    intro c' hPos
    dsimp only at hPos
    by_cases hEq : c' = c
    · subst hEq
      exact hChecked
    · rw [Function.update_of_ne hEq] at hPos
      exact hOk.sigma c' hPos
  mine := hOk.mine

/- A step that leaves the loop as `li'`. -/
theorem CheckedStep.stay
    {m' : MVBA n} {sent : List (Packet n)}
    (hLoops : m'.loops = (m.setLoop l li').loops)
    (hStarted : m'.started = m.started)
    (hOk : LoopChecked cfg id log l li')
    (hSent : ∀ packet ∈ sent, Vouched cfg log packet) :
    CheckedStep cfg id log m l m' sent where
  started := hStarted
  loops := fun k hk => by
    rw [hLoops]
    exact setLoop_other hk
  ok := by
    rw [hLoops, setLoop_same]
    exact hOk
  sent := hSent

/- A step that sends nothing. -/
theorem CheckedStep.quiet
    (hOk : LoopChecked cfg id log l li') :
    CheckedStep cfg id log m l (m.setLoop l li') [] :=
  .stay rfl rfl hOk (List.forall_mem_nil _)

/- A step that sends one message. -/
theorem CheckedStep.post
    {packet : Packet n}
    (hOk : LoopChecked cfg id log l li')
    (hVouched : Vouched cfg log packet) :
    CheckedStep cfg id log m l (m.setLoop l li') [packet] :=
  .stay rfl rfl hOk (List.forall_mem_singleton.mpr hVouched)

end Steps

end Agreement

end SpeedingMVBA

end Jumbo

------------------------------------------------------------
-- Broadcasts
------------------------------------------------------------

namespace Jumbo

namespace SpeedingMVBA

namespace Agreement

open Crypto (Bytes)
open Protocol
open Struct

variable {n : Nat}

section PBC

variable {cfg : Config n} {id : Fin n} {log : Log n}
variable {m : MVBA n} {l : Nat} {li : LoopInfo n}
variable {leader : Fin n} {e : Effect n} {msg : Msg}

/- Here an input is checked. -/
theorem CheckedStep.handlePBC1
    (hOk : LoopChecked cfg id log l (m.loops l))
    (hInput : Input log l leader msg.rawMsg.values)
    (hStep : handlePBC1 cfg m l leader msg = some e) :
    CheckedStep cfg id log m l e.mvba e.sent := by
  unfold SpeedingMVBA.handlePBC1 at hStep
  dsimp only at hStep
  split at hStep
  · cases hStep
  · split at hStep
    · rename_i hCheck
      rcases Option.map_eq_some_iff.mp hStep with
        ⟨certs, _, rfl⟩
      refine .quiet ?_
      have hSet :=
        hOk.setPbc (.send2 (cfg.sha msg.rawMsg.values))
          fun _ => ⟨_, hInput, hCheck⟩
      exact ⟨hSet.pbc, hSet.sigma, hSet.mine⟩
    · split at hStep
      · cases hStep
        exact .quiet (hOk.setPbc .done fun h => by cases h)
      · cases hStep

/- An answer is vouched for by its check. -/
theorem vouched_send
    {rawMsg : RawMsg} {sign : Option Signature}
    (hType : rawMsg.type = .pbc2 ∨ rawMsg.type = .pbc4)
    (hId : rawMsg.id = leader.val + 1)
    (hChecked : Checked cfg log rawMsg.loop leader) :
    Vouched cfg log
      (send id leader { rawMsg := rawMsg, sign := sign }) := by
  let packet :=
    send id leader { rawMsg := rawMsg, sign := sign }
  have hAll :
      ∀ q, packet.dest q = true ∨ names q packet = true →
        Checked cfg log rawMsg.loop q := by
    intro q hq
    have hEq : q = leader := by
      rcases hq with hDest | hNames
      · exact of_decide_eq_true hDest
      · have hSame : rawMsg.id = (q.val + 1 : Int) :=
          of_decide_eq_true hNames
        exact id_inj (hSame.symm.trans hId)
    rw [hEq]
    exact hChecked
  unfold Vouched
  rcases hType with hType | hType
  · simp only [send, hType]
    exact hAll
  · simp only [send, hType]
    exact hAll

/- Only a checked value is answered. -/
theorem CheckedStep.sendPBC2
    (hOk : LoopChecked cfg id log l (m.loops l))
    (hStep : sendPBC2 cfg id m l leader = some e) :
    CheckedStep cfg id log m l e.mvba e.sent := by
  unfold SpeedingMVBA.sendPBC2 at hStep
  dsimp only at hStep
  split at hStep
  · rename_i hash hSend
    split at hStep
    · cases hStep
      exact .quiet (hOk.setPbc .done fun h => by cases h)
    · cases hStep
      have hChecked : Checked cfg log l leader :=
        hOk.pbc leader (by rw [hSend]; rfl)
      exact
        .post (hOk.setPbc _ fun _ => hChecked)
          (vouched_send (.inl rfl) rfl hChecked)
  · cases hStep

/- Reading the third message signs nothing. -/
theorem CheckedStep.handlePBC3
    (hOk : LoopChecked cfg id log l (m.loops l))
    (hStep : handlePBC3 cfg m l leader msg = some e) :
    CheckedStep cfg id log m l e.mvba e.sent := by
  unfold SpeedingMVBA.handlePBC3 at hStep
  dsimp only at hStep
  split at hStep
  · rename_i hash hWait
    rcases Option.ite_none_right_eq_some.mp hStep with
      ⟨_, hStep⟩
    rcases Option.map_eq_some_iff.mp hStep with
      ⟨cert, _, rfl⟩
    have hChecked : Checked cfg log l leader :=
      hOk.pbc leader (by rw [hWait]; rfl)
    exact
      .quiet
        ((hOk.setSigma _ hChecked).setPbc _ fun _ => hChecked)
  · cases hStep

/- Only a checked value is answered. -/
theorem CheckedStep.sendPBC4
    (hOk : LoopChecked cfg id log l (m.loops l))
    (hStep : sendPBC4 cfg id m l leader = some e) :
    CheckedStep cfg id log m l e.mvba e.sent := by
  unfold SpeedingMVBA.sendPBC4 at hStep
  dsimp only at hStep
  split at hStep
  · rename_i hash hSend
    split at hStep
    · cases hStep
      exact .quiet (hOk.setPbc .done fun h => by cases h)
    · cases hStep
      have hChecked : Checked cfg log l leader :=
        hOk.pbc leader (by rw [hSend]; rfl)
      exact
        .post (hOk.setPbc .done fun h => by cases h)
          (vouched_send (.inr rfl) rfl hChecked)
  · cases hStep

/- The end of the broadcast signs nothing. -/
theorem CheckedStep.returnPBC
    (hOk : LoopChecked cfg id log l (m.loops l))
    (hStep : returnPBC m l leader = some e) :
    CheckedStep cfg id log m l e.mvba e.sent := by
  have hReturns :
      ∀ {effect : Option (Effect n)}, effect =
        (if (m.loops l).pbcDone = true then
          some
            (m.leave l
              { m.loops l with
                pbc :=
                  Function.update (m.loops l).pbc leader
                    .done } [])
        else none) →
          effect = some e →
            CheckedStep cfg id log m l e.mvba e.sent := by
    rintro effect rfl hEffect
    rcases Option.ite_none_right_eq_some.mp hEffect with
      ⟨_, hEq⟩
    cases hEq
    exact .quiet (hOk.setPbc .done fun h => by cases h)
  unfold SpeedingMVBA.returnPBC at hStep
  dsimp only at hStep
  split at hStep
  · exact hReturns rfl hStep
  · exact hReturns rfl hStep
  · cases hStep

end PBC

section MinePBC

variable {cfg : Config n} {id : Fin n} {log : Log n}
variable {m : MVBA n} {l : Nat} {li : LoopInfo n}
variable {e : Effect n} {msg : Msg}

/- The own certificate is for a checked value. -/
theorem LoopChecked.setMine
    {mine : MinePBC}
    (hOk : LoopChecked cfg id log l li)
    (hMine : combined mine = true → Checked cfg log l id) :
    LoopChecked cfg id log l { li with mine := mine } :=
  ⟨hOk.pbc, hOk.sigma, hMine⟩

/- The signature that comes is of a party that has checked. -/
theorem CheckedStep.handleMinePBC2
    (hOk : LoopChecked cfg id log l (m.loops l))
    (hChecked : Checked cfg log l id)
    (hStep : handleMinePBC2 cfg id m l msg = some e) :
    CheckedStep cfg id log m l e.mvba e.sent := by
  unfold SpeedingMVBA.handleMinePBC2 at hStep
  dsimp only at hStep
  split at hStep
  · rcases Option.ite_none_right_eq_some.mp hStep with
      ⟨_, hStep⟩
    rcases Option.bind_eq_some_iff.mp hStep with
      ⟨got, _, hStep⟩
    split at hStep
    · rcases Option.bind_eq_some_iff.mp hStep with
        ⟨batch, _, hEq⟩
      cases hEq
      exact
        .quiet
          ((hOk.setSigma _ hChecked).setMine fun _ => hChecked)
    · cases hStep
      exact .quiet (hOk.setMine fun h => by cases h)
  · cases hStep

/- The own third message comes with its certificate. -/
theorem CheckedStep.sendPBC3
    (hOk : LoopChecked cfg id log l (m.loops l))
    (hStep : sendPBC3 cfg id m l = some e) :
    CheckedStep cfg id log m l e.mvba e.sent := by
  unfold SpeedingMVBA.sendPBC3 at hStep
  dsimp only at hStep
  split at hStep
  · rename_i hash batch hSend
    split at hStep
    · cases hStep
      exact .quiet (hOk.setMine fun h => by cases h)
    · cases hStep
      have hChecked : Checked cfg log l id :=
        hOk.mine (by rw [hSend]; rfl)
      exact .post (hOk.setMine fun _ => hChecked) hChecked
  · cases hStep

/- Nothing is counted that has to do with checks. -/
theorem countPi_checked
    {okSign : Signature} {li' : LoopInfo n}
    {certs : List Cert}
    (hOk : LoopChecked cfg id log l li)
    (hCount : countPi cfg l li okSign = some (li', certs)) :
    LoopChecked cfg id log l li' := by
  unfold countPi at hCount
  dsimp only at hCount
  split at hCount
  · rcases Option.map_eq_some_iff.mp hCount with
      ⟨batch, _, hEq⟩
    cases hEq
    exact ⟨hOk.pbc, hOk.sigma, hOk.mine⟩
  · cases hCount
    exact ⟨hOk.pbc, hOk.sigma, hOk.mine⟩

/- Reading an answer signs nothing. -/
theorem CheckedStep.handleMinePBC4
    (hOk : LoopChecked cfg id log l (m.loops l))
    (hStep : handleMinePBC4 cfg id m l msg = some e) :
    CheckedStep cfg id log m l e.mvba e.sent := by
  unfold SpeedingMVBA.handleMinePBC4 at hStep
  dsimp only at hStep
  split at hStep
  · rename_i hash signs hWait
    rcases Option.ite_none_right_eq_some.mp hStep with
      ⟨_, hStep⟩
    rcases Option.bind_eq_some_iff.mp hStep with
      ⟨got, _, hStep⟩
    split at hStep
    · rcases Option.bind_eq_some_iff.mp hStep with
        ⟨batch, _, hStep⟩
      rcases Option.bind_eq_some_iff.mp hStep with
        ⟨⟨li', certs⟩, hCount, hEq⟩
      cases hEq
      refine
        .stay rfl rfl
          (countPi_checked (hOk.setMine fun h => by cases h)
            hCount)
          ?_
      dsimp only
      split
      · exact List.forall_mem_nil _
      · exact List.forall_mem_singleton.mpr trivial
    · cases hStep
      refine .quiet (hOk.setMine fun _ => ?_)
      exact hOk.mine (by rw [hWait]; rfl)
  · cases hStep

/- The end of the own broadcast signs nothing. -/
theorem CheckedStep.returnMinePBC
    (hOk : LoopChecked cfg id log l (m.loops l))
    (hStep : returnMinePBC m l = some e) :
    CheckedStep cfg id log m l e.mvba e.sent := by
  have hReturns :
      ∀ {effect : Option (Effect n)}, effect =
        (if (m.loops l).pbcDone = true then
          some
            (m.leave l { m.loops l with mine := .done } [])
        else none) →
          effect = some e →
            CheckedStep cfg id log m l e.mvba e.sent := by
    rintro effect rfl hEffect
    rcases Option.ite_none_right_eq_some.mp hEffect with
      ⟨_, hEq⟩
    cases hEq
    exact .quiet (hOk.setMine fun h => by cases h)
  unfold SpeedingMVBA.returnMinePBC at hStep
  dsimp only at hStep
  split at hStep
  · exact hReturns rfl hStep
  · exact hReturns rfl hStep
  · cases hStep

end MinePBC

section Shares

variable {cfg : Config n} {id : Fin n} {log : Log n}
variable {m : MVBA n} {l : Nat} {li : LoopInfo n}
variable {e : Effect n} {msg : Msg}

/- A proof that is read is for a checked value. -/
theorem CheckedStep.handlePi
    (hOk : LoopChecked cfg id log l (m.loops l))
    (hStep : handlePi cfg m l msg = some e) :
    CheckedStep cfg id log m l e.mvba e.sent := by
  unfold SpeedingMVBA.handlePi at hStep
  dsimp only at hStep
  split at hStep
  · rcases Option.bind_eq_some_iff.mp hStep with
      ⟨leader, _, hStep⟩
    rcases Option.bind_eq_some_iff.mp hStep with
      ⟨cert, _, hStep⟩
    rcases Option.bind_eq_some_iff.mp hStep with
      ⟨okSign, _, hStep⟩
    rcases Option.bind_eq_some_iff.mp hStep with
      ⟨⟨li', certs⟩, hCount, hEq⟩
    cases hEq
    have hCounted : LoopChecked cfg id log l li' := by
      refine countPi_checked ?_ hCount
      exact ⟨hOk.pbc, hOk.sigma, hOk.mine⟩
    exact
      .quiet ⟨hCounted.pbc, hCounted.sigma, hCounted.mine⟩
  · cases hStep

/- A share says nothing about values. -/
theorem CheckedStep.sendShare
    (hOk : LoopChecked cfg id log l (m.loops l))
    (hStep : sendShare cfg id m l = some e) :
    CheckedStep cfg id log m l e.mvba e.sent := by
  unfold SpeedingMVBA.sendShare at hStep
  dsimp only at hStep
  split at hStep
  · split at hStep
    · cases hStep
      exact .quiet ⟨hOk.pbc, hOk.sigma, hOk.mine⟩
    · cases hStep
      exact .post ⟨hOk.pbc, hOk.sigma, hOk.mine⟩ trivial
  · cases hStep

/- Counting a share signs no value. -/
theorem CheckedStep.countShare
    {share : Signature} {ss : BatchSignature}
    {certs : List Cert}
    (hOk : LoopChecked cfg id log l (m.loops l))
    (hStep : countShare cfg m l share ss certs = some e) :
    CheckedStep cfg id log m l e.mvba e.sent := by
  unfold SpeedingMVBA.countShare at hStep
  dsimp only at hStep
  split at hStep
  · rcases Option.map_eq_some_iff.mp hStep with
      ⟨batch, _, rfl⟩
    exact .quiet ⟨hOk.pbc, hOk.sigma, hOk.mine⟩
  · cases hStep
    exact .quiet ⟨hOk.pbc, hOk.sigma, hOk.mine⟩

/- Nor does reading one. -/
theorem CheckedStep.handleShare
    (hOk : LoopChecked cfg id log l (m.loops l))
    (hStep : handleShare cfg m l msg = some e) :
    CheckedStep cfg id log m l e.mvba e.sent := by
  unfold SpeedingMVBA.handleShare at hStep
  rcases Option.ite_none_right_eq_some.mp hStep with
    ⟨_, hStep⟩
  rcases Option.bind_eq_some_iff.mp hStep with
    ⟨cert, _, hStep⟩
  rcases Option.bind_eq_some_iff.mp hStep with
    ⟨share, _, hStep⟩
  exact .countShare hOk hStep

/- A change of the loop that comes before a step in it. -/
theorem CheckedStep.after
    {before : LoopInfo n} {m' : MVBA n}
    {sent : List (Packet n)}
    (hStep :
      CheckedStep cfg id log (m.setLoop l before) l m' sent) :
    CheckedStep cfg id log m l m' sent :=
  { hStep with
    loops := fun k hk =>
      (hStep.loops k hk).trans (setLoop_other hk) }

/- Nor does the own share. -/
theorem CheckedStep.handleShareMine
    (hOk : LoopChecked cfg id log l (m.loops l))
    (hStep : handleShareMine cfg m l = some e) :
    CheckedStep cfg id log m l e.mvba e.sent := by
  unfold SpeedingMVBA.handleShareMine at hStep
  dsimp only at hStep
  rcases Option.ite_none_right_eq_some.mp hStep with
    ⟨_, hStep⟩
  rcases Option.bind_eq_some_iff.mp hStep with
    ⟨msg, _, hStep⟩
  rcases Option.bind_eq_some_iff.mp hStep with
    ⟨share, _, hStep⟩
  rcases Option.bind_eq_some_iff.mp hStep with
    ⟨ss, _, hStep⟩
  refine (CheckedStep.countShare ?_ hStep).after
  rw [setLoop_same]
  exact ⟨hOk.pbc, hOk.sigma, hOk.mine⟩

/- Storing the coin signs no value. -/
theorem CheckedStep.storeCoin
    (hOk : LoopChecked cfg id log l (m.loops l))
    (hStep : storeCoin cfg m l = some e) :
    CheckedStep cfg id log m l e.mvba e.sent := by
  unfold SpeedingMVBA.storeCoin at hStep
  dsimp only at hStep
  rcases Option.ite_none_right_eq_some.mp hStep with
    ⟨_, hEq⟩
  cases hEq
  exact
    .stay rfl rfl ⟨hOk.pbc, hOk.sigma, hOk.mine⟩
      (List.forall_mem_nil _)

end Shares

end Agreement

end SpeedingMVBA

end Jumbo

------------------------------------------------------------
-- Votes
------------------------------------------------------------

namespace Jumbo

namespace SpeedingMVBA

namespace Agreement

open Crypto (Bytes)
open Protocol
open Struct

variable {n : Nat}

section Vote

variable {cfg : Config n} {id : Fin n} {log : Log n}
variable {m : MVBA n} {l : Nat} {li : LoopInfo n}
variable {e : Effect n} {msg : Msg}

/- The phase after the coin does not matter. -/
theorem LoopChecked.setFinish
    (hOk : LoopChecked cfg id log l li)
    (finish : Finish n) :
    LoopChecked cfg id log l { li with finish := finish } :=
  ⟨hOk.pbc, hOk.sigma, hOk.mine⟩

/- The halt is with a value that has a proof. -/
theorem CheckedStep.haltWith
    (hOk : LoopChecked cfg id log l li)
    (coin : Fin n) (ss : BatchSignature)
    (accepted assembled : List Cert) :
    let e := haltWith cfg id m l li coin ss accepted assembled
    CheckedStep cfg id log m l e.mvba e.sent := by
  unfold SpeedingMVBA.haltWith
  dsimp only
  split
  · exact .quiet (hOk.setFinish .done)
  · exact
      .stay rfl rfl (hOk.setFinish .done)
        (List.forall_mem_singleton.mpr trivial)

/- The coin ends the loop or starts the prevotes. -/
theorem CheckedStep.handleCoin
    (hN : 2 ≤ n)
    (hLoop : LoopOk cfg id log l (m.loops l))
    (hOk : LoopChecked cfg id log l (m.loops l))
    (hStep : handleCoin cfg id m l = some e) :
    CheckedStep cfg id log m l e.mvba e.sent := by
  have hPos : 0 < maxCount n := by
    unfold maxCount
    omega
  unfold SpeedingMVBA.handleCoin at hStep
  dsimp only at hStep
  split at hStep
  · rename_i coin _ hReady
    rcases hLoop.coin coin hReady with ⟨rfl, _⟩
    have hTaken :
        LoopChecked cfg id log l
          { m.loops l with coinReady := none } :=
      ⟨hOk.pbc, hOk.sigma, hOk.mine⟩
    split at hStep
    · cases hStep
      exact .haltWith hTaken _ _ _ _
    · split at hStep
      · cases hStep
        exact .quiet (hTaken.setFinish .done)
      · cases hStep
        refine .post (hTaken.setFinish _) ?_
        by_cases hFlag :
            maxCount n ≤
              ((m.loops l).sigmas (cfg.coin l)).mems.length
        · simp only [hFlag, decide_true, if_true]
          exact
            hOk.sigma (cfg.coin l)
              (Nat.lt_of_lt_of_le hPos hFlag)
        · simp only [hFlag, decide_false, Bool.false_eq_true,
            if_false]
          trivial
  · cases hStep

/- A vote for the leader is of a party that knows. -/
theorem CheckedStep.castVote
    (hOk : LoopChecked cfg id log l li)
    {yesFlag : Bool} {noCombins : List Signature}
    {accepted : List Cert}
    (hYes :
      yesFlag = true → Checked cfg log l (cfg.coin l))
    (hStep :
      castVote cfg id m l li (cfg.coin l) yesFlag noCombins
        accepted = some e) :
    CheckedStep cfg id log m l e.mvba e.sent := by
  unfold SpeedingMVBA.castVote at hStep
  dsimp only at hStep
  split at hStep
  · rename_i hFlag
    cases hStep
    split
    · exact .quiet (hOk.setFinish .done)
    · exact .post (hOk.setFinish _) (hYes hFlag)
  · rcases Option.map_eq_some_iff.mp hStep with
      ⟨batch, _, hEq⟩
    cases hEq
    split
    · exact .quiet (hOk.setFinish .done)
    · exact .post (hOk.setFinish _) trivial

/- A vote for the coin needs a checked value. -/
theorem CheckedStep.countPrev
    (hOk : LoopChecked cfg id log l li)
    {yesFlag : Bool} {noCombins : List Signature}
    {prevCount : Nat} {accepted : List Cert}
    (hYes :
      yesFlag = true → Checked cfg log l (cfg.coin l))
    (hStep :
      countPrev cfg id m l li (cfg.coin l) yesFlag noCombins
        prevCount accepted = some e) :
    CheckedStep cfg id log m l e.mvba e.sent := by
  unfold SpeedingMVBA.countPrev at hStep
  split at hStep
  · exact .castVote hOk hYes hStep
  · cases hStep
    exact .quiet (hOk.setFinish _)

/- What a party waits with, as it has told. -/
theorem checked_of_prev
    (hLoop : LoopOk cfg id log l (m.loops l))
    (hOk : LoopChecked cfg id log l (m.loops l))
    {coin : Fin n} {yesFlag : Bool}
    {noCombins : List Signature} {prevCount : Nat}
    (hFinish :
      (m.loops l).finish =
        .prev coin yesFlag noCombins prevCount) :
    coin = cfg.coin l ∧
      (yesFlag = true → Checked cfg log l (cfg.coin l)) := by
  have hPrev := hLoop.finish
  rw [hFinish] at hPrev
  rcases hPrev with ⟨rfl, hYes, _⟩
  refine ⟨rfl, fun hFlag => hOk.sigma _ ?_⟩
  exact Nat.lt_of_le_of_lt (Nat.zero_le _) (hYes hFlag)

/- Reading a prevote keeps the loop checked. -/
theorem CheckedStep.handlePrevYes
    (hLoop : LoopOk cfg id log l (m.loops l))
    (hOk : LoopChecked cfg id log l (m.loops l))
    (hChecked : Checked cfg log l (cfg.coin l))
    (hStep : handlePrevYes cfg id m l msg = some e) :
    CheckedStep cfg id log m l e.mvba e.sent := by
  unfold SpeedingMVBA.handlePrevYes at hStep
  dsimp only at hStep
  split at hStep
  · rename_i coin yesFlag noCombins prevCount hFinish
    rcases checked_of_prev hLoop hOk hFinish with ⟨rfl, _⟩
    split at hStep
    · exact .countPrev hOk (fun _ => hChecked) hStep
    · rcases Option.bind_eq_some_iff.mp hStep with
        ⟨batch, _, hStep⟩
      rcases Option.bind_eq_some_iff.mp hStep with
        ⟨res, _, hStep⟩
      split at hStep
      · refine .countPrev ?_ (fun _ => hChecked) hStep
        have hSet := hOk.setSigma (batch) hChecked
        exact ⟨hSet.pbc, hSet.sigma, hSet.mine⟩
      · exact .countPrev hOk (fun _ => hChecked) hStep
  · cases hStep

/- So does a prevote against the coin. -/
theorem CheckedStep.handlePrevNo
    (hLoop : LoopOk cfg id log l (m.loops l))
    (hOk : LoopChecked cfg id log l (m.loops l))
    (hStep : handlePrevNo cfg id m l msg = some e) :
    CheckedStep cfg id log m l e.mvba e.sent := by
  unfold SpeedingMVBA.handlePrevNo at hStep
  dsimp only at hStep
  split at hStep
  · rename_i coin yesFlag noCombins prevCount hFinish
    rcases checked_of_prev hLoop hOk hFinish with
      ⟨rfl, hYes⟩
    split at hStep
    · rename_i hFlag
      exact .countPrev hOk (fun _ => hYes hFlag) hStep
    · rcases Option.bind_eq_some_iff.mp hStep with
        ⟨got, _, hStep⟩
      exact .countPrev hOk (fun h => by cases h) hStep
  · cases hStep

/- Leaving a loop signs nothing. -/
theorem CheckedStep.nextLoop
    (hOk : LoopChecked cfg id log l li)
    (proofs : List (OldProof n)) (input : Bytes)
    (accepted assembled : List Cert) :
    let e :=
      nextLoop cfg id m l li proofs input accepted assembled
    CheckedStep cfg id log m l e.mvba e.sent := by
  unfold SpeedingMVBA.nextLoop
  dsimp only
  split
  · exact
      .stay rfl rfl (hOk.setFinish .done)
        (List.forall_mem_singleton.mpr trivial)
  · exact
      .stay rfl rfl ⟨hOk.pbc, hOk.sigma, hOk.mine⟩
        (List.forall_mem_singleton.mpr trivial)

/- Counting votes signs nothing. -/
theorem CheckedStep.countVotes
    (hOk : LoopChecked cfg id log l li)
    {coin : Fin n} {yes no : List Signature} {values : Bytes}
    {accepted : List Cert}
    (hStep :
      countVotes cfg id m l li coin yes no values accepted =
        some e) :
    CheckedStep cfg id log m l e.mvba e.sent := by
  unfold SpeedingMVBA.countVotes at hStep
  dsimp only at hStep
  split at hStep
  · split at hStep
    · split at hStep
      · cases hStep
        exact .haltWith hOk _ _ _ _
      · rcases Option.map_eq_some_iff.mp hStep with
          ⟨batch, _, rfl⟩
        exact .haltWith hOk _ _ _ _
    · split at hStep
      · rcases Option.map_eq_some_iff.mp hStep with
          ⟨batch, _, rfl⟩
        exact .nextLoop hOk _ _ _ _
      · cases hStep
        exact .nextLoop hOk _ _ _ _
  · cases hStep
    exact .quiet (hOk.setFinish _)

/- Reading a vote keeps the loop checked. -/
theorem CheckedStep.handleVoteYes
    (hLoop : LoopOk cfg id log l (m.loops l))
    (hOk : LoopChecked cfg id log l (m.loops l))
    (hChecked : Checked cfg log l (cfg.coin l))
    (hStep : handleVoteYes cfg id m l msg = some e) :
    CheckedStep cfg id log m l e.mvba e.sent := by
  unfold SpeedingMVBA.handleVoteYes at hStep
  dsimp only at hStep
  split at hStep
  · rename_i coin yes no hFinish
    have hVote := hLoop.finish
    rw [hFinish] at hVote
    rcases hVote with ⟨rfl, _⟩
    rcases Option.bind_eq_some_iff.mp hStep with
      ⟨cert, _, hStep⟩
    rcases Option.bind_eq_some_iff.mp hStep with
      ⟨got, _, hStep⟩
    refine .countVotes ?_ hStep
    have hSet := hOk.setSigma (cert.2) hChecked
    exact ⟨hSet.pbc, hSet.sigma, hSet.mine⟩
  · cases hStep

/- So does a vote against the coin. -/
theorem CheckedStep.handleVoteNo
    (hOk : LoopChecked cfg id log l (m.loops l))
    (hStep : handleVoteNo cfg id m l msg = some e) :
    CheckedStep cfg id log m l e.mvba e.sent := by
  unfold SpeedingMVBA.handleVoteNo at hStep
  dsimp only at hStep
  split at hStep
  · rcases Option.bind_eq_some_iff.mp hStep with
      ⟨cert, _, hStep⟩
    rcases Option.bind_eq_some_iff.mp hStep with
      ⟨got, _, hStep⟩
    exact .countVotes hOk hStep
  · cases hStep

end Vote

end Agreement

end SpeedingMVBA

end Jumbo

------------------------------------------------------------
-- The Network
------------------------------------------------------------

namespace Jumbo

namespace SpeedingMVBA

namespace Agreement

open Crypto (Bytes)
open Protocol
open Struct

variable {n : Nat}

/- All loops of a party are checked. -/
def PartyChecked
    (cfg : Config n) (id : Fin n) (log : Log n)
    (m : MVBA n) : Prop :=
  ∀ l < m.started, LoopChecked cfg id log l (m.loops l)

/-
  All that was sent is vouched for, and all parties have
  checked what they signed.
-/
structure NetChecked (cfg : Config n) (s : Net n) : Prop where
  log : ∀ packet ∈ s.log.sent, Vouched cfg s.log packet
  party : ∀ id, PartyChecked cfg id s.log (s.party id)

section Party

variable {cfg : Config n} {id : Fin n} {log : Log n}
variable {m : MVBA n} {l : Nat} {e : Effect n}
variable {packet : Packet n}

/- What a step leaves and sends. -/
def StepChecked
    (cfg : Config n) (id : Fin n) (log : Log n)
    (e : Effect n) : Prop :=
  PartyChecked cfg id log e.mvba ∧
    ∀ packet ∈ e.sent, Vouched cfg log packet

/- A step in one loop leaves the others as they are. -/
theorem CheckedStep.checked
    (hOk : PartyChecked cfg id log m)
    (hStep : CheckedStep cfg id log m l e.mvba e.sent) :
    StepChecked cfg id log e := by
  refine ⟨fun k hk => ?_, hStep.sent⟩
  rw [hStep.started] at hk
  by_cases hEq : k = l
  · subst hEq
    exact hStep.ok
  · rw [hStep.loops k hEq]
    exact hOk k hk

/- A message of a loop, by its type. -/
theorem CheckedStep.receiveLoop
    (hSent : SentOk cfg log packet)
    (hVouched : Vouched cfg log packet)
    (hMem : packet ∈ log.sent)
    (hDest : packet.dest id = true)
    (hLoop :
      LoopOk cfg id log packet.msg.rawMsg.loop
        (m.loops packet.msg.rawMsg.loop))
    (hOk :
      LoopChecked cfg id log packet.msg.rawMsg.loop
        (m.loops packet.msg.rawMsg.loop))
    (hStep : receiveLoop cfg id m packet.msg = some e) :
    CheckedStep cfg id log m packet.msg.rawMsg.loop e.mvba
      e.sent := by
  unfold SentOk at hSent
  unfold Vouched at hVouched
  unfold SpeedingMVBA.receiveLoop at hStep
  dsimp only at hSent hVouched hStep
  cases hType : packet.msg.rawMsg.type <;>
    rw [hType] at hSent hVouched hStep <;>
    dsimp only at hSent hVouched hStep
  case pbc1 =>
    rcases Option.bind_eq_some_iff.mp hStep with
      ⟨leader, hIndex, hStep⟩
    have hEq := eq_of_index (of_decide_eq_true hSent.1) hIndex
    refine .handlePBC1 hOk ?_ hStep
    exact
      ⟨packet, hMem, isKind_iff.mpr ⟨hType, rfl⟩, hEq.symm,
        rfl⟩
  case pbc2 =>
    exact .handleMinePBC2 hOk (hVouched id (.inl hDest)) hStep
  case pbc3 =>
    rcases Option.bind_eq_some_iff.mp hStep with
      ⟨leader, _, hStep⟩
    exact .handlePBC3 hOk hStep
  case pbc4 => exact .handleMinePBC4 hOk hStep
  case pi => exact .handlePi hOk hStep
  case share => exact .handleShare hOk hStep
  case prevYes =>
    exact .handlePrevYes hLoop hOk hVouched hStep
  case prevNo => exact .handlePrevNo hLoop hOk hStep
  case voteYes =>
    exact .handleVoteYes hLoop hOk hVouched hStep
  case voteNo => exact .handleVoteNo hOk hStep
  case halt => cases hStep

/-
  Reading a message that is vouched for keeps the party
  checked.
-/
theorem checked_receive
    (hSent : SentOk cfg log packet)
    (hVouched : Vouched cfg log packet)
    (hMem : packet ∈ log.sent)
    (hDest : packet.dest id = true)
    (hParty : PartyOk cfg id log m)
    (hOk : PartyChecked cfg id log m)
    (hStep : step cfg id m (.receive packet.msg) = some e) :
    StepChecked cfg id log e := by
  unfold SpeedingMVBA.step at hStep
  rcases Option.ite_none_left_eq_some.mp hStep with
    ⟨_, hStep⟩
  change SpeedingMVBA.receive cfg id m packet.msg = some e
    at hStep
  unfold SpeedingMVBA.receive at hStep
  rcases Option.ite_none_left_eq_some.mp hStep with
    ⟨_, hStep⟩
  split at hStep
  · unfold SpeedingMVBA.handleHalt at hStep
    rcases Option.ite_none_right_eq_some.mp hStep with
      ⟨_, hStep⟩
    rcases Option.map_eq_some_iff.mp hStep with
      ⟨cert2, _, hEq⟩
    cases hEq
    exact ⟨hOk, List.forall_mem_nil _⟩
  · rcases Option.ite_none_right_eq_some.mp hStep with
      ⟨hLt, hStep⟩
    exact
      (CheckedStep.receiveLoop hSent hVouched hMem hDest
        (hParty.loops _ hLt) (hOk _ hLt) hStep).checked hOk

/- A halt that is passed on vouches for nobody. -/
theorem checked_adoptHalt
    (hParty : PartyOk cfg id log m)
    (hOk : PartyChecked cfg id log m)
    (hStep : adoptHalt cfg id m = some e) :
    StepChecked cfg id log e := by
  unfold SpeedingMVBA.adoptHalt at hStep
  split at hStep
  · rename_i msg hStored
    have hType := (hParty.halt msg hStored).1
    rcases Option.ite_none_right_eq_some.mp hStep with
      ⟨_, hStep⟩
    rcases Option.map_eq_some_iff.mp hStep with
      ⟨cert, _, hEq⟩
    split at hEq
    · cases hEq
      exact ⟨hOk, List.forall_mem_nil _⟩
    · cases hEq
      refine ⟨hOk, List.forall_mem_singleton.mpr ?_⟩
      unfold Vouched
      simp only [broadcast, hType]
  · cases hStep

/- A step of a party on its own. -/
theorem checked_act
    (hN : 2 ≤ n) (hParty : PartyOk cfg id log m)
    (hOk : PartyChecked cfg id log m) {a : PartyAction n}
    (hInternal : a.internal = true)
    (hStep : step cfg id m a = some e) :
    StepChecked cfg id log e := by
  have hInLoop :
      ∀ (l : Nat) (effect : Option (Effect n)),
        inLoop m l effect = some e →
          (LoopOk cfg id log l (m.loops l) →
            LoopChecked cfg id log l (m.loops l) →
              effect = some e →
                CheckedStep cfg id log m l e.mvba e.sent) →
            StepChecked cfg id log e := by
    intro l effect hIn hLoopStep
    rcases Option.ite_none_right_eq_some.mp hIn with
      ⟨hLt, hEffect⟩
    exact
      (hLoopStep (hParty.loops l hLt) (hOk l hLt)
        hEffect).checked hOk
  unfold SpeedingMVBA.step at hStep
  rcases Option.ite_none_left_eq_some.mp hStep with
    ⟨_, hStep⟩
  cases a with
  | launch input =>
      change SpeedingMVBA.launch cfg id m input = some e
        at hStep
      unfold SpeedingMVBA.launch at hStep
      rcases Option.ite_none_right_eq_some.mp hStep with
        ⟨_, hEq⟩
      cases hEq
      refine ⟨?_, List.forall_mem_singleton.mpr trivial⟩
      intro k hk
      have hZero : k = 0 := Nat.lt_one_iff.mp hk
      subst hZero
      simp only [MVBA.setLoop, Function.update_self]
      exact loopChecked_new
  | startLoop =>
      change SpeedingMVBA.startLoop cfg id m = some e at hStep
      unfold SpeedingMVBA.startLoop at hStep
      rcases Option.ite_none_right_eq_some.mp hStep with
        ⟨_, hEq⟩
      cases hEq
      refine ⟨?_, List.forall_mem_nil _⟩
      intro k hk
      dsimp only at hk ⊢
      rcases Nat.lt_succ_iff_lt_or_eq.mp hk with hOld | rfl
      · rw [setLoop_other (Nat.ne_of_lt hOld)]
        exact hOk k hOld
      · rw [setLoop_same]
        exact loopChecked_new
  | receive msg => cases hInternal
  | sendPBC2 l leader =>
      exact hInLoop l _ hStep fun _ h => .sendPBC2 h
  | sendPBC4 l leader =>
      exact hInLoop l _ hStep fun _ h => .sendPBC4 h
  | returnPBC l leader =>
      exact hInLoop l _ hStep fun _ h => .returnPBC h
  | sendPBC3 l =>
      exact hInLoop l _ hStep fun _ h => .sendPBC3 h
  | returnMinePBC l =>
      exact hInLoop l _ hStep fun _ h => .returnMinePBC h
  | sendShare l =>
      exact hInLoop l _ hStep fun _ h => .sendShare h
  | shareMine l =>
      exact hInLoop l _ hStep fun _ h => .handleShareMine h
  | storeCoin l =>
      exact hInLoop l _ hStep fun _ h => .storeCoin h
  | coin l =>
      exact hInLoop l _ hStep fun hLoop h =>
        .handleCoin hN hLoop h
  | adoptHalt => exact checked_adoptHalt hParty hOk hStep
  | returnAll =>
      rcases Option.ite_none_right_eq_some.mp hStep with
        ⟨_, hEq⟩
      cases hEq
      exact ⟨hOk, List.forall_mem_nil _⟩

end Party

end Agreement

end SpeedingMVBA

end Jumbo

------------------------------------------------------------
-- Runs
------------------------------------------------------------

namespace Jumbo

namespace SpeedingMVBA

namespace Agreement

open Crypto (Bytes)
open Protocol
open Struct

variable {n : Nat}

section Net

variable {cfg : Config n} {s s' : Net n} {id : Fin n}
variable {log : Log n} {e : Effect n}

/- More messages keep a party checked. -/
theorem PartyChecked.mono
    {log' : Log n} {m : MVBA n}
    (hOk : PartyChecked cfg id log m)
    (hSub : log.sent ⊆ log'.sent) :
    PartyChecked cfg id log' m :=
  fun l hl => (hOk l hl).mono hSub

/- A step of a party that has handled what `log` says. -/
theorem NetChecked.apply
    (hNet : NetChecked cfg s)
    (hSame : log.sent = s.log.sent)
    (hStep : StepChecked cfg id log e) :
    NetChecked cfg (s.apply id log e) := by
  have hSub : log.sent ⊆ (posted log id e.sent).sent :=
    sent_posted id e.sent
  have hOld : s.log.sent ⊆ (posted log id e.sent).sent := by
    rw [← hSame]
    exact hSub
  constructor
  · intro packet hMem
    change packet ∈ (posted log id e.sent).sent at hMem
    rw [BroadcastLog.postAll_sent, hSame] at hMem
    rcases List.mem_append.mp hMem with hBefore | hNew
    · exact (hNet.log packet hBefore).mono hOld
    · exact (hStep.2 packet hNew).mono hSub
  · intro q
    change
      PartyChecked cfg q (posted log id e.sent)
        (Function.update s.party id e.mvba q)
    by_cases hEq : q = id
    · subst hEq
      rw [Function.update_self]
      exact hStep.1.mono hSub
    · rw [Function.update_of_ne hEq]
      exact (hNet.party q).mono hOld

/- Moving a message changes nothing. -/
theorem NetChecked.moved
    (hNet : NetChecked cfg s) {i : Nat} {loc : Loc} :
    NetChecked cfg { s with log := s.log.move id i loc } where
  log := fun packet hMem =>
    (hNet.log packet hMem).mono (List.Subset.refl _)
  party := fun q =>
    (hNet.party q).mono (List.Subset.refl _)

/- Every step of the network keeps all checked. -/
theorem NetChecked.exec
    (hN : 2 ≤ n) (hOk : NetOk cfg s)
    (hNet : NetChecked cfg s) {a : NetAction n}
    (hExec : Net.exec cfg s a = some s') :
    NetChecked cfg s' := by
  cases netStep_of_exec hExec with
  | @act id a e hAlive hInternal hStep =>
      exact
        hNet.apply rfl
          (checked_act hN (hOk.party id) (hNet.party id)
            hInternal hStep)
  | @receive id i packet e hAlive hAt hDest hLoc hStep =>
      have hMem := List.mem_of_getElem? hAt
      have hChecked : StepChecked cfg id s.log e :=
        checked_receive (hOk.log.sent packet hMem)
          (hNet.log packet hMem) hMem hDest (hOk.party id)
          (hNet.party id) hStep
      refine hNet.apply rfl ⟨hChecked.1.mono ?_, ?_⟩
      · exact List.Subset.refl _
      · exact fun packet hSent =>
          (hChecked.2 packet hSent).mono (List.Subset.refl _)
  | transmit hAt hDest hLoc hAlive => exact hNet.moved
  | drop hAt hDest hLoc hType hLeft => exact hNet.moved
  | crash hAlive => exact ⟨hNet.log, hNet.party⟩

/- A message that has been sent stays in the log. -/
theorem sent_exec
    {a : NetAction n}
    (hExec : Net.exec cfg s a = some s') :
    s.log.sent ⊆ s'.log.sent := by
  cases netStep_of_exec hExec with
  | @act id a e hAlive hInternal hStep =>
      exact sent_posted id e.sent
  | @receive id i packet e hAlive hAt hDest hLoc hStep =>
      have hSub :
          (s.log.move id i .handled).sent ⊆
            (posted (s.log.move id i .handled) id
              e.sent).sent :=
        sent_posted id e.sent
      exact hSub
  | transmit hAt hDest hLoc hAlive =>
      exact List.Subset.refl _
  | drop hAt hDest hLoc hType hLeft =>
      exact List.Subset.refl _
  | crash hAlive => exact List.Subset.refl _

/- It holds in every run. -/
theorem reachable_netChecked
    (hN : 2 ≤ n) (hReach : (network cfg).Reachable s) :
    NetChecked cfg s := by
  refine hReach.invariant (NetChecked cfg) ?_ ?_
  · exact
      ⟨List.forall_mem_nil _,
        fun _ l hl => absurd hl (Nat.not_lt_zero l)⟩
  · exact fun _ _ _ hBefore hNet hExec =>
      hNet.exec hN (reachable_netOk hN hBefore) hExec

/- In a settled loop the input of the leader is checked. -/
theorem NetChecked.settled
    (hOk : NetOk cfg s) (hNet : NetChecked cfg s) {l : Nat}
    (hSettled : Settled cfg s.log l) :
    Checked cfg s.log l (cfg.coin l) := by
  have hSome :
      ∀ {P : Packet n → Bool}, Quorum s.log P →
        ∃ packet ∈ s.log.sent, P packet = true := by
    intro P hQuorum
    have hPos : 0 < (s.log.senders Packet.src P).card :=
      Nat.lt_of_le_of_lt (Nat.zero_le _) hQuorum
    rcases Finset.card_pos.mp hPos with ⟨q, hq⟩
    rcases (BroadcastLog.mem_senders_iff _ _ _ _).mp hq with
      ⟨packet, hMem, hP, _⟩
    exact ⟨packet, hMem, hP⟩
  rcases hSettled with hReleased | hYes
  · rcases hSome hReleased with ⟨packet, hMem, hRelease⟩
    have hVouched := hNet.log packet hMem
    have hSent := hOk.log.sent packet hMem
    unfold Vouched at hVouched
    unfold SentOk at hSent
    dsimp only at hVouched hSent
    rcases Bool.or_eq_true_iff.mp hRelease with hShare | hOwn
    · rcases Bool.and_eq_true_iff.mp hShare with
        ⟨hKind, hNames⟩
      rcases isKind_iff.mp hKind with ⟨hType, rfl⟩
      rw [hType] at hVouched
      exact hVouched _ (.inr hNames)
    · rcases Bool.and_eq_true_iff.mp hOwn with
        ⟨hKind, hNames⟩
      rcases isKind_iff.mp hKind with ⟨hType, rfl⟩
      rw [hType] at hVouched hSent
      have hSame :=
        (of_decide_eq_true hSent.1).symm.trans
          (of_decide_eq_true hNames)
      rw [← id_inj hSame]
      exact hVouched
  · rcases hSome hYes with ⟨packet, hMem, hKind⟩
    rcases isKind_iff.mp hKind with ⟨hType, rfl⟩
    have hVouched := hNet.log packet hMem
    unfold Vouched at hVouched
    dsimp only at hVouched
    rw [hType] at hVouched
    exact hVouched

/- What may be output has passed the check. -/
theorem NetChecked.halt
    (hNet : NetChecked cfg s) (hOk : NetOk cfg s)
    {msg : Msg} (hHalt : HaltOk cfg s.log msg) :
    cfg.checkInput msg.rawMsg.values = true := by
  rcases hHalt with ⟨hInput, hSettled⟩
  rcases hNet.settled hOk hSettled with
    ⟨values, hChecked, hCheck⟩
  have hSame : msg.rawMsg.values = values :=
    hOk.log.sound.functional hInput hChecked
  rw [hSame]
  exact hCheck

/-
  External validity: what a party outputs has passed the
  check of inputs.
-/
theorem halts_checked
    (hN : 2 ≤ n) (hReach : (network cfg).Reachable s)
    {p : Fin n} {msg : Msg}
    (hOut : msg ∈ (s.party p).outputs) :
    cfg.checkInput msg.rawMsg.values = true := by
  have hOk := reachable_netOk hN hReach
  exact
    (reachable_netChecked hN hReach).halt hOk
      (hOk.decided hOut)

end Net

/- The same votes, with a check that not all inputs pass. -/
def strictConfig : Config 4 where
  pos := four_voters
  prim := paddedConfig.prim
  type := paddedConfig.type
  sign := paddedConfig.sign
  sha := paddedConfig.sha
  marshal := paddedConfig.marshal
  round := paddedConfig.round
  mvbaRound := paddedConfig.mvbaRound
  rbc := paddedConfig.rbc
  checkInput := fun values => decide (values.length = 1)

/- Four parties whose validator accepts some inputs only. -/
def strictNet : Net 4 :=
  (network strictConfig).drive (fun _ _ => true)
    (network strictConfig).init splitVotes

/- Party 0 has put out in the first loop. -/
theorem strictNet_output :
    ∃ msg, (strictNet.party 0).outputs[0]? = some msg ∧
      msg.rawMsg.loop = 0 := by
  decide +kernel

/- It is a run of the network. -/
theorem strictNet_reachable :
    (network strictConfig).Reachable strictNet :=
  Machine.reachable_drive _ splitVotes

/- The value it put out passes the validator. -/
theorem halts_checked_split :
    ∃ msg ∈ (strictNet.party 0).outputs,
      strictConfig.checkInput msg.rawMsg.values = true := by
  rcases strictNet_output with ⟨msg, hOut, _⟩
  have hMem := List.mem_of_getElem? hOut
  exact
    ⟨msg, hMem,
      halts_checked (by decide) strictNet_reachable hMem⟩

end Agreement

end SpeedingMVBA

end Jumbo
