import Jumbo.SpeedingMVBA.Goroutines
import Jumbo.SpeedingMVBA.Proofs

/-
  What a party says about its own input in a loop.

  Whatever its goroutines do, a party sends its combined
  signature and its batch of shares for one hash, and both
  have enough members.

  Main declarations:
    * `Apart`
    * `receive_cases`
    * `LeaderOk`
    * `LeaderOk.step`
-/

------------------------------------------------------------
-- The Own Broadcast
------------------------------------------------------------

namespace Jumbo

namespace SpeedingMVBA

namespace Goroutines

open Crypto (Bytes)
open Protocol
open Struct

variable {n : Nat}

/- Nothing is sent, or one message that meets `quiet`. -/
def Posts
    (quiet : Msg → Prop) (s s' : Loop n) : Prop :=
  s'.sent = s.sent ∨
    ∃ packet, s'.sent = s.sent ++ [packet] ∧ quiet packet.msg

section Leader

variable (cfg : Config n) (l : Nat) (c : Fin n)

/- Shares on a hash, each of which has been checked. -/
def Checked (hash : Bytes) (signs : List Signature) : Prop :=
  ∀ got ∈ signs,
    verifySign cfg (cfg.marshal (cfg.rawMsg .pbc4 c hash l))
      got = some true

/- A batch of such shares and the own one. -/
def Assembled (hash : Bytes) (batch : BatchSignature) : Prop :=
  let bytes := cfg.marshal (cfg.rawMsg .pbc4 c hash l)
  ∃ signs, Checked cfg l c hash signs ∧
    batchSign cfg bytes (signs ++ [sign cfg c bytes]) =
      some batch

/- The combined signature on its way into a PBC3. -/
def MineAt.cert : MineAt → Option BatchSignature
| .store batch | .check3 batch | .send3 batch => some batch
| _ => none

/- The batch of shares on its way into a Pi. -/
def MineAt.piCert : MineAt → Option BatchSignature
| .ok batch | .count batch | .test batch => some batch
| .push batch _ | .close batch | .pi batch => some batch
| .check5 batch _ | .send5 batch _ => some batch
| _ => none

/- The own broadcast goes on with the certificates it has. -/
structure Advances (mine mine' : MineAt) : Prop where
  started : mine' ≠ .start
  signs : ∀ signs, mine' ≠ .wait4 signs
  cert : ∀ batch, mine'.cert = some batch → mine.cert = some batch
  piCert :
    ∀ batch, mine'.piCert = some batch →
      mine.piCert = some batch

/- Messages that do not speak for the own input. -/
def NotOwn (msg : Msg) : Prop :=
  msg.rawMsg.type ≠ .pbc3 ∧ msg.rawMsg.type ≠ .pi ∧
    (msg.rawMsg.type = .pbc4 → msg.rawMsg.id ≠ c.val + 1)

/- What `c` says about its own input, it says of one hash. -/
structure LeaderOk (s : Loop n) : Prop where
  done : s.pbc c = .done
  signs :
    ∀ signs, s.mine = .wait4 signs →
      Checked cfg l c s.mineHash signs
  cert :
    ∀ batch, s.mine.cert = some batch →
      maxCount n ≤ batch.mems.length
  piCert :
    ∀ batch, s.mine.piCert = some batch →
      Assembled cfg l c s.mineHash batch
  fresh :
    s.mine = .start → ∀ packet ∈ s.sent,
      packet.msg.rawMsg.type ≠ .pbc3 ∧
        packet.msg.rawMsg.type ≠ .pi
  pbc3 :
    ∀ packet ∈ s.sent, packet.msg.rawMsg.type = .pbc3 →
      packet.msg.rawMsg.values = s.mineHash ∧
        ∃ batch, packet.msg.ss = some batch ∧
          maxCount n ≤ batch.mems.length
  pi :
    ∀ packet ∈ s.sent, packet.msg.rawMsg.type = .pi →
      ∃ batch, packet.msg.ss = some batch ∧
        Assembled cfg l c s.mineHash batch
  unshared :
    ∀ packet ∈ s.sent, packet.msg.rawMsg.type = .pbc4 →
      packet.msg.rawMsg.id ≠ c.val + 1

end Leader

/- A step that has nothing to do with the own broadcast. -/
structure Apart (c : Fin n) (s s' : Loop n) : Prop where
  mine : s'.mine = s.mine
  mineHash : s'.mineHash = s.mineHash
  pbc : s'.pbc c = s.pbc c
  posts : Posts (NotOwn c) s s'

section LeaderSteps

variable {cfg : Config n} {l : Nat} {c : Fin n}
variable {s s' : Loop n}

theorem leaderOk_new (input : Bytes) :
    LeaderOk cfg l c (Loop.new c input) where
  done := by
    unfold Loop.new
    dsimp only
    rw [Function.update_self]
  signs signs hMine := by cases hMine
  cert batch hCert := by cases hCert
  piCert batch hCert := by cases hCert
  fresh _ := List.forall_mem_nil _
  pbc3 := List.forall_mem_nil _
  pi := List.forall_mem_nil _
  unshared := List.forall_mem_nil _

/- A step that leaves the own broadcast alone. -/
theorem LeaderOk.frame
    (hOk : LeaderOk cfg l c s) (hApart : Apart c s s') :
    LeaderOk cfg l c s' := by
  rcases hApart with ⟨hMine, hHash, hPbc, hPosts⟩
  rcases hPosts with
    hSame | ⟨packet, hSent, hPbc3, hPi, hPbc4⟩
  · constructor
    · rw [hPbc]
      exact hOk.done
    · rw [hMine, hHash]
      exact hOk.signs
    · rw [hMine]
      exact hOk.cert
    · rw [hMine, hHash]
      exact hOk.piCert
    · rw [hMine, hSame]
      exact hOk.fresh
    · rw [hSame, hHash]
      exact hOk.pbc3
    · rw [hSame, hHash]
      exact hOk.pi
    · rw [hSame]
      exact hOk.unshared
  · constructor
    · rw [hPbc]
      exact hOk.done
    · rw [hMine, hHash]
      exact hOk.signs
    · rw [hMine]
      exact hOk.cert
    · rw [hMine, hHash]
      exact hOk.piCert
    · rw [hMine, hSent, List.forall_mem_append]
      exact fun hStart =>
        ⟨hOk.fresh hStart,
          List.forall_mem_singleton.mpr ⟨hPbc3, hPi⟩⟩
    · rw [hSent, hHash, List.forall_mem_append]
      exact
        ⟨hOk.pbc3, List.forall_mem_singleton.mpr fun hType =>
          absurd hType hPbc3⟩
    · rw [hSent, hHash, List.forall_mem_append]
      exact
        ⟨hOk.pi, List.forall_mem_singleton.mpr fun hType =>
          absurd hType hPi⟩
    · rw [hSent, List.forall_mem_append]
      exact
        ⟨hOk.unshared, List.forall_mem_singleton.mpr hPbc4⟩

/- The own broadcast goes on to another statement. -/
theorem LeaderOk.move
    {mine : MineAt}
    (hOk : LeaderOk cfg l c s)
    (hStart : mine ≠ .start)
    (hSigns :
      ∀ signs, mine = .wait4 signs →
        Checked cfg l c s.mineHash signs)
    (hCert :
      ∀ batch, mine.cert = some batch →
        maxCount n ≤ batch.mems.length)
    (hPiCert :
      ∀ batch, mine.piCert = some batch →
        Assembled cfg l c s.mineHash batch) :
    LeaderOk cfg l c { s with mine := mine } where
  done := hOk.done
  signs := hSigns
  cert := hCert
  piCert := hPiCert
  fresh hNew := absurd hNew hStart
  pbc3 := hOk.pbc3
  pi := hOk.pi
  unshared := hOk.unshared

/- It goes on with nothing new. -/
theorem LeaderOk.advance
    {mine : MineAt}
    (hOk : LeaderOk cfg l c s)
    (hAdvances : Advances s.mine mine) :
    LeaderOk cfg l c { s with mine := mine } :=
  hOk.move hAdvances.started
    (fun signs hMine => absurd hMine (hAdvances.signs signs))
    (fun batch hCert =>
      hOk.cert batch (hAdvances.cert batch hCert))
    fun batch hCert =>
      hOk.piCert batch (hAdvances.piCert batch hCert)

/- It may always end. -/
theorem advances_done (mine : MineAt) :
    Advances mine .done where
  started hNew := by cases hNew
  signs _ hMine := by cases hMine
  cert _ hSome := by cases hSome
  piCert _ hSome := by cases hSome

/- Or end where it is told to. -/
theorem advances_stop
    {mine mine' : MineAt} (stops : Bool)
    (hAdvances : Advances mine mine') :
    Advances mine (if stops then .done else mine') := by
  cases stops with
  | true => exact advances_done mine
  | false => exact hAdvances

/- The combined signature is sent with the own hash. -/
theorem LeaderOk.postPbc3
    (hOk : LeaderOk cfg l c s) (batch : BatchSignature)
    (hCert : s.mine.cert = some batch)
    (hStart : s.mine ≠ .start) :
    LeaderOk cfg l c
      (s.post
        (broadcast c
          { rawMsg := cfg.rawMsg .pbc3 c s.mineHash l
            ss := some batch })) where
  done := hOk.done
  signs := hOk.signs
  cert := hOk.cert
  piCert := hOk.piCert
  fresh hNew := absurd hNew hStart
  pbc3 :=
    List.forall_mem_append.mpr
      ⟨hOk.pbc3, List.forall_mem_singleton.mpr fun _ =>
        ⟨rfl, batch, rfl, hOk.cert batch hCert⟩⟩
  pi :=
    List.forall_mem_append.mpr
      ⟨hOk.pi, List.forall_mem_singleton.mpr fun hType => by
        cases hType⟩
  unshared :=
    List.forall_mem_append.mpr
      ⟨hOk.unshared, List.forall_mem_singleton.mpr fun hType =>
        by cases hType⟩

/- The proof is sent with the certificate. -/
theorem LeaderOk.postPi
    (hOk : LeaderOk cfg l c s) (batch : BatchSignature)
    (values : Bytes) (okSign : Signature)
    (hCert : s.mine.piCert = some batch)
    (hStart : s.mine ≠ .start) :
    LeaderOk cfg l c
      (s.post
        (broadcast c
          { rawMsg := cfg.rawMsg .pi c values l
            sign := some okSign
            ss := some batch })) where
  done := hOk.done
  signs := hOk.signs
  cert := hOk.cert
  piCert := hOk.piCert
  fresh hNew := absurd hNew hStart
  pbc3 :=
    List.forall_mem_append.mpr
      ⟨hOk.pbc3, List.forall_mem_singleton.mpr fun hType => by
        cases hType⟩
  pi :=
    List.forall_mem_append.mpr
      ⟨hOk.pi, List.forall_mem_singleton.mpr fun _ =>
        ⟨batch, rfl, hOk.piCert batch hCert⟩⟩
  unshared :=
    List.forall_mem_append.mpr
      ⟨hOk.unshared, List.forall_mem_singleton.mpr fun hType =>
        by cases hType⟩

/- A certificate has as many members as signatures. -/
theorem length_batchSign
    {bytes : Bytes} {signs : List Signature}
    {batch : BatchSignature}
    (hBatch : batchSign cfg bytes signs = some batch) :
    batch.mems.length = signs.length := by
  unfold batchSign at hBatch
  rcases Option.map_eq_some_iff.mp hBatch with ⟨_, _, rfl⟩
  exact List.length_map _

/- Every statement of the own broadcast keeps the invariant. -/
theorem LeaderOk.mineStep
    (hOk : LeaderOk cfg l c s)
    (hStep : mineStep cfg l c s = some s') :
    LeaderOk cfg l c s' := by
  unfold Goroutines.mineStep at hStep
  dsimp only at hStep
  split at hStep
  · rename_i hMine
    have hFresh := hOk.fresh hMine
    cases hStep
    exact
      { done := hOk.done
        signs := fun signs hMine => by cases hMine
        cert := fun batch hCert => by cases hCert
        piCert := fun batch hCert => by cases hCert
        fresh := fun hNew => by cases hNew
        pbc3 := fun packet hMem hType =>
          absurd hType (hFresh packet hMem).1
        pi := fun packet hMem hType =>
          absurd hType (hFresh packet hMem).2
        unshared := hOk.unshared }
  · rename_i batch hMine
    cases hStep
    have hAdvances : Advances s.mine (.check3 batch) := by
      rw [hMine]
      exact ⟨(by simp), (by simp), fun _ h => h, fun _ h => h⟩
    exact (hOk.advance hAdvances).frame ⟨rfl, rfl, rfl, .inl rfl⟩
  · rename_i batch hMine
    cases hStep
    apply hOk.advance
    rw [hMine]
    exact
      advances_stop _
        ⟨(by simp), (by simp), fun _ h => h, fun _ h => h⟩
  · rename_i batch hMine
    cases hStep
    have hPost :=
      hOk.postPbc3 batch (by rw [hMine]; rfl)
        (by rw [hMine]; simp)
    exact
      hPost.move (by simp)
        (fun signs hMine => by
          cases hMine
          exact List.forall_mem_nil _)
        (fun _ hSome => by cases hSome)
        fun _ hSome => by cases hSome
  · rename_i batch hMine
    cases hStep
    have hAdvances : Advances s.mine (.count batch) := by
      rw [hMine]
      exact ⟨(by simp), (by simp), fun _ h => h, fun _ h => h⟩
    exact (hOk.advance hAdvances).frame ⟨rfl, rfl, rfl, .inl rfl⟩
  · rename_i batch hMine
    cases hStep
    have hAdvances : Advances s.mine (.test batch) := by
      rw [hMine]
      exact ⟨(by simp), (by simp), fun _ h => h, fun _ h => h⟩
    exact (hOk.advance hAdvances).frame ⟨rfl, rfl, rfl, .inl rfl⟩
  · rename_i batch hMine
    split at hStep
    · rcases Option.map_eq_some_iff.mp hStep with
        ⟨okBatch, _, rfl⟩
      apply hOk.advance
      rw [hMine]
      exact ⟨(by simp), (by simp), fun _ h => h, fun _ h => h⟩
    · cases hStep
      apply hOk.advance
      rw [hMine]
      exact ⟨(by simp), (by simp), fun _ h => h, fun _ h => h⟩
  · rename_i batch okBatch hMine
    cases hStep
    have hAdvances : Advances s.mine (.close batch) := by
      rw [hMine]
      exact ⟨(by simp), (by simp), fun _ h => h, fun _ h => h⟩
    exact (hOk.advance hAdvances).frame ⟨rfl, rfl, rfl, .inl rfl⟩
  · rename_i batch hMine
    cases hStep
    have hAdvances : Advances s.mine (.pi batch) := by
      rw [hMine]
      exact ⟨(by simp), (by simp), fun _ h => h, fun _ h => h⟩
    exact (hOk.advance hAdvances).frame ⟨rfl, rfl, rfl, .inl rfl⟩
  · rename_i batch hMine
    cases hStep
    apply hOk.advance
    rw [hMine]
    exact ⟨(by simp), (by simp), fun _ h => h, fun _ h => h⟩
  · rename_i batch values hMine
    cases hStep
    apply hOk.advance
    rw [hMine]
    exact
      advances_stop _
        ⟨(by simp), (by simp), fun _ h => h, fun _ h => h⟩
  · rename_i batch values hMine
    cases hStep
    have hPost :=
      hOk.postPi batch values (sign cfg c (cfg.tagged l .ok))
        (by rw [hMine]; rfl) (by rw [hMine]; simp)
    exact hPost.advance (advances_done _)
  · cases hStep

/- So does an answer to the first message. -/
theorem LeaderOk.receivePBC2
    {msg : Msg} (hOk : LeaderOk cfg l c s)
    (hStep : receivePBC2 cfg l c s msg = some s') :
    LeaderOk cfg l c s' := by
  unfold Goroutines.receivePBC2 at hStep
  split at hStep
  · rename_i signs hMine
    split at hStep
    · rcases Option.bind_eq_some_iff.mp hStep with
        ⟨got, _, hRest⟩
      dsimp only at hRest
      split at hRest
      · rename_i hEnough
        rcases Option.map_eq_some_iff.mp hRest with
          ⟨batch, hBatch, rfl⟩
        refine
          hOk.move (by simp) (by simp) ?_ fun _ hSome => by
            cases hSome
        intro _ hSome
        cases hSome
        rw [length_batchSign hBatch, List.length_append]
        exact Nat.le_add_right_of_le hEnough
      · cases hRest
        exact
          hOk.move (by simp) (by simp)
            (fun _ hSome => by cases hSome)
            fun _ hSome => by cases hSome
    · cases hStep
  · cases hStep

/- So does an answer to the third. -/
theorem LeaderOk.receivePBC4
    {msg : Msg} (hOk : LeaderOk cfg l c s)
    (hStep : receivePBC4 cfg l c s msg = some s') :
    LeaderOk cfg l c s' := by
  unfold Goroutines.receivePBC4 at hStep
  split at hStep
  · rename_i signs hMine
    split at hStep
    · rcases Option.bind_eq_some_iff.mp hStep with
        ⟨got, hGot, hRest⟩
      have hChecked :
          Checked cfg l c s.mineHash (signs ++ [got]) :=
        List.forall_mem_append.mpr
          ⟨hOk.signs signs hMine,
            List.forall_mem_singleton.mpr
              (acceptSign_eq_some hGot).2⟩
      dsimp only at hRest
      split at hRest
      · rcases Option.map_eq_some_iff.mp hRest with
          ⟨batch, hBatch, rfl⟩
        refine
          hOk.move (by simp) (by simp)
            (fun _ hSome => by cases hSome) ?_
        intro _ hSome
        cases hSome
        exact ⟨_, hChecked, hBatch⟩
      · cases hRest
        refine
          hOk.move (by simp) ?_ (fun _ hSome => by cases hSome)
            fun _ hSome => by cases hSome
        intro signs' hNext
        cases hNext
        exact hChecked
    · cases hStep
  · cases hStep

/- A message that is not of the own broadcast. -/
theorem apart_post
    {packet : Packet n}
    (hMine : s'.mine = s.mine)
    (hHash : s'.mineHash = s.mineHash)
    (hPbc : s'.pbc c = s.pbc c)
    (hSent : s'.sent = s.sent ++ [packet])
    (hNotOwn : NotOwn c packet.msg) :
    Apart c s s' :=
  ⟨hMine, hHash, hPbc, .inr ⟨packet, hSent, hNotOwn⟩⟩

/- Its type tells that it is not. -/
theorem notOwn_of_type
    {msg : Msg} (type : MsgType)
    (hType : msg.rawMsg.type = type)
    (hOther : type ≠ .pbc3 ∧ type ≠ .pi ∧ type ≠ .pbc4) :
    NotOwn c msg := by
  subst hType
  exact
    ⟨hOther.1, hOther.2.1, fun hPbc4 =>
      absurd hPbc4 hOther.2.2⟩

/- The broadcasts of others leave the own one alone. -/
theorem apart_pbc
    {leader : Fin n} (hOther : leader ≠ c)
    (hStep : pbcStep cfg l c s leader = some s') :
    Apart c s s' := by
  have hPbc (pc : PbcAt) :
      Function.update s.pbc leader pc c = s.pbc c :=
    Function.update_of_ne hOther.symm _ _
  unfold pbcStep at hStep
  split at hStep
  · cases hStep
    exact ⟨rfl, rfl, hPbc _, .inl rfl⟩
  · cases hStep
    exact ⟨rfl, rfl, hPbc _, .inl rfl⟩
  · cases hStep
    exact
      apart_post rfl rfl (hPbc _) rfl
        (notOwn_of_type .pbc2 rfl (by decide))
  · cases hStep
    exact ⟨rfl, rfl, hPbc _, .inl rfl⟩
  · cases hStep
    exact ⟨rfl, rfl, hPbc _, .inl rfl⟩
  · cases hStep
    refine apart_post rfl rfl (hPbc _) rfl ⟨?_, ?_, ?_⟩
    · exact fun hType => by cases hType
    · exact fun hType => by cases hType
    · intro _ hId
      change (leader.val : Int) + 1 = c.val + 1 at hId
      exact hOther (Fin.ext (by omega))
  · cases hStep

/- So does counting the proofs. -/
theorem apart_pi
    (hStep : piStep cfg l s = some s') : Apart c s s' := by
  unfold piStep at hStep
  split at hStep
  · cases hStep
    exact ⟨rfl, rfl, rfl, .inl rfl⟩
  · cases hStep
    exact ⟨rfl, rfl, rfl, .inl rfl⟩
  · cases hStep
    exact ⟨rfl, rfl, rfl, .inl rfl⟩
  · cases hStep
    exact ⟨rfl, rfl, rfl, .inl rfl⟩
  · split at hStep
    · rcases Option.map_eq_some_iff.mp hStep with ⟨_, _, rfl⟩
      exact ⟨rfl, rfl, rfl, .inl rfl⟩
    · cases hStep
      exact ⟨rfl, rfl, rfl, .inl rfl⟩
  · cases hStep
    exact ⟨rfl, rfl, rfl, .inl rfl⟩
  · cases hStep
    exact ⟨rfl, rfl, rfl, .inl rfl⟩
  · cases hStep

/- So does sending a share. -/
theorem apart_send
    (hStep : sendStep cfg l c s = some s') : Apart c s s' := by
  unfold sendStep at hStep
  split at hStep
  · split at hStep
    · cases hStep
    · cases hStep
      exact ⟨rfl, rfl, rfl, .inl rfl⟩
  · cases hStep
    exact ⟨rfl, rfl, rfl, .inl rfl⟩
  · cases hStep
    exact ⟨rfl, rfl, rfl, .inl rfl⟩
  · cases hStep
    exact
      apart_post rfl rfl rfl rfl
        (notOwn_of_type .share rfl (by decide))
  · cases hStep

/- So does counting the shares. -/
theorem apart_share
    (hStep : shareStep cfg l s = some s') : Apart c s s' := by
  unfold shareStep at hStep
  split at hStep
  · split at hStep
    · cases hStep
    · rcases Option.bind_eq_some_iff.mp hStep with
        ⟨share, _, hRest⟩
      rcases Option.bind_eq_some_iff.mp hRest with
        ⟨ss, _, hRest⟩
      cases hRest
      exact ⟨rfl, rfl, rfl, .inl rfl⟩
  · cases hStep
    exact ⟨rfl, rfl, rfl, .inl rfl⟩
  · cases hStep
    exact ⟨rfl, rfl, rfl, .inl rfl⟩
  · cases hStep
    exact ⟨rfl, rfl, rfl, .inl rfl⟩
  · split at hStep
    · rcases Option.map_eq_some_iff.mp hStep with ⟨_, _, rfl⟩
      exact ⟨rfl, rfl, rfl, .inl rfl⟩
    · cases hStep
      exact ⟨rfl, rfl, rfl, .inl rfl⟩
  · cases hStep
    exact ⟨rfl, rfl, rfl, .inl rfl⟩
  · cases hStep

/- So does what comes after the coin. -/
theorem apart_finish
    {oldProof : List Proof}
    (hStep : finishStep cfg l c s oldProof = some s') :
    Apart c s s' := by
  unfold finishStep at hStep
  split at hStep
  · split at hStep
    · cases hStep
    · cases hStep
      exact ⟨rfl, rfl, rfl, .inl rfl⟩
  · cases hStep
    exact ⟨rfl, rfl, rfl, .inl rfl⟩
  · split at hStep
    · cases hStep
      exact ⟨rfl, rfl, rfl, .inl rfl⟩
    · cases hStep
      exact
        apart_post rfl rfl rfl rfl
          (notOwn_of_type .halt rfl (by decide))
  · cases hStep
    exact ⟨rfl, rfl, rfl, .inl rfl⟩
  · cases hStep
    exact ⟨rfl, rfl, rfl, .inl rfl⟩
  · cases hStep
    exact ⟨rfl, rfl, rfl, .inl rfl⟩
  · rename_i coin prev _
    cases hStep
    cases prev with
    | none =>
        exact
          apart_post rfl rfl rfl rfl
            (notOwn_of_type .prevNo rfl (by decide))
    | some values =>
        exact
          apart_post rfl rfl rfl rfl
            (notOwn_of_type .prevYes rfl (by decide))
  · cases hStep

/- So does the vote. -/
theorem apart_vote
    {values : Bytes} {batch : BatchSignature}
    (hStep : voteStep s values batch = some s') :
    Apart c s s' := by
  unfold voteStep at hStep
  split at hStep
  · cases hStep
    exact ⟨rfl, rfl, rfl, .inl rfl⟩
  · cases hStep

/- So does a first message of another. -/
theorem apart_receivePBC1
    {oldCoins : List (Fin n)} {leader : Fin n} {msg : Msg}
    (hOther : leader ≠ c)
    (hStep :
      receivePBC1 cfg l s oldCoins leader msg = some s') :
    Apart c s s' := by
  have hPbc (pc : PbcAt) :
      Function.update s.pbc leader pc c = s.pbc c :=
    Function.update_of_ne hOther.symm _ _
  unfold receivePBC1 at hStep
  split at hStep
  · split at hStep
    · rcases Option.map_eq_some_iff.mp hStep with ⟨_, _, rfl⟩
      exact ⟨rfl, rfl, hPbc _, .inl rfl⟩
    · split at hStep
      · cases hStep
        exact ⟨rfl, rfl, hPbc _, .inl rfl⟩
      · cases hStep
  · cases hStep

/- So does a third message of another. -/
theorem apart_receivePBC3
    {leader : Fin n} {msg : Msg}
    (hOther : leader ≠ c)
    (hStep : receivePBC3 cfg l s leader msg = some s') :
    Apart c s s' := by
  unfold receivePBC3 at hStep
  split at hStep
  · split at hStep
    · rcases Option.map_eq_some_iff.mp hStep with ⟨_, _, rfl⟩
      exact
        ⟨rfl, rfl, Function.update_of_ne hOther.symm _ _,
          .inl rfl⟩
    · cases hStep
  · cases hStep

/- A Pi that has been checked is at hand. -/
theorem receivePi_eq
    {msg : Msg} (hStep : receivePi cfg l s msg = some s') :
    ∃ leader cert okSign,
      index n msg.rawMsg.id = some leader ∧
        accept cfg
            (cfg.marshal
              (cfg.rawMsg .pbc4 leader
                (cfg.sha msg.rawMsg.values) l))
            msg.ss = some cert ∧
          s' =
            { s with
              pi :=
                .input leader msg.rawMsg.values cert.2
                  okSign } := by
  unfold receivePi at hStep
  split at hStep
  · rcases Option.bind_eq_some_iff.mp hStep with
      ⟨leader, hLeader, hRest⟩
    rcases Option.bind_eq_some_iff.mp hRest with
      ⟨cert, hCert, hRest⟩
    rcases Option.bind_eq_some_iff.mp hRest with
      ⟨okSign, _, hRest⟩
    cases hRest
    exact ⟨leader, cert, okSign, hLeader, hCert, rfl⟩
  · cases hStep

/- A share is counted when it has been checked. -/
theorem receiveShare_eq
    {msg : Msg} (hStep : receiveShare cfg l s msg = some s') :
    ∃ count shareReady share ss,
      s.share = .wait count shareReady ∧
        s' =
          { s with
            share :=
              .append (count + 1) shareReady share ss } := by
  unfold receiveShare at hStep
  split at hStep
  · rename_i count shareReady hShare
    rcases Option.bind_eq_some_iff.mp hStep with
      ⟨cert, _, hRest⟩
    rcases Option.bind_eq_some_iff.mp hRest with
      ⟨share, _, hRest⟩
    cases hRest
    exact ⟨count, shareReady, share, cert.2, hShare, rfl⟩
  · cases hStep

/- What a message of the loop does. -/
theorem receive_cases
    {oldCoins : List (Fin n)} {msg : Msg}
    (hStep : receive cfg l c s oldCoins msg = some s') :
    (∃ leader, receivePBC1 cfg l s oldCoins leader msg =
        some s') ∨
      receivePBC2 cfg l c s msg = some s' ∨
      (∃ leader, msg.rawMsg.type = .pbc3 ∧
        index n msg.rawMsg.id = some leader ∧
          receivePBC3 cfg l s leader msg = some s') ∨
      receivePBC4 cfg l c s msg = some s' ∨
      (msg.rawMsg.type = .pi ∧
        receivePi cfg l s msg = some s') ∨
      receiveShare cfg l s msg = some s' := by
  unfold receive at hStep
  split at hStep
  · split at hStep
    · rcases Option.bind_eq_some_iff.mp hStep with
        ⟨leader, _, hReceive⟩
      exact .inl ⟨leader, hReceive⟩
    · exact .inr (.inl hStep)
    · rename_i hType
      rcases Option.bind_eq_some_iff.mp hStep with
        ⟨leader, hLeader, hReceive⟩
      exact
        .inr (.inr (.inl ⟨leader, hType, hLeader, hReceive⟩))
    · exact .inr (.inr (.inr (.inl hStep)))
    · rename_i hType
      exact .inr (.inr (.inr (.inr (.inl ⟨hType, hStep⟩))))
    · exact .inr (.inr (.inr (.inr (.inr hStep))))
    · cases hStep
  · cases hStep

/- A PBC2 or a PBC4 changes no more than the own broadcast. -/
theorem receivePBC2_eq
    {msg : Msg}
    (hStep : receivePBC2 cfg l c s msg = some s') :
    ∃ mine, s' = { s with mine := mine } := by
  unfold receivePBC2 at hStep
  split at hStep
  · split at hStep
    · rcases Option.bind_eq_some_iff.mp hStep with
        ⟨got, _, hRest⟩
      dsimp only at hRest
      split at hRest
      · rcases Option.map_eq_some_iff.mp hRest with
          ⟨batch, _, rfl⟩
        exact ⟨.store batch, rfl⟩
      · cases hRest
        exact ⟨_, rfl⟩
    · cases hStep
  · cases hStep

/- An answer only changes where the own broadcast is. -/
theorem receivePBC4_eq
    {msg : Msg}
    (hStep : receivePBC4 cfg l c s msg = some s') :
    ∃ mine, s' = { s with mine := mine } := by
  unfold receivePBC4 at hStep
  split at hStep
  · split at hStep
    · rcases Option.bind_eq_some_iff.mp hStep with
        ⟨got, _, hRest⟩
      dsimp only at hRest
      split at hRest
      · rcases Option.map_eq_some_iff.mp hRest with
          ⟨batch, _, rfl⟩
        exact ⟨.ok batch, rfl⟩
      · cases hRest
        exact ⟨_, rfl⟩
    · cases hStep
  · cases hStep

/- A statement of the own broadcast only adds messages. -/
theorem posts_mine
    (hStep : mineStep cfg l c s = some s') :
    Posts (fun _ => True) s s' := by
  unfold mineStep at hStep
  dsimp only at hStep
  split at hStep
  case h_4 | h_12 =>
    cases hStep
    exact .inr ⟨_, rfl, trivial⟩
  case h_7 =>
    split at hStep
    · rcases Option.map_eq_some_iff.mp hStep with ⟨_, _, rfl⟩
      exact .inl rfl
    · cases hStep
      exact .inl rfl
  case h_13 => cases hStep
  all_goals
    cases hStep
    exact .inl rfl

/-
  A step is one of the own broadcast, or apart from it;
  `handle_PBC` has nothing to do for the own number.
-/
theorem own_or_apart
    {a : Action n} (hDone : s.pbc c = .done)
    (hStep : step cfg l c s a = some s') :
    Apart c s s' ∨ mineStep cfg l c s = some s' ∨
      (∃ msg, receivePBC2 cfg l c s msg = some s') ∨
        ∃ msg, receivePBC4 cfg l c s msg = some s' := by
  cases a with
  | pbc leader =>
      by_cases hOwn : leader = c
      · cases hOwn
        change pbcStep cfg l c s c = some s' at hStep
        unfold pbcStep at hStep
        rw [hDone] at hStep
        cases hStep
      · exact .inl (apart_pbc hOwn hStep)
  | mine => exact .inr (.inl hStep)
  | pi => exact .inl (apart_pi hStep)
  | send => exact .inl (apart_send hStep)
  | share => exact .inl (apart_share hStep)
  | finish oldProof => exact .inl (apart_finish hStep)
  | vote values batch => exact .inl (apart_vote hStep)
  | receive oldCoins msg =>
      rcases receive_cases hStep with
        ⟨leader, hPBC1⟩ | hPBC2 | ⟨leader, _, _, hPBC3⟩ |
          hPBC4 | ⟨_, hPi⟩ | hShare
      · by_cases hOwn : leader = c
        · unfold receivePBC1 at hPBC1
          rw [hOwn, hDone] at hPBC1
          cases hPBC1
        · exact .inl (apart_receivePBC1 hOwn hPBC1)
      · exact .inr (.inr (.inl ⟨msg, hPBC2⟩))
      · by_cases hOwn : leader = c
        · unfold receivePBC3 at hPBC3
          rw [hOwn, hDone] at hPBC3
          cases hPBC3
        · exact .inl (apart_receivePBC3 hOwn hPBC3)
      · exact .inr (.inr (.inr ⟨msg, hPBC4⟩))
      · rcases receivePi_eq hPi with ⟨_, _, _, _, _, rfl⟩
        exact .inl ⟨rfl, rfl, rfl, .inl rfl⟩
      · rcases receiveShare_eq hShare with
          ⟨_, _, _, _, _, rfl⟩
        exact .inl ⟨rfl, rfl, rfl, .inl rfl⟩
  | halt =>
      cases hStep
      exact .inl ⟨rfl, rfl, rfl, .inl rfl⟩

/- Every statement keeps the invariant. -/
theorem LeaderOk.step
    {a : Action n} (hOk : LeaderOk cfg l c s)
    (hStep : step cfg l c s a = some s') :
    LeaderOk cfg l c s' := by
  rcases own_or_apart hOk.done hStep with
    hApart | hMine | ⟨msg, hPBC2⟩ | ⟨msg, hPBC4⟩
  · exact hOk.frame hApart
  · exact hOk.mineStep hMine
  · exact hOk.receivePBC2 hPBC2
  · exact hOk.receivePBC4 hPBC4

/- What was sent stays sent. -/
theorem Posts.subset
    {quiet : Msg → Prop} (hPosts : Posts quiet s s') :
    s.sent ⊆ s'.sent := by
  rcases hPosts with hSame | ⟨packet, hSent, _⟩
  · rw [hSame]
    exact List.Subset.refl _
  · rw [hSent]
    exact List.subset_append_left _ _

/- What has been sent stays sent. -/
theorem sent_subset
    {a : Action n} (hDone : s.pbc c = .done)
    (hStep : step cfg l c s a = some s') :
    s.sent ⊆ s'.sent := by
  rcases own_or_apart hDone hStep with
    hApart | hMine | ⟨msg, hPBC2⟩ | ⟨msg, hPBC4⟩
  · exact hApart.posts.subset
  · exact (posts_mine hMine).subset
  · rcases receivePBC2_eq hPBC2 with ⟨_, rfl⟩
    exact List.Subset.refl _
  · rcases receivePBC4_eq hPBC4 with ⟨_, rfl⟩
    exact List.Subset.refl _

end LeaderSteps

end Goroutines

end SpeedingMVBA

end Jumbo
