import Jumbo.SpeedingMVBA.OwnBroadcast
import Jumbo.SpeedingMVBA.Proofs

/-
  What a party holds for the party that the coin names.

  A party that has sent its PBC4 share has stored the combined
  signature before it saw `PBC_done` open, and the coin comes
  after `PBC_done` has been closed. So its prevote finds the
  signature, whatever the order of the goroutines.

  Main declarations:
    * `Genuine`
    * `Safe` and `PartyOk`
    * `PartyOk.quiet`
    * `PartyOk.step`
-/

------------------------------------------------------------
-- What a Party Holds
------------------------------------------------------------

namespace Jumbo

namespace SpeedingMVBA

namespace Goroutines

open Crypto (Bytes)
open Protocol
open Struct

variable {n : Nat}

/-
  A PBC3 or a Pi that is read in the number of `c` is one
  that `c` has sent.
-/
def Genuine (c : Fin n) (s : Fin n → Loop n) :
    Fin n × Action n → Prop
| (_, .receive _ msg) =>
    msg.rawMsg.type = .pbc3 ∨ msg.rawMsg.type = .pi →
      msg.rawMsg.id = c.val + 1 →
        ∃ packet ∈ (s c).sent, packet.msg = msg
| _ => True

section Holding

variable (cfg : Config n) (l : Nat) (c : Fin n)
variable (told : List (Packet n))

/-
  A combined signature for a hash that `c` has told; `told`
  is what `c` has sent.
-/
def Certifies (hash : Bytes) (batch : BatchSignature) : Prop :=
  verifySigns cfg (cfg.marshal (cfg.rawMsg .pbc2 c hash l))
      batch = some true ∧
    maxCount n ≤ batch.mems.length ∧
      ∃ packet ∈ told, packet.msg.rawMsg.type = .pbc3 ∧
        packet.msg.rawMsg.values = hash

/- Values that verify with the batch of a Pi of `c`. -/
def FromPi (values : Bytes) : Prop :=
  ∃ packet ∈ told, packet.msg.rawMsg.type = .pi ∧
    ∃ batch, packet.msg.ss = some batch ∧
      verifySigns cfg
          (cfg.marshal
            (cfg.rawMsg .pbc4 c (cfg.sha values) l))
          batch = some true

/- The values have the hash, or came with a proof. -/
def Suits (hash values : Bytes) : Prop :=
  cfg.sha values = hash ∨ FromPi cfg l c told values

/- The signature and the values that a prevote reads. -/
structure Held (hash : Bytes) (s : Loop n) : Prop where
  cert : Certifies cfg l c told hash (s.sigmas c)
  values : Suits cfg l c told hash (s.inputs c)

/- A prevote for or against the coin. -/
def IsPrev (msg : Msg) : Prop :=
  msg.rawMsg.type = .prevYes ∨ msg.rawMsg.type = .prevNo

/- A prevote yes with a certificate for the hash. -/
def Good (hash : Bytes) (msg : Msg) : Prop :=
  msg.rawMsg.type = .prevYes ∧
    ∃ batch, msg.ss = some batch ∧
      Certifies cfg l c told hash batch ∧
        Suits cfg l c told hash msg.rawMsg.values

/- The party has not sent its prevote. -/
def NoPrev (s : Loop n) : Prop :=
  ∀ packet ∈ s.sent, ¬ IsPrev packet.msg

/- The prevote has found the signature, or will. -/
def Safe (hash : Bytes) (s : Loop n) : Prop :=
  match s.finish with
  | .after _ =>
      ∀ packet ∈ s.sent, IsPrev packet.msg →
        Good cfg l c told hash packet.msg
  | .check _ prev | .send _ prev =>
      (Held cfg l c told hash s ∧ NoPrev s) ∧
        ∃ values, prev = some values ∧
          Suits cfg l c told hash values
  | _ => Held cfg l c told hash s ∧ NoPrev s

/- The second answer to the leader of the coin. -/
def IsShare (hash : Bytes) (msg : Msg) : Prop :=
  msg.rawMsg = cfg.rawMsg .pbc4 c hash l

/- The share is sent, or nothing keeps it from being sent. -/
def Released (hash : Bytes) (s : Loop n) : Prop :=
  s.pbc c = .send4 hash ∨
    ∃ packet ∈ s.sent, IsShare cfg l c hash packet.msg

/- `PBC_done` has been closed by `handle_share`. -/
def ShareAt.closed : ShareAt → Bool
| .wait _ shareReady | .append _ shareReady _ _ => !shareReady
| .push _ _ | .close _ => false
| .test _ | .coin | .done => true

/- The coin has not been read. -/
def FinishAt.early : FinishAt n → Bool
| .coin | .done => true
| _ => false

/- No prevote has been chosen. -/
def FinishAt.waits : FinishAt n → Bool
| .check _ _ | .send _ _ | .after _ => false
| _ => true

/- The coin that has been read. -/
def FinishAt.coin? : FinishAt n → Option (Fin n)
| .pis c | .halt c | .sigmas c | .values c => some c
| .check c _ | .send c _ | .after c => some c
| .coin | .done => none

/- The hash of the input taken, until it is released. -/
def PbcAt.hash : PbcAt → Option Bytes
| .check2 hash | .send2 hash | .wait3 hash => some hash
| .store3 hash _ | .check4 hash => some hash
| _ => none

/-
  What is stored for `c` belongs together as long as
  `PBC_done` is open; with the share released, until the
  prevote is sent.
-/
structure PartyOk (s : Loop n) : Prop where
  closed : s.share.closed = true → s.pbcDone = true
  coins : ∀ coin ∈ s.coinReady, coin = c
  finish : ∀ coin, s.finish.coin? = some coin → coin = c
  early :
    s.pbcDone = false →
      s.coinReady = [] ∧ s.finish.early = true ∧ NoPrev s
  pi :
    ∀ values batch okSign,
      s.pi = .input c values batch okSign →
        FromPi cfg l c told values
  values :
    s.pbcDone = false →
      ∀ hash, (s.pbc c).hash = some hash →
        Suits cfg l c told hash (s.inputs c)
  store :
    ∀ hash batch, s.pbc c = .store3 hash batch →
      Certifies cfg l c told hash batch
  held :
    s.pbcDone = false →
      ∀ hash, s.pbc c = .check4 hash →
        Certifies cfg l c told hash (s.sigmas c)
  sent :
    ∀ packet ∈ s.sent, ∀ hash,
      IsShare cfg l c hash packet.msg → s.pbc c = .done
  released :
    ∀ hash, Released cfg l c hash s →
      Safe cfg l c told hash s

end Holding

------------------------------------------------------------
-- Steps of a Party
------------------------------------------------------------

section PartySteps

variable {cfg : Config n} {l : Nat} {c p : Fin n}
variable {told : List (Packet n)} {s s' : Loop n}

/- A party that has not started is safe. -/
theorem partyOk_new
    (hOther : p ≠ c) (input : Bytes) :
    PartyOk cfg l c told (Loop.new p input) := by
  have hPbc : (Loop.new p input).pbc c = .wait1 := by
    unfold Loop.new
    dsimp only
    rw [Function.update_of_ne hOther.symm]
  constructor
  · intro hClosed
    cases hClosed
  · exact List.forall_mem_nil _
  · intro coin hCoin
    cases hCoin
  · exact fun _ => ⟨rfl, rfl, List.forall_mem_nil _⟩
  · intro values batch okSign hPi
    cases hPi
  · rw [hPbc]
    intro _ hash hHash
    cases hHash
  · rw [hPbc]
    intro hash batch hStore
    cases hStore
  · rw [hPbc]
    intro _ hash hCheck
    cases hCheck
  · exact List.forall_mem_nil _
  · rintro hash (hSend | ⟨packet, hMem, _⟩)
    · rw [hPbc] at hSend
      cases hSend
    · cases hMem

/- Messages of other kinds are no prevote. -/
theorem NoPrev.posts
    {quiet : Msg → Prop}
    (hNoPrev : NoPrev s) (hPosts : Posts quiet s s')
    (hQuiet : ∀ msg, quiet msg → ¬ IsPrev msg) :
    NoPrev s' := by
  unfold NoPrev
  rcases hPosts with hSame | ⟨packet, hSent, hPacket⟩
  · rw [hSame]
    exact hNoPrev
  · rw [hSent, List.forall_mem_append]
    exact
      ⟨hNoPrev, List.forall_mem_singleton.mpr
        (hQuiet _ hPacket)⟩

/- Nothing that a prevote reads has been changed. -/
theorem Safe.congr
    {quiet : Msg → Prop} {hash : Bytes}
    (hSafe : Safe cfg l c told hash s)
    (hFinish : s'.finish = s.finish)
    (hHeld :
      Held cfg l c told hash s → Held cfg l c told hash s')
    (hPosts : Posts quiet s s')
    (hQuiet : ∀ msg, quiet msg → ¬ IsPrev msg) :
    Safe cfg l c told hash s' := by
  unfold Safe at hSafe ⊢
  rw [hFinish]
  split at hSafe
  · rcases hPosts with hSame | ⟨packet, hSent, hPacket⟩
    · rw [hSame]
      exact hSafe
    · rw [hSent, List.forall_mem_append]
      exact
        ⟨hSafe, List.forall_mem_singleton.mpr fun hPrev =>
          absurd hPrev (hQuiet _ hPacket)⟩
  · exact
      ⟨⟨hHeld hSafe.1.1, hSafe.1.2.posts hPosts hQuiet⟩,
        hSafe.2⟩
  · exact
      ⟨⟨hHeld hSafe.1.1, hSafe.1.2.posts hPosts hQuiet⟩,
        hSafe.2⟩
  · exact ⟨hHeld hSafe.1, hSafe.2.posts hPosts hQuiet⟩

/- A step that leaves the prevote alone. -/
theorem Safe.keep
    {hash : Bytes}
    (hSafe : Safe cfg l c told hash s)
    (hFinish : s'.finish = s.finish)
    (hSent : s'.sent = s.sent)
    (hHeld :
      Held cfg l c told hash s → Held cfg l c told hash s') :
    Safe cfg l c told hash s' := by
  have hPosts : Posts (fun _ => False) s s' := .inl hSent
  exact hSafe.congr hFinish hHeld hPosts fun _ hMsg => hMsg.elim

/- Messages that are neither a prevote nor the share. -/
def Silent (cfg : Config n) (l : Nat) (c : Fin n) (msg : Msg) :
    Prop :=
  ¬ IsPrev msg ∧ ∀ hash, ¬ IsShare cfg l c hash msg

/- A step that leaves alone what belongs to `c`. -/
structure Quiet
    (cfg : Config n) (l : Nat) (c : Fin n) (s s' : Loop n) :
    Prop where
  pbc : s'.pbc c = s.pbc c
  sigmas : s'.sigmas c = s.sigmas c
  inputs : s'.inputs c = s.inputs c
  finish : s'.finish = s.finish
  coinReady : s'.coinReady = s.coinReady
  share : s'.share = s.share
  pbcDone : s'.pbcDone = false → s.pbcDone = false
  pi :
    ∀ values batch okSign,
      s'.pi = .input c values batch okSign → s'.pi = s.pi
  posts : Posts (Silent cfg l c) s s'

/- A step that is silent sends no second answer. -/
theorem mem_of_posts
    {packet : Packet n} {hash : Bytes}
    (hPosts : Posts (Silent cfg l c) s s')
    (hMem : packet ∈ s'.sent)
    (hShare : IsShare cfg l c hash packet.msg) :
    packet ∈ s.sent := by
  rcases hPosts with hSame | ⟨last, hSent, _, hNot⟩
  · rw [hSame] at hMem
    exact hMem
  · rw [hSent] at hMem
    rcases List.mem_append.mp hMem with hOld | hNew
    · exact hOld
    · cases List.mem_singleton.mp hNew
      exact absurd hShare (hNot hash)

/- So what is released was before. -/
theorem Released.of_posts
    {hash : Bytes}
    (hReleased : Released cfg l c hash s')
    (hPbc : s'.pbc c = s.pbc c)
    (hPosts : Posts (Silent cfg l c) s s') :
    Released cfg l c hash s := by
  rcases hReleased with hSend | ⟨packet, hMem, hShare⟩
  · rw [hPbc] at hSend
    exact .inl hSend
  · exact
      .inr ⟨packet, mem_of_posts hPosts hMem hShare, hShare⟩

/- A quiet step keeps the party safe. -/
theorem PartyOk.quiet
    (hOk : PartyOk cfg l c told s)
    (hQuiet : Quiet cfg l c s s') :
    PartyOk cfg l c told s' := by
  have hSilent :
      ∀ msg, Silent cfg l c msg → ¬ IsPrev msg :=
    fun _ hMsg => hMsg.1
  constructor
  · rw [hQuiet.share]
    intro hClosed
    by_contra hOpen
    have hDone :=
      hQuiet.pbcDone (Bool.eq_false_of_not_eq_true hOpen)
    rw [hOk.closed hClosed] at hDone
    cases hDone
  · rw [hQuiet.coinReady]
    exact hOk.coins
  · rw [hQuiet.finish]
    exact hOk.finish
  · intro hOpen
    rcases hOk.early (hQuiet.pbcDone hOpen) with
      ⟨hCoin, hEarly, hNoPrev⟩
    rw [hQuiet.coinReady, hQuiet.finish]
    exact ⟨hCoin, hEarly, hNoPrev.posts hQuiet.posts hSilent⟩
  · intro values batch okSign hPi
    have hSame := hQuiet.pi values batch okSign hPi
    rw [hSame] at hPi
    exact hOk.pi values batch okSign hPi
  · intro hOpen
    rw [hQuiet.pbc, hQuiet.inputs]
    exact hOk.values (hQuiet.pbcDone hOpen)
  · rw [hQuiet.pbc]
    exact hOk.store
  · intro hOpen
    rw [hQuiet.pbc, hQuiet.sigmas]
    exact hOk.held (hQuiet.pbcDone hOpen)
  · intro packet hMem hash hShare
    rw [hQuiet.pbc]
    exact
      hOk.sent packet (mem_of_posts hQuiet.posts hMem hShare)
        hash hShare
  · intro hash hReleased
    have hSafe :=
      hOk.released hash
        (hReleased.of_posts hQuiet.pbc hQuiet.posts)
    refine hSafe.congr hQuiet.finish ?_ hQuiet.posts hSilent
    intro hHeld
    constructor
    · rw [hQuiet.sigmas]
      exact hHeld.cert
    · rw [hQuiet.inputs]
      exact hHeld.values

/- A message of another type. -/
theorem silent_of_type
    {msg : Msg} (type : MsgType)
    (hType : msg.rawMsg.type = type)
    (hOther :
      type ≠ .prevYes ∧ type ≠ .prevNo ∧ type ≠ .pbc4) :
    Silent cfg l c msg := by
  subst hType
  constructor
  · rintro (hYes | hNo)
    · exact hOther.1 hYes
    · exact hOther.2.1 hNo
  · intro hash hShare
    unfold IsShare at hShare
    rw [hShare] at hOther
    exact hOther.2.2 rfl

/- The broadcast of another leader. -/
theorem quiet_pbc
    {leader : Fin n} (hOther : leader ≠ c)
    (hStep : pbcStep cfg l p s leader = some s') :
    Quiet cfg l c s s' := by
  have hPbc (pc : PbcAt) :
      Function.update s.pbc leader pc c = s.pbc c :=
    Function.update_of_ne hOther.symm _ _
  unfold pbcStep at hStep
  split at hStep
  · cases hStep
    exact
      ⟨hPbc _, rfl, Function.update_of_ne hOther.symm _ _, rfl,
        rfl, rfl, id, fun _ _ _ _ => rfl, .inl rfl⟩
  · cases hStep
    exact
      ⟨hPbc _, rfl, rfl, rfl, rfl, rfl, id,
        fun _ _ _ _ => rfl, .inl rfl⟩
  · cases hStep
    exact
      ⟨hPbc _, rfl, rfl, rfl, rfl, rfl, id,
        fun _ _ _ _ => rfl,
        .inr ⟨_, rfl, silent_of_type .pbc2 rfl (by decide)⟩⟩
  · cases hStep
    exact
      ⟨hPbc _, Function.update_of_ne hOther.symm _ _, rfl, rfl,
        rfl, rfl, id, fun _ _ _ _ => rfl, .inl rfl⟩
  · cases hStep
    exact
      ⟨hPbc _, rfl, rfl, rfl, rfl, rfl, id,
        fun _ _ _ _ => rfl, .inl rfl⟩
  · cases hStep
    refine
      ⟨hPbc _, rfl, rfl, rfl, rfl, rfl, id,
        fun _ _ _ _ => rfl, .inr ⟨_, rfl, ?_, ?_⟩⟩
    · rintro (hYes | hNo)
      · cases hYes
      · cases hNo
    · intro hash hShare
      have hId := congrArg RawMsg.id hShare
      change (leader.val : Int) + 1 = c.val + 1 at hId
      exact hOther (Fin.ext (by omega))
  · cases hStep

/- The own broadcast is quiet. -/
theorem quiet_mine
    (hOther : p ≠ c)
    (hStep : mineStep cfg l p s = some s') :
    Quiet cfg l c s s' := by
  unfold mineStep at hStep
  dsimp only at hStep
  split at hStep
  · cases hStep
    exact
      ⟨rfl, rfl, rfl, rfl, rfl, rfl, id, fun _ _ _ _ => rfl,
        .inl rfl⟩
  · cases hStep
    exact
      ⟨rfl, Function.update_of_ne hOther.symm _ _, rfl, rfl,
        rfl, rfl, id, fun _ _ _ _ => rfl, .inl rfl⟩
  · cases hStep
    exact
      ⟨rfl, rfl, rfl, rfl, rfl, rfl, id, fun _ _ _ _ => rfl,
        .inl rfl⟩
  · cases hStep
    exact
      ⟨rfl, rfl, rfl, rfl, rfl, rfl, id, fun _ _ _ _ => rfl,
        .inr ⟨_, rfl, silent_of_type .pbc3 rfl (by decide)⟩⟩
  · cases hStep
    exact
      ⟨rfl, rfl, rfl, rfl, rfl, rfl, id, fun _ _ _ _ => rfl,
        .inl rfl⟩
  · cases hStep
    exact
      ⟨rfl, rfl, rfl, rfl, rfl, rfl, id, fun _ _ _ _ => rfl,
        .inl rfl⟩
  · split at hStep
    · rcases Option.map_eq_some_iff.mp hStep with ⟨_, _, rfl⟩
      exact
        ⟨rfl, rfl, rfl, rfl, rfl, rfl, id, fun _ _ _ _ => rfl,
          .inl rfl⟩
    · cases hStep
      exact
        ⟨rfl, rfl, rfl, rfl, rfl, rfl, id, fun _ _ _ _ => rfl,
          .inl rfl⟩
  · cases hStep
    exact
      ⟨rfl, rfl, rfl, rfl, rfl, rfl, id, fun _ _ _ _ => rfl,
        .inl rfl⟩
  · cases hStep
    exact
      ⟨rfl, rfl, rfl, rfl, rfl, rfl,
        (fun hOpen => by cases hOpen), fun _ _ _ _ => rfl,
        .inl rfl⟩
  · cases hStep
    exact
      ⟨rfl, rfl, rfl, rfl, rfl, rfl, id, fun _ _ _ _ => rfl,
        .inl rfl⟩
  · cases hStep
    exact
      ⟨rfl, rfl, rfl, rfl, rfl, rfl, id, fun _ _ _ _ => rfl,
        .inl rfl⟩
  · cases hStep
    exact
      ⟨rfl, rfl, rfl, rfl, rfl, rfl, id, fun _ _ _ _ => rfl,
        .inr ⟨_, rfl, silent_of_type .pi rfl (by decide)⟩⟩
  · cases hStep

/- So is the share. -/
theorem quiet_send
    (hStep : sendStep cfg l p s = some s') :
    Quiet cfg l c s s' := by
  unfold sendStep at hStep
  split at hStep
  · split at hStep
    · cases hStep
    · cases hStep
      exact
        ⟨rfl, rfl, rfl, rfl, rfl, rfl, id, fun _ _ _ _ => rfl,
          .inl rfl⟩
  · cases hStep
    exact
      ⟨rfl, rfl, rfl, rfl, rfl, rfl, id, fun _ _ _ _ => rfl,
        .inl rfl⟩
  · cases hStep
    exact
      ⟨rfl, rfl, rfl, rfl, rfl, rfl, id, fun _ _ _ _ => rfl,
        .inl rfl⟩
  · cases hStep
    exact
      ⟨rfl, rfl, rfl, rfl, rfl, rfl, id, fun _ _ _ _ => rfl,
        .inr ⟨_, rfl, silent_of_type .share rfl (by decide)⟩⟩
  · cases hStep

/- So is a first message of another leader. -/
theorem quiet_receivePBC1
    {oldCoins : List (Fin n)} {leader : Fin n} {msg : Msg}
    (hOther : leader ≠ c)
    (hStep :
      receivePBC1 cfg l s oldCoins leader msg = some s') :
    Quiet cfg l c s s' := by
  unfold receivePBC1 at hStep
  split at hStep
  · split at hStep
    · rcases Option.map_eq_some_iff.mp hStep with ⟨_, _, rfl⟩
      exact
        ⟨Function.update_of_ne hOther.symm _ _, rfl, rfl, rfl,
          rfl, rfl, id, fun _ _ _ _ => rfl, .inl rfl⟩
    · split at hStep
      · cases hStep
        exact
          ⟨Function.update_of_ne hOther.symm _ _, rfl, rfl, rfl,
            rfl, rfl, id, fun _ _ _ _ => rfl, .inl rfl⟩
      · cases hStep
  · cases hStep

/- So is an answer to the first message. -/
theorem quiet_receivePBC2
    {msg : Msg}
    (hStep : receivePBC2 cfg l p s msg = some s') :
    Quiet cfg l c s s' := by
  rcases receivePBC2_eq hStep with ⟨_, rfl⟩
  exact
    ⟨rfl, rfl, rfl, rfl, rfl, rfl, id, fun _ _ _ _ => rfl,
      .inl rfl⟩

/- So is a third message of another leader. -/
theorem quiet_receivePBC3
    {leader : Fin n} {msg : Msg}
    (hOther : leader ≠ c)
    (hStep : receivePBC3 cfg l s leader msg = some s') :
    Quiet cfg l c s s' := by
  unfold receivePBC3 at hStep
  split at hStep
  · split at hStep
    · rcases Option.map_eq_some_iff.mp hStep with ⟨_, _, rfl⟩
      exact
        ⟨Function.update_of_ne hOther.symm _ _, rfl, rfl, rfl,
          rfl, rfl, id, fun _ _ _ _ => rfl, .inl rfl⟩
    · cases hStep
  · cases hStep

/- So is an answer to the third message. -/
theorem quiet_receivePBC4
    {msg : Msg}
    (hStep : receivePBC4 cfg l p s msg = some s') :
    Quiet cfg l c s s' := by
  rcases receivePBC4_eq hStep with ⟨_, rfl⟩
  exact
    ⟨rfl, rfl, rfl, rfl, rfl, rfl, id, fun _ _ _ _ => rfl,
      .inl rfl⟩

/- Before the prevote it is enough to hold the hash. -/
theorem safe_of_waits
    {hash : Bytes}
    (hWaits : s.finish.waits = true)
    (hHeld : Held cfg l c told hash s) (hNoPrev : NoPrev s) :
    Safe cfg l c told hash s := by
  unfold Safe
  split
  · rename_i hFinish
    rw [hFinish] at hWaits
    cases hWaits
  · rename_i hFinish
    rw [hFinish] at hWaits
    cases hWaits
  · rename_i hFinish
    rw [hFinish] at hWaits
    cases hWaits
  · exact ⟨hHeld, hNoPrev⟩

/- Before the prevote the hash is held. -/
theorem Safe.before
    {hash : Bytes}
    (hSafe : Safe cfg l c told hash s)
    (hBefore : ∀ coin, s.finish ≠ .after coin) :
    Held cfg l c told hash s ∧ NoPrev s := by
  unfold Safe at hSafe
  split at hSafe
  · rename_i coin hFinish
    exact absurd hFinish (hBefore coin)
  · exact hSafe.1
  · exact hSafe.1
  · exact hSafe

/- An early statement waits for the coin. -/
theorem waits_of_early
    {finish : FinishAt n} (hEarly : finish.early = true) :
    finish.waits = true := by
  cases finish with
  | coin | done => rfl
  | pis _ | halt _ | sigmas _ | values _ | check _ _
  | send _ _ | after _ => cases hEarly

/- The message tells the hash. -/
theorem isShare_hash
    {hash hash' : Bytes} {msg : Msg}
    (hShare : IsShare cfg l c hash msg)
    (hShare' : IsShare cfg l c hash' msg) : hash' = hash :=
  congrArg RawMsg.values (hShare'.symm.trans hShare)

/- The broadcast of `c` goes on before the share is released. -/
theorem PartyOk.advance
    (hOk : PartyOk cfg l c told s)
    (pc : PbcAt)
    (inputs : Fin n → Bytes)
    (sigmas : Fin n → BatchSignature)
    (sent : List (Packet n))
    (hBefore : s.pbc c ≠ .done)
    (hNot : ∀ hash, pc ≠ .send4 hash)
    (hPosts : Posts (Silent cfg l c) s { s with sent := sent })
    (hValues :
      s.pbcDone = false → ∀ hash, pc.hash = some hash →
        Suits cfg l c told hash (inputs c))
    (hStore :
      ∀ hash batch, pc = .store3 hash batch →
        Certifies cfg l c told hash batch)
    (hHeld :
      s.pbcDone = false → ∀ hash, pc = .check4 hash →
        Certifies cfg l c told hash (sigmas c)) :
    PartyOk cfg l c told
      { s.setPbc c pc with
        inputs := inputs
        sigmas := sigmas
        sent := sent } := by
  have hPbc : (s.setPbc c pc).pbc c = pc :=
    Function.update_self c _ s.pbc
  have hUnsent :
      ∀ packet ∈ sent, ∀ hash,
        ¬ IsShare cfg l c hash packet.msg := by
    intro packet hMem hash hShare
    have hOld := mem_of_posts hPosts hMem hShare
    exact hBefore (hOk.sent packet hOld hash hShare)
  constructor
  · exact hOk.closed
  · exact hOk.coins
  · exact hOk.finish
  · intro hOpen
    rcases hOk.early hOpen with ⟨hCoin, hEarly, hNoPrev⟩
    exact
      ⟨hCoin, hEarly,
        hNoPrev.posts hPosts fun _ hMsg => hMsg.1⟩
  · exact hOk.pi
  · intro hOpen hash hHash
    rw [← hPbc] at hValues
    exact hValues hOpen hash hHash
  · intro hash batch hPc
    rw [← hPbc] at hStore
    exact hStore hash batch hPc
  · intro hOpen hash hPc
    rw [← hPbc] at hHeld
    exact hHeld hOpen hash hPc
  · intro packet hMem hash hShare
    exact absurd hShare (hUnsent packet hMem hash)
  · rintro hash (hSend | ⟨packet, hMem, hShare⟩)
    · exact absurd (hPbc.symm.trans hSend) (hNot hash)
    · exact absurd hShare (hUnsent packet hMem hash)

/-
  `PBC_done` is seen open once the signature is stored, so no
  prevote has been under way.
-/
theorem PartyOk.release
    {hash : Bytes}
    (hOk : PartyOk cfg l c told s)
    (hPc : s.pbc c = .check4 hash)
    (hOpen : s.pbcDone = false) :
    PartyOk cfg l c told (s.setPbc c (.send4 hash)) := by
  have hPbc :
      (s.setPbc c (.send4 hash)).pbc c = .send4 hash :=
    Function.update_self c _ s.pbc
  have hUnsent :
      ∀ packet ∈ s.sent, ∀ hash',
        ¬ IsShare cfg l c hash' packet.msg := by
    intro packet hMem hash' hShare
    have hDone := hOk.sent packet hMem hash' hShare
    rw [hPc] at hDone
    cases hDone
  constructor
  · exact hOk.closed
  · exact hOk.coins
  · exact hOk.finish
  · exact hOk.early
  · exact hOk.pi
  · rw [hPbc]
    intro _ hash' hHash
    cases hHash
  · rw [hPbc]
    intro hash' batch hStore
    cases hStore
  · rw [hPbc]
    intro _ hash' hCheck
    cases hCheck
  · intro packet hMem hash' hShare
    exact absurd hShare (hUnsent packet hMem hash')
  · rintro hash' (hSend | ⟨packet, hMem, hShare⟩)
    · rw [hPbc] at hSend
      cases hSend
      rcases hOk.early hOpen with ⟨_, hEarly, hNoPrev⟩
      refine
        safe_of_waits (waits_of_early hEarly) ⟨?_, ?_⟩ hNoPrev
      · exact hOk.held hOpen hash hPc
      · exact hOk.values hOpen hash (by rw [hPc]; rfl)
    · exact absurd hShare (hUnsent packet hMem hash')

/- The share is sent for the hash it was released for. -/
theorem PartyOk.postShare
    {hash : Bytes} {packet : Packet n}
    (hOk : PartyOk cfg l c told s)
    (hPc : s.pbc c = .send4 hash)
    (hPacket : IsShare cfg l c hash packet.msg) :
    PartyOk cfg l c told
      ((s.setPbc c .done).post packet) := by
  have hPbc : ((s.setPbc c .done).post packet).pbc c = .done :=
    Function.update_self c _ s.pbc
  have hNotPrev : ¬ IsPrev packet.msg := by
    unfold IsPrev
    rw [hPacket]
    rintro (hYes | hNo)
    · cases hYes
    · cases hNo
  have hPosts :
      Posts (fun msg => ¬ IsPrev msg) s
        ((s.setPbc c .done).post packet) :=
    .inr ⟨packet, rfl, hNotPrev⟩
  constructor
  · exact hOk.closed
  · exact hOk.coins
  · exact hOk.finish
  · intro hOpen
    rcases hOk.early hOpen with ⟨hCoin, hEarly, hNoPrev⟩
    exact ⟨hCoin, hEarly, hNoPrev.posts hPosts fun _ h => h⟩
  · exact hOk.pi
  · rw [hPbc]
    intro _ hash' hHash
    cases hHash
  · rw [hPbc]
    intro hash' batch hStore
    cases hStore
  · rw [hPbc]
    intro _ hash' hCheck
    cases hCheck
  · exact fun _ _ _ _ => hPbc
  · rintro hash' (hSend | ⟨last, hMem, hShare⟩)
    · rw [hPbc] at hSend
      cases hSend
    · rcases List.mem_append.mp hMem with hOld | hNew
      · have hDone := hOk.sent last hOld hash' hShare
        rw [hPc] at hDone
        cases hDone
      · cases List.mem_singleton.mp hNew
        cases isShare_hash hPacket hShare
        exact
          (hOk.released hash (.inl hPc)).congr rfl
            (fun hHeld => ⟨hHeld.cert, hHeld.values⟩) hPosts
            fun _ h => h

/- The answer is given to a hash that is held. -/
theorem PartyOk.pbcStep
    (hOk : PartyOk cfg l c told s)
    (hStep : pbcStep cfg l p s c = some s') :
    PartyOk cfg l c told s' := by
  unfold Goroutines.pbcStep at hStep
  split at hStep
  · rename_i values hPc
    cases hStep
    refine
      hOk.advance (.check2 (cfg.sha values))
        (Function.update s.inputs c values) s.sigmas s.sent
        (by rw [hPc]; simp) (by simp) (.inl rfl) ?_ (by simp)
        (by simp)
    intro _ hash hHash
    cases hHash
    rw [Function.update_self]
    exact .inl rfl
  · rename_i hash hPc
    cases hStep
    split
    · exact
        hOk.advance .done s.inputs s.sigmas s.sent
          (by rw [hPc]; simp) (by simp) (.inl rfl)
          (fun _ _ hHash => by cases hHash) (by simp) (by simp)
    · refine
        hOk.advance (.send2 hash) s.inputs s.sigmas s.sent
          (by rw [hPc]; simp) (by simp) (.inl rfl) ?_ (by simp)
          (by simp)
      intro hOpen hash' hHash
      exact hOk.values hOpen hash' (by rw [hPc]; exact hHash)
  · rename_i hash hPc
    cases hStep
    refine
      hOk.advance (.wait3 hash) s.inputs s.sigmas _
        (by rw [hPc]; simp) (by simp)
        (.inr ⟨_, rfl, silent_of_type .pbc2 rfl (by decide)⟩)
        ?_ (by simp) (by simp)
    intro hOpen hash' hHash
    exact hOk.values hOpen hash' (by rw [hPc]; exact hHash)
  · rename_i hash batch hPc
    cases hStep
    refine
      hOk.advance (.check4 hash) s.inputs
        (Function.update s.sigmas c batch) s.sent
        (by rw [hPc]; simp) (by simp) (.inl rfl) ?_ (by simp) ?_
    · intro hOpen hash' hHash
      exact hOk.values hOpen hash' (by rw [hPc]; exact hHash)
    · intro _ hash' hCheck
      cases hCheck
      rw [Function.update_self]
      exact hOk.store hash batch hPc
  · rename_i hash hPc
    cases hStep
    split
    · exact
        hOk.advance .done s.inputs s.sigmas s.sent
          (by rw [hPc]; simp) (by simp) (.inl rfl)
          (fun _ _ hHash => by cases hHash) (by simp) (by simp)
    · rename_i hGo
      have hOpen : s.pbcDone = false := by
        cases hDone : s.pbcDone with
        | true => exact absurd (by rw [hDone]; rfl) hGo
        | false => rfl
      exact hOk.release hPc hOpen
  · rename_i hash hPc
    cases hStep
    exact hOk.postShare hPc rfl
  · cases hStep

/- A first message changes nothing that is released. -/
theorem PartyOk.receivePBC1
    {oldCoins : List (Fin n)} {msg : Msg}
    (hOk : PartyOk cfg l c told s)
    (hStep : receivePBC1 cfg l s oldCoins c msg = some s') :
    PartyOk cfg l c told s' := by
  unfold Goroutines.receivePBC1 at hStep
  split at hStep
  · rename_i hPc
    split at hStep
    · rcases Option.map_eq_some_iff.mp hStep with ⟨_, _, rfl⟩
      exact
        hOk.advance (.store1 msg.rawMsg.values) s.inputs
          s.sigmas s.sent (by rw [hPc]; simp) (by simp)
          (.inl rfl) (fun _ _ hHash => by cases hHash) (by simp)
          (by simp)
    · split at hStep
      · cases hStep
        exact
          hOk.advance .done s.inputs s.sigmas s.sent
            (by rw [hPc]; simp) (by simp) (.inl rfl)
            (fun _ _ hHash => by cases hHash) (by simp)
            (by simp)
      · cases hStep
  · cases hStep

/- Every combined signature that `c` tells has enough members. -/
theorem PartyOk.receivePBC3
    {msg : Msg}
    (hOk : PartyOk cfg l c told s)
    (hType : msg.rawMsg.type = .pbc3)
    (hTold : ∃ packet ∈ told, packet.msg = msg)
    (hEnough :
      ∀ packet ∈ told, packet.msg.rawMsg.type = .pbc3 →
        ∃ batch, packet.msg.ss = some batch ∧
          maxCount n ≤ batch.mems.length)
    (hStep : receivePBC3 cfg l s c msg = some s') :
    PartyOk cfg l c told s' := by
  unfold Goroutines.receivePBC3 at hStep
  split at hStep
  · rename_i hash hPc
    split at hStep
    · rename_i hSame
      rcases Option.map_eq_some_iff.mp hStep with
        ⟨cert, hCert, rfl⟩
      rcases accept_eq_some hCert with ⟨hSS, hVerify⟩
      rcases hTold with ⟨packet, hMem, rfl⟩
      rcases hEnough packet hMem hType with
        ⟨batch, hBatch, hMems⟩
      cases hSS.symm.trans hBatch
      refine
        hOk.advance (.store3 hash cert.2) s.inputs s.sigmas
          s.sent (by rw [hPc]; simp) (by simp) (.inl rfl) ?_ ?_
          (by simp)
      · intro hOpen hash' hHash
        exact hOk.values hOpen hash' (by rw [hPc]; exact hHash)
      · intro hash' batch' hStore
        cases hStore
        exact ⟨hVerify, hMems, packet, hMem, hType, hSame.symm⟩
    · cases hStep
  · cases hStep

/- A Pi is at hand; one of `c` has been sent by `c`. -/
theorem PartyOk.setPi
    (hOk : PartyOk cfg l c told s) (pi : PiAt n)
    (hPi :
      ∀ values batch okSign,
        pi = .input c values batch okSign →
          FromPi cfg l c told values) :
    PartyOk cfg l c told { s with pi := pi } where
  closed := hOk.closed
  coins := hOk.coins
  finish := hOk.finish
  early := hOk.early
  pi := hPi
  values := hOk.values
  store := hOk.store
  held := hOk.held
  sent := hOk.sent
  released hash hReleased :=
    (hOk.released hash hReleased).keep rfl rfl fun hHeld =>
      ⟨hHeld.cert, hHeld.values⟩

/- A proof comes with suitable values. -/
theorem PartyOk.receivePi
    {msg : Msg}
    (hOk : PartyOk cfg l c told s)
    (hType : msg.rawMsg.type = .pi)
    (hTold :
      index n msg.rawMsg.id = some c →
        ∃ packet ∈ told, packet.msg = msg)
    (hStep : receivePi cfg l s msg = some s') :
    PartyOk cfg l c told s' := by
  rcases receivePi_eq hStep with
    ⟨leader, cert, okSign, hLeader, hCert, rfl⟩
  apply hOk.setPi
  intro values batch okSign' hPi
  cases hPi
  rcases accept_eq_some hCert with ⟨hSS, hVerify⟩
  rcases hTold hLeader with ⟨packet, hMem, rfl⟩
  exact ⟨packet, hMem, hType, cert.2, hSS, hVerify⟩

/- The values of a Pi take the place of the input. -/
theorem PartyOk.setInputs
    (hOk : PartyOk cfg l c told s) (inputs : Fin n → Bytes)
    (hInputs :
      ∀ hash, Suits cfg l c told hash (s.inputs c) →
        Suits cfg l c told hash (inputs c)) :
    PartyOk cfg l c told { s with inputs := inputs } where
  closed := hOk.closed
  coins := hOk.coins
  finish := hOk.finish
  early := hOk.early
  pi := hOk.pi
  values hOpen hash hHash :=
    hInputs hash (hOk.values hOpen hash hHash)
  store := hOk.store
  held := hOk.held
  sent := hOk.sent
  released hash hReleased :=
    (hOk.released hash hReleased).keep rfl rfl fun hHeld =>
      ⟨hHeld.cert, hInputs hash hHeld.values⟩

/- Counting the proofs is quiet. -/
theorem PartyOk.piStep
    (hOk : PartyOk cfg l c told s)
    (hStep : piStep cfg l s = some s') :
    PartyOk cfg l c told s' := by
  unfold Goroutines.piStep at hStep
  split at hStep
  · rename_i leader values batch okSign hPi
    cases hStep
    have hInputs :
        PartyOk cfg l c told
          { s with
            inputs :=
              Function.update s.inputs leader values } := by
      apply hOk.setInputs
      intro hash hSuits
      by_cases hLeader : leader = c
      · cases hLeader
        rw [Function.update_self]
        exact .inr (hOk.pi values batch okSign hPi)
      · rw [Function.update_of_ne (Ne.symm hLeader)]
        exact hSuits
    exact
      hInputs.setPi (.pis leader batch okSign)
        fun _ _ _ hNext => by cases hNext
  · cases hStep
    exact
      hOk.quiet
        ⟨rfl, rfl, rfl, rfl, rfl, rfl, id,
          (fun _ _ _ hNext => by cases hNext), .inl rfl⟩
  · cases hStep
    exact
      hOk.quiet
        ⟨rfl, rfl, rfl, rfl, rfl, rfl, id,
          (fun _ _ _ hNext => by cases hNext), .inl rfl⟩
  · cases hStep
    exact
      hOk.quiet
        ⟨rfl, rfl, rfl, rfl, rfl, rfl, id,
          (fun _ _ _ hNext => by cases hNext), .inl rfl⟩
  · split at hStep
    · rcases Option.map_eq_some_iff.mp hStep with ⟨_, _, rfl⟩
      exact
        hOk.quiet
          ⟨rfl, rfl, rfl, rfl, rfl, rfl, id,
            (fun _ _ _ hNext => by cases hNext), .inl rfl⟩
    · cases hStep
      exact
        hOk.quiet
          ⟨rfl, rfl, rfl, rfl, rfl, rfl, id,
            (fun _ _ _ hNext => by cases hNext), .inl rfl⟩
  · cases hStep
    exact
      hOk.quiet
        ⟨rfl, rfl, rfl, rfl, rfl, rfl, id,
          (fun _ _ _ hNext => by cases hNext), .inl rfl⟩
  · cases hStep
    exact
      hOk.quiet
        ⟨rfl, rfl, rfl, rfl, rfl, rfl,
          (fun hOpen => by cases hOpen),
          (fun _ _ _ hNext => by cases hNext), .inl rfl⟩
  · cases hStep

/- Closing the shares ends all answers. -/
theorem PartyOk.setShare
    (hOk : PartyOk cfg l c told s) (share : ShareAt)
    (hClosed : share.closed = true → s.pbcDone = true) :
    PartyOk cfg l c told { s with share := share } where
  closed := hClosed
  coins := hOk.coins
  finish := hOk.finish
  early := hOk.early
  pi := hOk.pi
  values := hOk.values
  store := hOk.store
  held := hOk.held
  sent := hOk.sent
  released hash hReleased :=
    (hOk.released hash hReleased).keep rfl rfl fun hHeld =>
      ⟨hHeld.cert, hHeld.values⟩

/- Coins come and go once `PBC_done` has been closed. -/
theorem PartyOk.setCoins
    (hOk : PartyOk cfg l c told s) (coins : List (Fin n))
    (hDone : s.pbcDone = true)
    (hCoins : ∀ coin ∈ coins, coin = c) :
    PartyOk cfg l c told { s with coinReady := coins } where
  closed := hOk.closed
  coins := hCoins
  finish := hOk.finish
  early hOpen := by
    rw [hDone] at hOpen
    cases hOpen
  pi := hOk.pi
  values := hOk.values
  store := hOk.store
  held := hOk.held
  sent := hOk.sent
  released hash hReleased :=
    (hOk.released hash hReleased).keep rfl rfl fun hHeld =>
      ⟨hHeld.cert, hHeld.values⟩

/- The coin is told after the answers have ended. -/
theorem PartyOk.shareStep
    (hOk : PartyOk cfg l c told s)
    (hCoin : cfg.coin l = c)
    (hStep : shareStep cfg l s = some s') :
    PartyOk cfg l c told s' := by
  have hClosed := hOk.closed
  unfold Goroutines.shareStep at hStep
  split at hStep
  · rename_i count shareReady hShare
    rw [hShare] at hClosed
    split at hStep
    · cases hStep
    · rename_i msg rest _
      rcases Option.bind_eq_some_iff.mp hStep with
        ⟨share, _, hRest⟩
      rcases Option.bind_eq_some_iff.mp hRest with
        ⟨ss, _, hRest⟩
      cases hRest
      have hTake :
          PartyOk cfg l c told { s with shareMine := rest } :=
        hOk.quiet
          ⟨rfl, rfl, rfl, rfl, rfl, rfl, id, fun _ _ _ _ => rfl,
            .inl rfl⟩
      exact hTake.setShare _ hClosed
  · rename_i count shareReady share ss hShare
    rw [hShare] at hClosed
    cases hStep
    have hAppend :
        PartyOk cfg l c told
          { s with shares := s.shares ++ [share] } :=
      hOk.quiet
        ⟨rfl, rfl, rfl, rfl, rfl, rfl, id, fun _ _ _ _ => rfl,
          .inl rfl⟩
    apply hAppend.setShare
    cases shareReady with
    | true => exact fun hPush => by cases hPush
    | false => exact fun _ => hClosed rfl
  · rename_i count ss hShare
    cases hStep
    have hPush :
        PartyOk cfg l c told
          { s with shareReady := s.shareReady ++ [ss] } :=
      hOk.quiet
        ⟨rfl, rfl, rfl, rfl, rfl, rfl, id, fun _ _ _ _ => rfl,
          .inl rfl⟩
    exact hPush.setShare _ fun hNext => by cases hNext
  · cases hStep
    have hClose :
        PartyOk cfg l c told { s with pbcDone := true } :=
      hOk.quiet
        ⟨rfl, rfl, rfl, rfl, rfl, rfl,
          (fun hOpen => by cases hOpen),
          fun _ _ _ _ => rfl, .inl rfl⟩
    exact hClose.setShare _ fun _ => rfl
  · rename_i count hShare
    rw [hShare] at hClosed
    split at hStep
    · rcases Option.map_eq_some_iff.mp hStep with
        ⟨batch, _, rfl⟩
      have hBatch :
          PartyOk cfg l c told { s with shareBatch := batch } :=
        hOk.quiet
          ⟨rfl, rfl, rfl, rfl, rfl, rfl, id, fun _ _ _ _ => rfl,
            .inl rfl⟩
      exact hBatch.setShare _ fun _ => hClosed rfl
    · cases hStep
      exact hOk.setShare _ fun _ => hClosed rfl
  · rename_i hShare
    rw [hShare] at hClosed
    cases hStep
    have hPush :
        PartyOk cfg l c told
          { s with coinReady := s.coinReady ++ [cfg.coin l] } :=
      hOk.setCoins _ (hClosed rfl)
        (List.forall_mem_append.mpr
          ⟨hOk.coins, List.forall_mem_singleton.mpr hCoin⟩)
    exact hPush.setShare _ fun _ => hClosed rfl
  · cases hStep

/- A share that is read keeps the party safe. -/
theorem PartyOk.receiveShare
    {msg : Msg}
    (hOk : PartyOk cfg l c told s)
    (hStep : receiveShare cfg l s msg = some s') :
    PartyOk cfg l c told s' := by
  rcases receiveShare_eq hStep with
    ⟨count, shareReady, share, ss, hShare, rfl⟩
  have hClosed := hOk.closed
  rw [hShare] at hClosed
  exact hOk.setShare _ hClosed

/- Once the coin is there, `PBC_done` has been closed. -/
theorem PartyOk.pbcDone
    (hOk : PartyOk cfg l c told s)
    (hLate : s.coinReady ≠ [] ∨ s.finish.early = false) :
    s.pbcDone = true := by
  by_contra hNot
  rcases hOk.early (Bool.eq_false_of_not_eq_true hNot) with
    ⟨hCoin, hEarly, _⟩
  rcases hLate with hCoins | hLate
  · exact hCoins hCoin
  · rw [hEarly] at hLate
    cases hLate

/- The next statement after the coin. -/
theorem PartyOk.setFinish
    (hOk : PartyOk cfg l c told s) (finish : FinishAt n)
    (hDone : s.pbcDone = true)
    (hCoin : ∀ coin, finish.coin? = some coin → coin = c)
    (hSafe :
      ∀ hash, Safe cfg l c told hash s →
        Safe cfg l c told hash { s with finish := finish }) :
    PartyOk cfg l c told { s with finish := finish } where
  closed := hOk.closed
  coins := hOk.coins
  finish := hCoin
  early hOpen := by
    rw [hDone] at hOpen
    cases hOpen
  pi := hOk.pi
  values := hOk.values
  store := hOk.store
  held := hOk.held
  sent := hOk.sent
  released hash hReleased :=
    hSafe hash (hOk.released hash hReleased)

/- The prevote has not been chosen yet. -/
theorem PartyOk.wait
    (hOk : PartyOk cfg l c told s) (finish : FinishAt n)
    (hWaits : finish.waits = true)
    (hDone : s.pbcDone = true)
    (hBefore : ∀ coin, s.finish ≠ .after coin)
    (hCoin : ∀ coin, finish.coin? = some coin → coin = c) :
    PartyOk cfg l c told { s with finish := finish } := by
  apply hOk.setFinish finish hDone hCoin
  intro hash hSafe
  rcases hSafe.before hBefore with ⟨hHeld, hNoPrev⟩
  exact safe_of_waits hWaits ⟨hHeld.cert, hHeld.values⟩ hNoPrev

/- The prevote is sent as it has been chosen. -/
theorem PartyOk.postPrev
    {coin : Fin n} {prev : Option Bytes} {packet : Packet n}
    (hOk : PartyOk cfg l c told s)
    (hFinish : s.finish = .send coin prev)
    (hNot : ∀ hash, ¬ IsShare cfg l c hash packet.msg)
    (hGood :
      ∀ hash values, Held cfg l c told hash s →
        prev = some values → Suits cfg l c told hash values →
          Good cfg l c told hash packet.msg) :
    PartyOk cfg l c told
      ({ s with finish := .after coin }.post packet) := by
  have hDone : s.pbcDone = true :=
    hOk.pbcDone (.inr (by rw [hFinish]; rfl))
  have hOld :
      ∀ last ∈ s.sent ++ [packet], ∀ hash,
        IsShare cfg l c hash last.msg → last ∈ s.sent := by
    intro last hMem hash hShare
    rcases List.mem_append.mp hMem with hOld | hNew
    · exact hOld
    · cases List.mem_singleton.mp hNew
      exact absurd hShare (hNot hash)
  constructor
  · exact hOk.closed
  · exact hOk.coins
  · intro coin' hCoin
    apply hOk.finish coin'
    rw [hFinish]
    exact hCoin
  · intro hOpen
    cases hDone.symm.trans hOpen
  · exact hOk.pi
  · intro hOpen
    cases hDone.symm.trans hOpen
  · exact hOk.store
  · intro hOpen
    cases hDone.symm.trans hOpen
  · intro last hMem hash hShare
    exact
      hOk.sent last (hOld last hMem hash hShare) hash hShare
  · intro hash hReleased
    have hBefore : Released cfg l c hash s := by
      rcases hReleased with hSend | ⟨last, hMem, hShare⟩
      · exact .inl hSend
      · exact .inr ⟨last, hOld last hMem hash hShare, hShare⟩
    have hSafe := hOk.released hash hBefore
    unfold Safe at hSafe
    rw [hFinish] at hSafe
    rcases hSafe with
      ⟨⟨hHeld, hNoPrev⟩, values, hPrev, hSuits⟩
    refine List.forall_mem_append.mpr ⟨?_, ?_⟩
    · intro last hMem hIsPrev
      exact absurd hIsPrev (hNoPrev last hMem)
    · exact
        List.forall_mem_singleton.mpr fun _ =>
          hGood hash values hHeld hPrev hSuits

/- The prevote is for what is held. -/
theorem PartyOk.finishStep
    {oldProof : List Proof}
    (hOk : PartyOk cfg l c told s)
    (hStep : finishStep cfg l p s oldProof = some s') :
    PartyOk cfg l c told s' := by
  have hLate (hEarly : s.finish.early = false) :
      s.pbcDone = true := hOk.pbcDone (.inr hEarly)
  have hCoin := hOk.finish
  unfold Goroutines.finishStep at hStep
  split at hStep
  · rename_i hFinish
    split at hStep
    · cases hStep
    · rename_i coin rest hCoins
      cases hStep
      have hAll := hOk.coins
      rw [hCoins] at hAll
      have hDone : s.pbcDone = true :=
        hOk.pbcDone (.inl (by rw [hCoins]; simp))
      have hTake :
          PartyOk cfg l c told { s with coinReady := rest } :=
        hOk.setCoins rest hDone
          (List.forall_mem_cons.mp hAll).2
      refine hTake.wait (.pis coin) rfl hDone ?_ ?_
      · rw [hFinish]
        simp
      · intro coin' hSome
        cases hSome
        exact (List.forall_mem_cons.mp hAll).1
  · rename_i coin hFinish
    rw [hFinish] at hCoin hLate
    cases hStep
    split
    · exact
        hOk.wait (.halt coin) rfl (hLate rfl)
          (by rw [hFinish]; simp) hCoin
    · exact
        hOk.wait (.sigmas coin) rfl (hLate rfl)
          (by rw [hFinish]; simp) hCoin
  · rename_i coin hFinish
    rw [hFinish] at hLate
    split at hStep
    · cases hStep
      exact
        hOk.wait .done rfl (hLate rfl) (by rw [hFinish]; simp)
          fun _ hSome => by cases hSome
    · cases hStep
      have hPost :
          PartyOk cfg l c told
            ({ s with mvbaDone := true }.post
              (broadcast p
                { rawMsg :=
                    cfg.rawMsg .halt coin (s.inputs coin) l
                  ss := some (s.pis coin)
                  ss2 := some s.shareBatch })) :=
        hOk.quiet
          ⟨rfl, rfl, rfl, rfl, rfl, rfl, id,
            fun _ _ _ _ => rfl,
            .inr
              ⟨_, rfl, silent_of_type .halt rfl (by decide)⟩⟩
      exact
        hPost.wait .done rfl (hLate rfl)
          (by intro coin' h; cases hFinish.symm.trans h)
          fun _ hSome => by cases hSome
  · rename_i coin hFinish
    rw [hFinish] at hCoin hLate
    cases hStep
    split
    · exact
        hOk.wait (.values coin) rfl (hLate rfl)
          (by rw [hFinish]; simp) hCoin
    · rename_i hFew
      apply hOk.setFinish (.check coin none) (hLate rfl) hCoin
      intro hash hSafe
      rcases hSafe.before (by rw [hFinish]; simp) with
        ⟨hHeld, _⟩
      rw [hCoin coin rfl] at hFew
      exact absurd hHeld.cert.2.1 hFew
  · rename_i coin hFinish
    rw [hFinish] at hCoin hLate
    cases hStep
    apply
      hOk.setFinish (.check coin (some (s.inputs coin)))
        (hLate rfl) hCoin
    intro hash hSafe
    rcases hSafe.before (by rw [hFinish]; simp) with
      ⟨hHeld, hNoPrev⟩
    refine
      ⟨⟨⟨hHeld.cert, hHeld.values⟩, hNoPrev⟩, _, rfl, ?_⟩
    rw [hCoin coin rfl]
    exact hHeld.values
  · rename_i coin prev hFinish
    rw [hFinish] at hCoin hLate
    cases hStep
    split
    · exact
        hOk.wait .done rfl (hLate rfl) (by rw [hFinish]; simp)
          fun _ hSome => by cases hSome
    · apply hOk.setFinish (.send coin prev) (hLate rfl) hCoin
      intro hash hSafe
      unfold Safe at hSafe
      rw [hFinish] at hSafe
      rcases hSafe with ⟨⟨hHeld, hNoPrev⟩, hPrev⟩
      exact ⟨⟨⟨hHeld.cert, hHeld.values⟩, hNoPrev⟩, hPrev⟩
  · rename_i coin prev hFinish
    rw [hFinish] at hCoin
    cases hStep
    apply hOk.postPrev hFinish
    · intro hash hShare
      have hType := congrArg RawMsg.type hShare
      cases prev with
      | none => cases hType
      | some values => cases hType
    · intro hash values hHeld hPrev hSuits
      cases hPrev
      rw [hCoin coin rfl]
      exact ⟨rfl, _, rfl, hHeld.cert, hSuits⟩
  · cases hStep

/- What is stored for the coin later is not read again. -/
theorem PartyOk.voteStep
    {values : Bytes} {batch : BatchSignature}
    (hOk : PartyOk cfg l c told s)
    (hStep : voteStep s values batch = some s') :
    PartyOk cfg l c told s' := by
  unfold Goroutines.voteStep at hStep
  split at hStep
  · rename_i coin hFinish
    have hDone : s.pbcDone = true :=
      hOk.pbcDone (.inr (by rw [hFinish]; rfl))
    cases hStep
    constructor
    · exact hOk.closed
    · exact hOk.coins
    · exact hOk.finish
    · exact hOk.early
    · exact hOk.pi
    · intro hOpen
      cases hDone.symm.trans hOpen
    · exact hOk.store
    · intro hOpen
      cases hDone.symm.trans hOpen
    · exact hOk.sent
    · intro hash hReleased
      have hSafe := hOk.released hash hReleased
      unfold Safe at hSafe ⊢
      rw [hFinish] at hSafe ⊢
      exact hSafe
  · cases hStep

/- The index of a number is its party. -/
theorem id_of_index
    {number : Int} {leader : Fin n}
    (hIndex : index n number = some leader) :
    number = leader.val + 1 := by
  unfold index at hIndex
  split at hIndex
  · cases hIndex
    dsimp only
    omega
  · cases hIndex

/- Every genuine step keeps the party safe. -/
theorem PartyOk.step
    {t : Fin n → Loop n} {a : Action n}
    (hOther : p ≠ c) (hCoin : cfg.coin l = c)
    (hLeader : LeaderOk cfg l c (t c))
    (hOk : PartyOk cfg l c (t c).sent (t p))
    (hGenuine : Genuine c t (p, a))
    (hStep : step cfg l p (t p) a = some s') :
    PartyOk cfg l c (t c).sent s' := by
  cases a with
  | pbc leader =>
      by_cases hIs : leader = c
      · cases hIs
        exact hOk.pbcStep hStep
      · exact hOk.quiet (quiet_pbc hIs hStep)
  | mine => exact hOk.quiet (quiet_mine hOther hStep)
  | pi => exact hOk.piStep hStep
  | send => exact hOk.quiet (quiet_send hStep)
  | share => exact hOk.shareStep hCoin hStep
  | finish oldProof => exact hOk.finishStep hStep
  | vote values batch => exact hOk.voteStep hStep
  | receive oldCoins msg =>
      rcases receive_cases hStep with
        ⟨leader, hPBC1⟩ | hPBC2 |
          ⟨leader, hType, hIndex, hPBC3⟩ | hPBC4 |
          ⟨hType, hPi⟩ | hShare
      · by_cases hIs : leader = c
        · cases hIs
          exact hOk.receivePBC1 hPBC1
        · exact hOk.quiet (quiet_receivePBC1 hIs hPBC1)
      · exact hOk.quiet (quiet_receivePBC2 hPBC2)
      · by_cases hIs : leader = c
        · cases hIs
          have hTold :=
            hGenuine (.inl hType) (id_of_index hIndex)
          refine hOk.receivePBC3 hType hTold ?_ hPBC3
          exact fun packet hMem hPacket =>
            (hLeader.pbc3 packet hMem hPacket).2
        · exact hOk.quiet (quiet_receivePBC3 hIs hPBC3)
      · exact hOk.quiet (quiet_receivePBC4 hPBC4)
      · exact
          hOk.receivePi hType
            (fun hIndex =>
              hGenuine (.inr hType) (id_of_index hIndex))
            hPi
      · exact hOk.receiveShare hShare
  | halt =>
      cases hStep
      exact
        hOk.quiet
          ⟨rfl, rfl, rfl, rfl, rfl, rfl, id, fun _ _ _ _ => rfl,
            .inl rfl⟩

end PartySteps

end Goroutines

end SpeedingMVBA

end Jumbo
