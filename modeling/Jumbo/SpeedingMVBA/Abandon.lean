import Jumbo.SpeedingMVBA.Prevote

/-
  The last share for the party that the coin names.

  In every run of a loop, a party that has sent its PBC4 share
  for that party has a prevote yes for it.

  Main declarations:
    * `RunOk` and `runOk`
    * `Binds`
    * `share_abandons`
-/

------------------------------------------------------------
-- Runs
------------------------------------------------------------

namespace Jumbo

namespace SpeedingMVBA

namespace Goroutines

open Crypto (Bytes)
open Protocol
open Struct

variable {n : Nat}

section PartyRuns

variable {cfg : Config n} {l : Nat} {c p : Fin n}
variable {told told' : List (Packet n)} {s s' : Loop n}

/- More messages keep a certificate. -/
theorem Certifies.mono
    {hash : Bytes} {batch : BatchSignature}
    (hSub : told ⊆ told')
    (hCert : Certifies cfg l c told hash batch) :
    Certifies cfg l c told' hash batch := by
  rcases hCert with ⟨hVerify, hMems, packet, hMem, hPacket⟩
  exact ⟨hVerify, hMems, packet, hSub hMem, hPacket⟩

/- More messages keep where values come from. -/
theorem FromPi.mono
    {values : Bytes} (hSub : told ⊆ told')
    (hFrom : FromPi cfg l c told values) :
    FromPi cfg l c told' values := by
  rcases hFrom with ⟨packet, hMem, hPacket⟩
  exact ⟨packet, hSub hMem, hPacket⟩

/- More messages keep values suitable. -/
theorem Suits.mono
    {hash values : Bytes} (hSub : told ⊆ told')
    (hSuits : Suits cfg l c told hash values) :
    Suits cfg l c told' hash values :=
  hSuits.imp_right (FromPi.mono hSub)

/- More messages keep a hash held. -/
theorem Held.mono
    {hash : Bytes} (hSub : told ⊆ told')
    (hHeld : Held cfg l c told hash s) :
    Held cfg l c told' hash s :=
  ⟨hHeld.cert.mono hSub, hHeld.values.mono hSub⟩

/- More messages keep a message good. -/
theorem Good.mono
    {hash : Bytes} {msg : Msg} (hSub : told ⊆ told')
    (hGood : Good cfg l c told hash msg) :
    Good cfg l c told' hash msg := by
  rcases hGood with ⟨hType, batch, hSS, hCert, hSuits⟩
  exact ⟨hType, batch, hSS, hCert.mono hSub, hSuits.mono hSub⟩

/- More messages keep a party safe. -/
theorem Safe.mono
    {hash : Bytes} (hSub : told ⊆ told')
    (hSafe : Safe cfg l c told hash s) :
    Safe cfg l c told' hash s := by
  unfold Safe at hSafe ⊢
  split at hSafe
  · exact fun packet hMem hPrev =>
      (hSafe packet hMem hPrev).mono hSub
  · rcases hSafe with
      ⟨⟨hHeld, hNoPrev⟩, values, hPrev, hSuits⟩
    exact
      ⟨⟨hHeld.mono hSub, hNoPrev⟩, values, hPrev,
        hSuits.mono hSub⟩
  · rcases hSafe with
      ⟨⟨hHeld, hNoPrev⟩, values, hPrev, hSuits⟩
    exact
      ⟨⟨hHeld.mono hSub, hNoPrev⟩, values, hPrev,
        hSuits.mono hSub⟩
  · exact ⟨hSafe.1.mono hSub, hSafe.2⟩

/- What `c` has told stays told. -/
theorem PartyOk.mono
    (hSub : told ⊆ told') (hOk : PartyOk cfg l c told s) :
    PartyOk cfg l c told' s where
  closed := hOk.closed
  coins := hOk.coins
  finish := hOk.finish
  early := hOk.early
  pi values batch okSign hPi :=
    (hOk.pi values batch okSign hPi).mono hSub
  values hOpen hash hHash :=
    (hOk.values hOpen hash hHash).mono hSub
  store hash batch hStore :=
    (hOk.store hash batch hStore).mono hSub
  held hOpen hash hCheck :=
    (hOk.held hOpen hash hCheck).mono hSub
  sent := hOk.sent
  released hash hReleased :=
    (hOk.released hash hReleased).mono hSub

/- What holds of all parties in a run of the loop. -/
structure RunOk
    (cfg : Config n) (l : Nat) (c : Fin n)
    (s : Fin n → Loop n) : Prop where
  leader : LeaderOk cfg l c (s c)
  party :
    ∀ p, p ≠ c → PartyOk cfg l c (s c).sent (s p)

/- In every genuine run all parties are safe. -/
theorem runOk
    {input : Fin n → Bytes} {s : Fin n → Loop n}
    (hCoin : cfg.coin l = c)
    (hReach :
      (machine cfg l input).ReachableBy (Genuine c) s) :
    RunOk cfg l c s := by
  refine Machine.ReachableBy.invariant _ ?_ ?_ hReach
  · exact
      ⟨leaderOk_new _, fun p hOther => partyOk_new hOther _⟩
  · intro s a s' _ hOk hGenuine hExec
    rcases a with ⟨id, a⟩
    rcases Option.map_eq_some_iff.mp hExec with
      ⟨after, hStep, rfl⟩
    by_cases hId : id = c
    · cases hId
      have hSub := sent_subset hOk.leader.done hStep
      constructor
      · rw [Function.update_self]
        exact hOk.leader.step hStep
      · intro p hOther
        rw [Function.update_self, Function.update_of_ne hOther]
        exact (hOk.party p hOther).mono hSub
    · constructor
      · rw [Function.update_of_ne (Ne.symm hId)]
        exact hOk.leader
      · intro p hOther
        rw [Function.update_of_ne (Ne.symm hId)]
        by_cases hP : p = id
        · cases hP
          rw [Function.update_self]
          exact
            PartyOk.step hId hCoin hOk.leader
              (hOk.party id hId) hGenuine hStep
        · rw [Function.update_of_ne hP]
          exact hOk.party p hOther

/- What a safe party sends is good. -/
theorem Safe.good
    {hash : Bytes} {packet : Packet n}
    (hSafe : Safe cfg l c told hash s)
    (hMem : packet ∈ s.sent) (hPrev : IsPrev packet.msg) :
    Good cfg l c told hash packet.msg := by
  by_cases hAfter : ∃ coin, s.finish = .after coin
  · rcases hAfter with ⟨coin, hFinish⟩
    unfold Safe at hSafe
    rw [hFinish] at hSafe
    exact hSafe packet hMem hPrev
  · have hNoPrev :=
      (hSafe.before fun coin hFinish =>
        hAfter ⟨coin, hFinish⟩).2
    exact absurd hPrev (hNoPrev packet hMem)

/- A batch that `c` has assembled is for no other hash. -/
def Binds (cfg : Config n) (l : Nat) (c : Fin n) : Prop :=
  ∀ hash hash' batch, Assembled cfg l c hash batch →
    verifySigns cfg (cfg.marshal (cfg.rawMsg .pbc4 c hash' l))
        batch = some true →
      hash' = hash

/- The values of a Pi are those that `c` has told the hash of. -/
theorem LeaderOk.suits
    {leader : Loop n} {hash values : Bytes}
    {batch : BatchSignature}
    (hOk : LeaderOk cfg l c leader)
    (hBinds : Binds cfg l c)
    (hCert : Certifies cfg l c leader.sent hash batch)
    (hSuits : Suits cfg l c leader.sent hash values) :
    cfg.sha values = hash := by
  rcases hSuits with hSame | ⟨packet, hMem, hType, hFrom⟩
  · exact hSame
  · rcases hFrom with ⟨piBatch, hSS, hVerify⟩
    rcases hOk.pi packet hMem hType with
      ⟨piBatch', hSS', hAssembled⟩
    cases hSS.symm.trans hSS'
    rcases hCert with ⟨_, _, told, hTold, hPbc3, hHash⟩
    rw [← hHash, (hOk.pbc3 told hTold hPbc3).1]
    exact hBinds _ _ _ hAssembled hVerify

/-
  Once the share for the coin's party has been sent, in any
  order of the goroutines, a prevote is a yes with a combined
  signature for the hash of the share. Where the batches of
  that party bind it, the values of the prevote have that
  hash.
-/
theorem share_abandons
    {cfg : Config n} {l : Nat} {c : Fin n}
    {input : Fin n → Bytes} {s : Fin n → Loop n}
    (hCoin : cfg.coin l = c)
    (hReach :
      (machine cfg l input).ReachableBy (Genuine c) s)
    {p : Fin n} {share prev : Packet n} {hash : Bytes}
    (hShare : share ∈ (s p).sent)
    (hIsShare : share.msg.rawMsg = cfg.rawMsg .pbc4 c hash l)
    (hPrev : prev ∈ (s p).sent)
    (hIsPrev :
      prev.msg.rawMsg.type = .prevYes ∨
        prev.msg.rawMsg.type = .prevNo) :
    prev.msg.rawMsg.type = .prevYes ∧
      (∃ batch, prev.msg.ss = some batch ∧
        maxCount n ≤ batch.mems.length ∧
          verifySigns cfg
              (cfg.marshal (cfg.rawMsg .pbc2 c hash l))
              batch = some true) ∧
        (Binds cfg l c →
          cfg.sha prev.msg.rawMsg.values = hash) := by
  have hOk := runOk hCoin hReach
  by_cases hOwn : p = c
  · cases hOwn
    have hId := hOk.leader.unshared share hShare
    rw [hIsShare] at hId
    exact absurd rfl (hId rfl)
  · have hSafe :=
      (hOk.party p hOwn).released hash
        (.inr ⟨share, hShare, hIsShare⟩)
    rcases hSafe.good hPrev hIsPrev with
      ⟨hType, batch, hSS, hCert, hSuits⟩
    exact
      ⟨hType, ⟨batch, hSS, hCert.2.1, hCert.1⟩, fun hBinds =>
        hOk.leader.suits hBinds hCert hSuits⟩

end PartyRuns

------------------------------------------------------------
-- Two Parties
------------------------------------------------------------

section Pair

/- Whether the messages under the number of `c` are its own. -/
def isGenuine
    (c : Fin n) (s : Fin n → Loop n) :
    Fin n × Action n → Bool
| (_, .receive _ msg) =>
    decide
      (msg.rawMsg.type = .pbc3 ∨ msg.rawMsg.type = .pi →
        msg.rawMsg.id = c.val + 1 →
          ∃ packet ∈ (s c).sent, packet.msg = msg)
| _ => true

/- The check says that a step is genuine. -/
theorem genuine_of_isGenuine
    {c : Fin n} {s : Fin n → Loop n} {a : Fin n × Action n}
    (hIs : isGenuine c s a = true) : Genuine c s a := by
  rcases a with ⟨id, a⟩
  cases a with
  | receive oldCoins msg =>
      unfold isGenuine at hIs
      have hGenuine := of_decide_eq_true hIs
      exact hGenuine
  | pbc _ | mine | pi | send | share | finish _ | vote _ _
  | halt => trivial

/- A signature is what is signed; the coin is party 1. -/
def pairConfig : Config 2 where
  pos := Nat.two_pos
  prim :=
    { verify := fun _ _ _ => false
      aggregateSign := fun _ _ _ => none
      aggregateVerify := fun _ _ _ => false
      blsVerify := fun _ sign msg => some (decide (sign = msg))
      blsAggregate := List.head?
      fastAggregateVerify := fun signs _ msg =>
        some (decide (signs = msg))
      verifyAggregateHashes := fun _ _ _ => none }
  type := .bls
  sign := fun _ msg => msg
  sha := fun bytes => bytes
  marshal := fun msg =>
    UInt8.ofNat msg.type.ctorIdx ::
      UInt8.ofNat msg.id.toNat :: UInt8.ofNat msg.loop ::
        msg.values
  round := 0
  mvbaRound := 0
  rbc := false
  checkInput := fun _ => true

/- A signature is the message that was signed. -/
theorem pairConfig_content
    {msg : Bytes} {got : Signature}
    (hVerify : verifySign pairConfig msg got = some true) :
    got.content = msg := by
  unfold verifySign at hVerify
  rcases Option.bind_eq_some_iff.mp hVerify with ⟨_, _, hBls⟩
  exact of_decide_eq_true (Option.some.inj hBls)

/- A batch is the first of its signatures. -/
theorem pairConfig_binds : Binds pairConfig 0 1 := by
  intro hash hash' batch hAssembled hVerify
  rcases hAssembled with ⟨signs, hChecked, hBatch⟩
  rcases Option.map_eq_some_iff.mp hBatch with
    ⟨content, hContent, rfl⟩
  have hOwn :
      content =
        pairConfig.marshal
          (pairConfig.rawMsg .pbc4 1 hash 0) := by
    change
      (if _ then List.head? (List.take _ _) else none) =
        some content at hContent
    rw [if_pos (by simp), List.take_of_length_le (by simp)]
      at hContent
    cases signs with
    | nil => exact (Option.some.inj hContent).symm
    | cons got rest =>
        cases hContent
        exact
          pairConfig_content
            (hChecked got List.mem_cons_self)
  have hOther :
      content =
        pairConfig.marshal
          (pairConfig.rawMsg .pbc4 1 hash' 0) := by
    unfold verifySigns Crypto.batchSignatureVerify at hVerify
    dsimp only [pairConfig] at hVerify
    split at hVerify
    · cases hVerify
    · exact of_decide_eq_true (Option.some.inj hVerify)
  have hMarshal := hOther.symm.trans hOwn
  exact
    (List.cons.inj
      (List.cons.inj (List.cons.inj hMarshal).2).2).2

/- The share of party 1. -/
def pairShare : Msg where
  rawMsg := pairConfig.rawMsg .share 1 [] 0
  sign := some (sign pairConfig 1 (pairConfig.share 0))
  ss := some ⟨pairConfig.tagged 0 .ok, [1, 2]⟩

/-
  Party 0 sends its share for party 1, then its prevote.
-/
def pairRun : List (Fin 2 × Action 2) :=
  let pbc1 : Msg := { rawMsg := pairConfig.rawMsg .pbc1 1 [7] 0 }
  let pbc2 := pairConfig.rawMsg .pbc2 1 [7] 0
  let pbc2Sign := sign pairConfig 0 (pairConfig.marshal pbc2)
  let batch :=
    batchSign pairConfig (pairConfig.marshal pbc2)
      [pbc2Sign, sign pairConfig 1 (pairConfig.marshal pbc2)]
  let pbc3 : Msg :=
    { rawMsg := pairConfig.rawMsg .pbc3 1 [7] 0
      ss := batch }
  ([(1, .mine), (0, .receive [] pbc1)]
    : List (Fin 2 × Action 2)) ++
  (List.replicate 3 (0, .pbc 1) : List (Fin 2 × Action 2)) ++
  ([(1, .receive [] { rawMsg := pbc2, sign := some pbc2Sign })]
    : List (Fin 2 × Action 2)) ++
  (List.replicate 3 (1, .mine) : List (Fin 2 × Action 2)) ++
  ([(0, .receive [] pbc3)] : List (Fin 2 × Action 2)) ++
  (List.replicate 3 (0, .pbc 1) : List (Fin 2 × Action 2)) ++
  ([(0, .receive [] pairShare)] : List (Fin 2 × Action 2)) ++
  (List.replicate 4 (0, .share) : List (Fin 2 × Action 2)) ++
  ([(0, .receive [] pairShare)] : List (Fin 2 × Action 2)) ++
  (List.replicate 3 (0, .share) : List (Fin 2 × Action 2)) ++
  (List.replicate 6 (0, .finish []) : List (Fin 2 × Action 2))

/- The inputs of two parties. -/
def pairInput (id : Fin 2) : Bytes :=
  [UInt8.ofNat (id.val + 6)]

/- Where their run ends. -/
def pairState : Fin 2 → Loop 2 :=
  (machine pairConfig 0 pairInput).drive (isGenuine 1)
    (machine pairConfig 0 pairInput).init pairRun

/- Party 0 has sent a share and a prevote. -/
theorem pairState_sent :
    (pairState 0).sent.map (·.msg.rawMsg) =
      [pairConfig.rawMsg .pbc2 1 [7] 0,
        pairConfig.rawMsg .pbc4 1 [7] 0,
        pairConfig.rawMsg .prevYes 0 [7] 0] := by
  decide +kernel

/- The other party votes for the coin's input there. -/
theorem share_abandons_pair :
    ∃ prev ∈ (pairState 0).sent,
      prev.msg.rawMsg.type = .prevYes ∧
        prev.msg.rawMsg.values = [7] ∧
          ∃ batch, prev.msg.ss = some batch ∧
            verifySigns pairConfig
                (pairConfig.marshal
                  (pairConfig.rawMsg .pbc2 1 [7] 0))
                batch = some true := by
  have hReach :
      (machine pairConfig 0 pairInput).ReachableBy
        (Genuine 1) pairState :=
    (Machine.ReachableBy.drive .init pairRun).mono
      fun _ _ => genuine_of_isGenuine
  have hMem (i : Nat) (rawMsg : RawMsg)
      (hAt :
        ((pairState 0).sent.map (·.msg.rawMsg))[i]? =
          some rawMsg) :
      ∃ packet ∈ (pairState 0).sent,
        packet.msg.rawMsg = rawMsg :=
    List.mem_map.mp (List.mem_of_getElem? hAt)
  rcases hMem 1 _ (by rw [pairState_sent]; rfl) with
    ⟨share, hShare, hIsShare⟩
  rcases hMem 2 _ (by rw [pairState_sent]; rfl) with
    ⟨prev, hPrev, hIsPrev⟩
  have hAbandons :=
    share_abandons (by decide) hReach hShare hIsShare hPrev
      (by rw [hIsPrev]; exact .inl rfl)
  rcases hAbandons with
    ⟨hType, ⟨batch, hSS, _, hVerify⟩, hValues⟩
  exact
    ⟨prev, hPrev, hType, hValues pairConfig_binds, batch, hSS,
      hVerify⟩

end Pair

end Goroutines

end SpeedingMVBA

end Jumbo
