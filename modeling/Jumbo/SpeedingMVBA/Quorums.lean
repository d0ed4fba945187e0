import Jumbo.SpeedingMVBA.Parties

/-
  Certificates and the quorums behind them.

  Every message may be handed to a party. A certificate is
  checked for the members that it names, however few or
  often, and signatures are collected without a look at who
  has sent one before. The invariant says what a party has
  collected when what it reads names enough parties, and
  nobody twice.

  Main declarations:
    * `Backed` and `Collected`
    * `enough`, `fresh` and `quorumMsg`
    * `Ideal` and `quorate`
    * `LoopQuorums` and `PartyQuorums`
-/

------------------------------------------------------------
-- Quorums of Signers
------------------------------------------------------------

namespace Jumbo

namespace SpeedingMVBA

open Crypto (Bytes)
open Struct

variable {n : Nat}

/- More than two thirds of the parties have signed. -/
def Backed
    (signed : Fin n → Bytes → Prop) (bytes : Bytes) : Prop :=
  ∃ signers : Finset (Fin n),
    maxCount n < signers.card ∧
      ∀ j ∈ signers, signed j bytes

section Lists

variable (cfg : Config n) (id : Fin n)
variable (signed : Fin n → Bytes → Prop) (bytes : Bytes)

/- A signature of the party itself, or of one that signed. -/
def Vouched (sign : Signature) : Prop :=
  sign = SpeedingMVBA.sign cfg id bytes ∨
    ∃ j, j ≠ id ∧ Crypto.key n sign.id = some j ∧
      signed j bytes

/- Signatures of different parties on one string. -/
structure Listed (signs : List Signature) : Prop where
  vouched :
    ∀ sign ∈ signs, Vouched cfg id signed bytes sign
  distinct :
    (signs.map fun sign => Crypto.key n sign.id).Nodup

/-
  A certificate put together from the signatures of more than
  two thirds of the parties.
-/
def Collected (cert : Cert) : Prop :=
  ∃ signs,
    batchSign cfg cert.1 signs = some cert.2 ∧
      maxCount n < signs.length ∧
        Listed cfg id signed cert.1 signs

end Lists

end SpeedingMVBA

end Jumbo

------------------------------------------------------------
-- The Condition
------------------------------------------------------------

namespace Jumbo

namespace SpeedingMVBA

open Crypto (Bytes)
open Struct

variable {n : Nat}

/- The certificate names more than two thirds of the parties. -/
def enough (n : Nat) (batch : BatchSignature) : Bool :=
  decide
    (maxCount n <
      (batch.mems.filterMap (Crypto.key n)).toFinset.card)

/- A signature of another party than those counted so far. -/
def fresh
    (id : Fin n) (signs : List Signature) (sign : Signature) :
    Bool :=
  decide (Crypto.key n sign.id ≠ some id) &&
    signs.all fun old =>
      decide (Crypto.key n old.id ≠ Crypto.key n sign.id)

/- A vote that is counted is for these bytes as well. -/
def sameVote
    (cfg : Config n) (id : Fin n) (bytes : Bytes)
    (old : Signature) : Bool :=
  decide (old = sign cfg id bytes) ||
    (decide (Crypto.key n old.id ≠ some id) &&
      decide (verifySign cfg bytes old = some true))

/-
  What is asked of a message: a certificate in it that the
  party looks at names enough parties, a signature in it that
  the party counts is of another party than those counted,
  and a vote yes is for the values of the votes yes before.
-/
def quorumMsg
    (cfg : Config n) (id : Fin n) (m : MVBA n) (msg : Msg) :
    Bool :=
  let l := msg.rawMsg.loop
  let li := m.loops l
  match msg.rawMsg.type with
  | .pbc1 =>
      decide (l = 0) ||
        msg.oldProof.all fun proof =>
          proof.batchSigns.all (enough n)
  | .pbc2 =>
      match li.mine with
      | .wait2 _ signs => msg.sign.all (fresh id signs)
      | _ => true
  | .pbc3 => msg.ss.all (enough n)
  | .pbc4 =>
      match li.mine with
      | .wait4 _ signs => msg.sign.all (fresh id signs)
      | _ => true
  | .pi => msg.ss.all (enough n) && msg.sign.all (fresh id li.ok)
  | .share =>
      msg.ss.all (enough n) && msg.sign.all (fresh id li.shares)
  | .prevYes =>
      match li.finish with
      | .prev coin false _ _ =>
          let bytes :=
            cfg.marshal
              (cfg.rawMsg .pbc2 coin
                (cfg.sha msg.rawMsg.values) l)
          msg.ss.all fun batch =>
            enough n batch ||
              decide (verifySigns cfg bytes batch ≠ some true)
      | _ => true
  | .prevNo =>
      match li.finish with
      | .prev _ false noCombins _ =>
          msg.sign.all (fresh id noCombins)
      | _ => true
  | .voteYes =>
      match li.finish with
      | .vote coin yes _ =>
          let bytes :=
            cfg.marshal
              (cfg.rawMsg .pbc4 coin
                (cfg.sha msg.rawMsg.values) l)
          msg.ss.all (enough n) && msg.sign.all (fresh id yes) &&
            yes.all (sameVote cfg id bytes)
      | _ => true
  | .voteNo =>
      match li.finish with
      | .vote _ _ no =>
          msg.ss.all (enough n) && msg.sign.all (fresh id no)
      | _ => true
  | .halt => msg.ss.all (enough n) && msg.ss2.all (enough n)

/-
  Nothing that the message brings verifies for a party that
  has not signed.
-/
structure Authentic
    (cfg : Config n) (signed : Fin n → Bytes → Prop)
    (msg : Msg) : Prop where
  sign :
    ∀ sign, msg.sign = some sign →
      Crypto.Genuine cfg.prim signed sign.content
  ss :
    ∀ batch, msg.ss = some batch →
      Crypto.Genuine cfg.prim signed batch.signs
  ss2 :
    ∀ batch, msg.ss2 = some batch →
      Crypto.Genuine cfg.prim signed batch.signs
  oldProof :
    ∀ proof ∈ msg.oldProof, ∀ batch,
      proof.batchSigns = some batch →
        Crypto.Genuine cfg.prim signed batch.signs

/- Signatures are ideal in a step. -/
def Ideal
    (cfg : Config n) (signed : Fin n → Bytes → Prop)
    (s : Parties n) (a : PartiesAction n) : Prop :=
  ∀ id msg, s.actor a = some (id, .receive msg) →
    Authentic cfg signed msg

/- Every message that is read is one of quorums. -/
def quorate
    (cfg : Config n) (s : Parties n)
    (a : PartiesAction n) : Bool :=
  (s.actor a).all fun (id, a) =>
    match a with
    | .receive msg => quorumMsg cfg id (s.party id) msg
    | _ => true

end SpeedingMVBA

end Jumbo

------------------------------------------------------------
-- The Invariant
------------------------------------------------------------

namespace Jumbo

namespace SpeedingMVBA

open Crypto (Bytes)
open Struct

variable {n : Nat}
variable (cfg : Config n) (id : Fin n)
variable (signed : Fin n → Bytes → Prop)

/- Signatures of other parties only. -/
def Foreign (id : Fin n) (signs : List Signature) : Prop :=
  ∀ sign ∈ signs, Crypto.key n sign.id ≠ some id

/- What `handle_mine_PBC` has collected. -/
def MineQuorums (l : Nat) : MinePBC → Prop
| .wait2 hash signs =>
    Foreign id signs ∧
      Listed cfg id signed
        (cfg.marshal (cfg.rawMsg .pbc2 id hash l)) signs
| .wait4 hash signs =>
    Foreign id signs ∧
      Listed cfg id signed
        (cfg.marshal (cfg.rawMsg .pbc4 id hash l)) signs
| _ => True

/- The own vote, or one that can be checked again. -/
def Voted (sign : Signature) : Prop :=
  (∃ bytes, sign = SpeedingMVBA.sign cfg id bytes) ∨
    Crypto.Genuine cfg.prim signed sign.content

/- What `handle_finish` has collected. -/
def FinishQuorums (l : Nat) : Finish n → Prop
| .prev _ yesFlag noCombins prevCount =>
    yesFlag = false →
      noCombins.length = prevCount + 1 ∧
        Listed cfg id signed (cfg.tagged l .prevno) noCombins
| .vote _ yes no =>
    (2 ≤ n → yes.length + no.length ≤ maxCount n) ∧
      (∀ sign ∈ yes, Voted cfg id signed sign) ∧
        (yes.map fun sign => Crypto.key n sign.id).Nodup ∧
          Listed cfg id signed (cfg.tagged l .voteno) no
| _ => True

/- What a loop has collected. -/
structure LoopQuorums (l : Nat) (li : LoopInfo n) : Prop where
  mine : MineQuorums cfg id signed l li.mine
  ok : Listed cfg id signed (cfg.tagged l .ok) li.ok
  okCount : li.ok.length = li.piCount
  -- the own OK is counted when the own broadcast is done
  okOwn : li.mine = .done ∨ Foreign id li.ok
  shares : Listed cfg id signed (cfg.share l) li.shares
  -- so is the own share, once it has been sent
  unsent : li.sendsShare = true →
    li.shareMine = none ∧ Foreign id li.shares
  shareMine :
    ∀ msg, li.shareMine = some msg →
      msg.sign = some (SpeedingMVBA.sign cfg id (cfg.share l)) ∧
        Foreign id li.shares
  finish : FinishQuorums cfg id signed l li.finish

/- What a party has collected, and the halt it looks at. -/
structure PartyQuorums (m : MVBA n) : Prop where
  loops : ∀ l, LoopQuorums cfg id signed l (m.loops l)
  halt :
    ∀ msg, m.halt = .stored msg →
      ∀ batch, msg.ss = some batch →
        Crypto.Genuine cfg.prim signed batch.signs ∧
          enough n batch = true

/- What a step leaves, and its certificates. -/
structure EffectQuorums (e : Effect n) : Prop where
  party : PartyQuorums cfg id signed e.mvba
  accepted : ∀ cert ∈ e.accepted, Backed signed cert.1
  assembled :
    ∀ cert ∈ e.assembled, Collected cfg id signed cert

end SpeedingMVBA

end Jumbo

------------------------------------------------------------
-- Counting Signatures
------------------------------------------------------------

namespace Jumbo

namespace SpeedingMVBA

open Crypto (Bytes)
open Struct

variable {n : Nat} {cfg : Config n} {id : Fin n}
variable {signed : Fin n → Bytes → Prop} {bytes : Bytes}

/- The own signature carries the own number. -/
theorem key_sign (hSmall : n < 2 ^ 31) (bytes : Bytes) :
    Crypto.key n (sign cfg id bytes).id = some id := by
  rw [Crypto.key_eq_some]
  have hLt := id.isLt
  change (Int32.ofNat (id.val + 1)).toInt = _
  rw [Int32.toInt_ofNat_of_lt (by omega)]
  rfl

/- A certificate that verifies and names enough is backed. -/
theorem backed_of_verify
    {batch : BatchSignature}
    (hGenuine : Crypto.Genuine cfg.prim signed batch.signs)
    (hEnough : enough n batch = true)
    (hVerify : verifySigns cfg bytes batch = some true) :
    Backed signed bytes := by
  refine
    ⟨(batch.mems.filterMap (Crypto.key n)).toFinset,
      of_decide_eq_true hEnough, ?_⟩
  intro j hj
  rcases List.mem_filterMap.mp (List.mem_toFinset.mp hj) with
    ⟨mem, hMem, hKey⟩
  rcases hGenuine.batch hVerify hMem with ⟨k, hKey', hSigned⟩
  rw [hKey] at hKey'
  cases hKey'
  exact hSigned

/- So is one that is accepted. -/
theorem backed_of_accept
    {ss : Option BatchSignature} {cert : Cert}
    (hGenuine :
      ∀ batch, ss = some batch →
        Crypto.Genuine cfg.prim signed batch.signs)
    (hEnough : ss.all (enough n) = true)
    (hAccept : accept cfg bytes ss = some cert) :
    Backed signed cert.1 := by
  unfold accept at hAccept
  rcases Option.bind_eq_some_iff.mp hAccept with
    ⟨batch, rfl, hBatch⟩
  rcases Option.ite_none_right_eq_some.mp hBatch with
    ⟨hVerify, hEq⟩
  cases hEq
  exact backed_of_verify (hGenuine batch rfl) hEnough hVerify

/- A signature that is accepted and fresh is of another. -/
theorem vouched_of_accept
    {sign : Option Signature} {got : Signature}
    {signs : List Signature}
    (hGenuine :
      ∀ s, sign = some s →
        Crypto.Genuine cfg.prim signed s.content)
    (hFresh : sign.all (fresh id signs) = true)
    (hAccept : acceptSign cfg bytes sign = some got) :
    fresh id signs got = true ∧
      Crypto.Genuine cfg.prim signed got.content ∧
        Vouched cfg id signed bytes got := by
  rcases acceptSign_eq_some hAccept with ⟨rfl, hVerify⟩
  have hFresh : fresh id signs got = true := hFresh
  rcases verifySign_eq_some hVerify with ⟨j, hKey, hOne⟩
  refine ⟨hFresh, hGenuine got rfl, .inr ⟨j, ?_, hKey, ?_⟩⟩
  · rintro rfl
    have hOther := (Bool.and_eq_true_iff.mp hFresh).1
    exact of_decide_eq_true hOther hKey
  · exact (hGenuine got rfl).single hOne

/- What a fresh signature is not. -/
theorem fresh_iff
    {signs : List Signature} {sign : Signature} :
    fresh id signs sign = true ↔
      Crypto.key n sign.id ≠ some id ∧
        ∀ old ∈ signs,
          Crypto.key n old.id ≠ Crypto.key n sign.id := by
  simp [fresh]

/- The parties stay different. -/
theorem distinct_append
    {signs : List Signature} {sign : Signature}
    (hDistinct :
      (signs.map fun sign => Crypto.key n sign.id).Nodup)
    (hNew :
      ∀ old ∈ signs,
        Crypto.key n old.id ≠ Crypto.key n sign.id) :
    ((signs ++ [sign]).map fun sign =>
      Crypto.key n sign.id).Nodup := by
  rw [List.map_append, List.nodup_append]
  refine ⟨hDistinct, List.nodup_singleton _, ?_⟩
  intro key hOld key' hNew' hEq
  rcases List.mem_map.mp hOld with ⟨old, hMem, rfl⟩
  rw [List.map_singleton, List.mem_singleton] at hNew'
  exact hNew old hMem (hEq.trans hNew')

/- One more signature on the same string. -/
theorem Listed.append
    {signs : List Signature} {sign : Signature}
    (hListed : Listed cfg id signed bytes signs)
    (hVouched : Vouched cfg id signed bytes sign)
    (hNew :
      ∀ old ∈ signs,
        Crypto.key n old.id ≠ Crypto.key n sign.id) :
    Listed cfg id signed bytes (signs ++ [sign]) where
  vouched := by
    intro s hMem
    rcases List.mem_append.mp hMem with hOld | hLast
    · exact hListed.vouched s hOld
    · rw [List.mem_singleton.mp hLast]
      exact hVouched
  distinct := distinct_append hListed.distinct hNew

/- The own signature goes with those of others. -/
theorem Listed.own
    (hSmall : n < 2 ^ 31)
    {signs : List Signature}
    (hListed : Listed cfg id signed bytes signs)
    (hForeign : Foreign id signs) :
    Listed cfg id signed bytes
      (signs ++ [sign cfg id bytes]) := by
  refine hListed.append (.inl rfl) ?_
  intro old hMem
  rw [key_sign hSmall]
  exact hForeign old hMem

/- Nobody has signed yet. -/
theorem listed_nil :
    Listed cfg id signed bytes [] :=
  ⟨List.forall_mem_nil _, .nil⟩

/- One more signature of another party. -/
theorem Foreign.append
    {signs : List Signature} {sign : Signature}
    (hForeign : Foreign id signs)
    (hOther : Crypto.key n sign.id ≠ some id) :
    Foreign id (signs ++ [sign]) := by
  intro s hMem
  rcases List.mem_append.mp hMem with hOld | hLast
  · exact hForeign s hOld
  · rw [List.mem_singleton.mp hLast]
    exact hOther

/- A fresh signature that is accepted is counted. -/
theorem Listed.count
    {signs : List Signature} {sign : Option Signature}
    {got : Signature}
    (hListed : Listed cfg id signed bytes signs)
    (hGenuine :
      ∀ s, sign = some s →
        Crypto.Genuine cfg.prim signed s.content)
    (hFresh : sign.all (fresh id signs) = true)
    (hAccept : acceptSign cfg bytes sign = some got) :
    Listed cfg id signed bytes (signs ++ [got]) ∧
      Crypto.key n got.id ≠ some id := by
  rcases vouched_of_accept hGenuine hFresh hAccept with
    ⟨hNew, -, hVouched⟩
  rcases fresh_iff.mp hNew with ⟨hOther, hNew⟩
  exact ⟨hListed.append hVouched hNew, hOther⟩

end SpeedingMVBA

end Jumbo

------------------------------------------------------------
-- The First Broadcast
------------------------------------------------------------

namespace Jumbo

namespace SpeedingMVBA

open Crypto (Bytes)
open Struct

variable {n : Nat} {cfg : Config n} {id : Fin n}
variable {signed : Fin n → Bytes → Prop}
variable {m : MVBA n} {l : Nat} {li : LoopInfo n}
variable {msg : Msg} {e : Effect n}

/- A new loop has collected nothing. -/
theorem loopQuorums_new (l : Nat) (input : Bytes) :
    LoopQuorums cfg id signed l
      (LoopInfo.new cfg id input) where
  mine := ⟨List.forall_mem_nil _, listed_nil⟩
  ok := listed_nil
  okCount := rfl
  okOwn := .inr (List.forall_mem_nil _)
  shares := listed_nil
  unsent := fun _ => ⟨rfl, List.forall_mem_nil _⟩
  shareMine := nofun
  finish := trivial

/- A loop has changed. -/
theorem PartyQuorums.setLoop
    (hParty : PartyQuorums cfg id signed m)
    (hLoop : LoopQuorums cfg id signed l li) :
    PartyQuorums cfg id signed (m.setLoop l li) where
  loops := by
    intro k
    by_cases hEq : k = l
    · subst hEq
      rw [setLoop_same]
      exact hLoop
    · rw [setLoop_other hEq]
      exact hParty.loops k
  halt := hParty.halt

/- What else a party keeps does not matter. -/
theorem PartyQuorums.of_same
    {m' : MVBA n} (hParty : PartyQuorums cfg id signed m)
    (hLoops : m'.loops = m.loops) (hHalt : m'.halt = m.halt) :
    PartyQuorums cfg id signed m' where
  loops := by
    rw [hLoops]
    exact hParty.loops
  halt := by
    rw [hHalt]
    exact hParty.halt

/- A step without certificates. -/
theorem EffectQuorums.plain
    {m' : MVBA n} {sent : List (Packet n)}
    (hParty : PartyQuorums cfg id signed m') :
    EffectQuorums cfg id signed ⟨m', sent, [], []⟩ :=
  ⟨hParty, List.forall_mem_nil _, List.forall_mem_nil _⟩

/- The proofs of votes no are backed. -/
theorem noCerts_backed
    {l : Nat} {proofs : List Proof} {certs : List Cert}
    (hGenuine :
      ∀ proof ∈ proofs, ∀ batch,
        proof.batchSigns = some batch →
          Crypto.Genuine cfg.prim signed batch.signs)
    (hEnough :
      ∀ proof ∈ proofs,
        proof.batchSigns.all (enough n) = true)
    (hCerts : noCerts cfg l proofs = some certs) :
    ∀ cert ∈ certs, Backed signed cert.1 := by
  induction proofs generalizing l certs with
  | nil =>
      cases hCerts
      exact List.forall_mem_nil _
  | cons proof proofs ih =>
      unfold noCerts at hCerts
      rcases Option.ite_none_left_eq_some.mp hCerts with
        ⟨-, hCerts⟩
      rcases Option.bind_eq_some_iff.mp hCerts with
        ⟨cert, hAccept, hCerts⟩
      rcases Option.bind_eq_some_iff.mp hCerts with
        ⟨rest, hRest, hEq⟩
      cases hEq
      refine List.forall_mem_cons.mpr ⟨?_, ?_⟩
      · exact
          backed_of_accept (hGenuine proof List.mem_cons_self)
            (hEnough proof List.mem_cons_self) hAccept
      · exact
          ih
            (fun p hp =>
              hGenuine p (List.mem_cons_of_mem _ hp))
            (fun p hp => hEnough p (List.mem_cons_of_mem _ hp))
            hRest

/- What `check_values` has accepted is backed. -/
theorem checkValues_backed
    {oldCoins : List (Fin n)} {certs : List Cert}
    (hAuthentic : Authentic cfg signed msg)
    (hEnough :
      l = 0 ∨
        ∀ proof ∈ msg.oldProof,
          proof.batchSigns.all (enough n) = true)
    (hCheck : checkValues cfg oldCoins l msg = some certs) :
    ∀ cert ∈ certs, Backed signed cert.1 := by
  unfold checkValues at hCheck
  split at hCheck
  · cases hCheck
    exact List.forall_mem_nil _
  · rename_i hZero
    have hEnough := hEnough.resolve_left hZero
    have hGenuine := hAuthentic.oldProof
    split at hCheck
    · cases hCheck
    · rename_i proof rest hOld
      rw [hOld] at hEnough hGenuine
      split at hCheck
      · rcases Option.ite_none_right_eq_some.mp hCheck with
          ⟨-, hCheck⟩
        rcases Option.bind_eq_some_iff.mp hCheck with
          ⟨oldcoin, -, hCheck⟩
        rcases Option.bind_eq_some_iff.mp hCheck with
          ⟨cert, hAccept, hCheck⟩
        rcases Option.bind_eq_some_iff.mp hCheck with
          ⟨certs', hCerts, hEq⟩
        cases hEq
        refine List.forall_mem_cons.mpr ⟨?_, ?_⟩
        · exact
            backed_of_accept
              (hGenuine proof List.mem_cons_self)
              (hEnough proof List.mem_cons_self) hAccept
        · exact
            noCerts_backed
              (fun p hp =>
                hGenuine p (List.mem_cons_of_mem _ hp))
              (fun p hp =>
                hEnough p (List.mem_cons_of_mem _ hp))
              hCerts
      · rcases Option.ite_none_right_eq_some.mp hCheck with
          ⟨-, hCheck⟩
        rw [hOld] at hCheck
        exact noCerts_backed hGenuine hEnough hCheck

section PBC

variable {leader : Fin n}

/- Reading an input looks at its proofs. -/
theorem handlePBC1_quorums
    (hParty : PartyQuorums cfg id signed m)
    (hAuthentic : Authentic cfg signed msg)
    (hEnough :
      l = 0 ∨
        ∀ proof ∈ msg.oldProof,
          proof.batchSigns.all (enough n) = true)
    (hStep : handlePBC1 cfg m l leader msg = some e) :
    EffectQuorums cfg id signed e := by
  have hLoop := hParty.loops l
  unfold handlePBC1 at hStep
  dsimp only at hStep
  rcases Option.ite_none_left_eq_some.mp hStep with
    ⟨-, hStep⟩
  split at hStep
  · rcases Option.map_eq_some_iff.mp hStep with
      ⟨certs, hCheck, rfl⟩
    exact
      { party :=
          hParty.setLoop
            ⟨hLoop.mine, hLoop.ok, hLoop.okCount, hLoop.okOwn,
              hLoop.shares, hLoop.unsent, hLoop.shareMine,
              hLoop.finish⟩
        accepted := checkValues_backed hAuthentic hEnough hCheck
        assembled := List.forall_mem_nil _ }
  · rcases Option.ite_none_right_eq_some.mp hStep with
      ⟨-, hEq⟩
    cases hEq
    exact
      .plain
        (hParty.setLoop
          ⟨hLoop.mine, hLoop.ok, hLoop.okCount, hLoop.okOwn,
            hLoop.shares, hLoop.unsent, hLoop.shareMine,
            hLoop.finish⟩)

/- The combined signature of a leader is looked at. -/
theorem handlePBC3_quorums
    (hParty : PartyQuorums cfg id signed m)
    (hAuthentic : Authentic cfg signed msg)
    (hEnough : msg.ss.all (enough n) = true)
    (hStep : handlePBC3 cfg m l leader msg = some e) :
    EffectQuorums cfg id signed e := by
  have hLoop := hParty.loops l
  unfold handlePBC3 at hStep
  dsimp only at hStep
  split at hStep
  · rcases Option.ite_none_right_eq_some.mp hStep with
      ⟨-, hStep⟩
    rcases Option.map_eq_some_iff.mp hStep with
      ⟨cert, hAccept, rfl⟩
    exact
      { party :=
          hParty.setLoop
            ⟨hLoop.mine, hLoop.ok, hLoop.okCount, hLoop.okOwn,
              hLoop.shares, hLoop.unsent, hLoop.shareMine,
              hLoop.finish⟩
        accepted := by
          intro c hc
          rw [List.mem_singleton.mp hc]
          exact
            backed_of_accept hAuthentic.ss hEnough hAccept
        assembled := List.forall_mem_nil _ }
  · cases hStep

/- Answering a leader collects nothing. -/
theorem answer_quorums
    (hParty : PartyQuorums cfg id signed m) (pbc : Fin n → PBC)
    (sent : List (Packet n)) :
    EffectQuorums cfg id signed
      (m.leave l { m.loops l with pbc := pbc } sent) := by
  have hLoop := hParty.loops l
  exact
    .plain
      (hParty.setLoop
        ⟨hLoop.mine, hLoop.ok, hLoop.okCount, hLoop.okOwn,
          hLoop.shares, hLoop.unsent, hLoop.shareMine,
          hLoop.finish⟩)

/- An answer accepts and assembles nothing. -/
theorem sendPBC2_quorums
    (hParty : PartyQuorums cfg id signed m)
    (hStep : sendPBC2 cfg id m l leader = some e) :
    EffectQuorums cfg id signed e := by
  unfold sendPBC2 at hStep
  dsimp only at hStep
  split at hStep
  · split at hStep
    · cases hStep
      exact answer_quorums hParty _ _
    · cases hStep
      exact answer_quorums hParty _ _
  · cases hStep

/- Nor does the second one. -/
theorem sendPBC4_quorums
    (hParty : PartyQuorums cfg id signed m)
    (hStep : sendPBC4 cfg id m l leader = some e) :
    EffectQuorums cfg id signed e := by
  unfold sendPBC4 at hStep
  dsimp only at hStep
  split at hStep
  · split at hStep
    · cases hStep
      exact answer_quorums hParty _ _
    · cases hStep
      exact answer_quorums hParty _ _
  · cases hStep

/- Nor does the end of a broadcast. -/
theorem returnPBC_quorums
    (hParty : PartyQuorums cfg id signed m)
    (hStep : returnPBC m l leader = some e) :
    EffectQuorums cfg id signed e := by
  unfold returnPBC at hStep
  dsimp only at hStep
  split at hStep
  · rcases Option.ite_none_right_eq_some.mp hStep with
      ⟨-, hEq⟩
    cases hEq
    exact answer_quorums hParty _ _
  · rcases Option.ite_none_right_eq_some.mp hStep with
      ⟨-, hEq⟩
    cases hEq
    exact answer_quorums hParty _ _
  · cases hStep

end PBC

/- The own broadcast is at another place. -/
theorem LoopQuorums.setMine
    {mine : MinePBC} {sigmas : Fin n → BatchSignature}
    (hLoop : LoopQuorums cfg id signed l li)
    (hOpen : li.mine ≠ .done)
    (hMine : MineQuorums cfg id signed l mine) :
    LoopQuorums cfg id signed l
      { li with sigmas := sigmas, mine := mine } where
  mine := hMine
  ok := hLoop.ok
  okCount := hLoop.okCount
  okOwn := .inr (hLoop.okOwn.resolve_left hOpen)
  shares := hLoop.shares
  unsent := hLoop.unsent
  shareMine := hLoop.shareMine
  finish := hLoop.finish

/-
  The signatures on the own input are those of others, and
  the own one joins them when they are enough.
-/
theorem handleMinePBC2_quorums
    (hSmall : n < 2 ^ 31)
    (hParty : PartyQuorums cfg id signed m)
    (hAuthentic : Authentic cfg signed msg)
    (hFresh :
      ∀ hash signs, (m.loops l).mine = .wait2 hash signs →
        msg.sign.all (fresh id signs) = true)
    (hStep : handleMinePBC2 cfg id m l msg = some e) :
    EffectQuorums cfg id signed e := by
  have hLoop := hParty.loops l
  unfold handleMinePBC2 at hStep
  dsimp only at hStep
  split at hStep
  · rename_i hash signs hWait
    rcases Option.ite_none_right_eq_some.mp hStep with
      ⟨-, hStep⟩
    rcases Option.bind_eq_some_iff.mp hStep with
      ⟨got, hAccept, hStep⟩
    have hMine := hLoop.mine
    rw [hWait] at hMine
    rcases hMine with ⟨hForeign, hListed⟩
    rcases hListed.count hAuthentic.sign (hFresh _ _ hWait)
        hAccept with
      ⟨hMore, hOther⟩
    have hForeign := hForeign.append hOther
    have hOpen : (m.loops l).mine ≠ .done := by
      rw [hWait]
      nofun
    split at hStep
    · rename_i hMany
      rcases Option.bind_eq_some_iff.mp hStep with
        ⟨batch, hBatch, hEq⟩
      cases hEq
      refine
        { party :=
            hParty.setLoop (hLoop.setMine hOpen trivial)
          accepted := List.forall_mem_nil _
          assembled := ?_ }
      intro cert hCert
      rw [List.mem_singleton.mp hCert]
      refine ⟨_, hBatch, ?_, hMore.own hSmall hForeign⟩
      rw [List.length_append, List.length_singleton]
      exact Nat.lt_succ_of_le hMany
    · cases hStep
      exact
        .plain
          (hParty.setLoop
            (hLoop.setMine hOpen ⟨hForeign, hMore⟩))
  · cases hStep

/-
  The combined signature has been assembled before it is
  sent.
-/
theorem sendPBC3_quorums
    (hParty : PartyQuorums cfg id signed m)
    (hStep : sendPBC3 cfg id m l = some e) :
    EffectQuorums cfg id signed e := by
  have hLoop := hParty.loops l
  unfold sendPBC3 at hStep
  dsimp only at hStep
  split at hStep
  · rename_i hash batch hSend
    have hOpen : (m.loops l).mine ≠ .done := by
      rw [hSend]
      nofun
    split at hStep
    · cases hStep
      exact .plain (hParty.setLoop (hLoop.setMine hOpen trivial))
    · cases hStep
      exact
        .plain
          (hParty.setLoop
            (hLoop.setMine hOpen
              ⟨List.forall_mem_nil _, listed_nil⟩))
  · cases hStep

/- The end of the own broadcast drops what it has collected. -/
theorem returnMinePBC_quorums
    (hParty : PartyQuorums cfg id signed m)
    (hStep : returnMinePBC m l = some e) :
    EffectQuorums cfg id signed e := by
  have hLoop := hParty.loops l
  have hReturn :
      (m.loops l).mine ≠ .done →
        EffectQuorums cfg id signed
          (m.leave l { m.loops l with mine := .done } []) :=
    fun hOpen =>
      .plain (hParty.setLoop (hLoop.setMine hOpen trivial))
  unfold returnMinePBC at hStep
  dsimp only at hStep
  split at hStep
  · rename_i hWait
    rcases Option.ite_none_right_eq_some.mp hStep with
      ⟨-, hEq⟩
    cases hEq
    exact hReturn (by rw [hWait]; nofun)
  · rename_i hWait
    rcases Option.ite_none_right_eq_some.mp hStep with
      ⟨-, hEq⟩
    cases hEq
    exact hReturn (by rw [hWait]; nofun)
  · cases hStep

end SpeedingMVBA

end Jumbo

------------------------------------------------------------
-- Pi and Shares
------------------------------------------------------------

namespace Jumbo

namespace SpeedingMVBA

open Crypto (Bytes)
open Struct

variable {n : Nat} {cfg : Config n} {id : Fin n}
variable {signed : Fin n → Bytes → Prop}
variable {m : MVBA n} {l : Nat} {li : LoopInfo n}
variable {msg : Msg} {e : Effect n}

/- Another OK, of a party that has not been counted. -/
theorem LoopQuorums.countPi
    {okSign : Signature} {li' : LoopInfo n}
    {certs : List Cert}
    (hLoop : LoopQuorums cfg id signed l li)
    (hOk :
      Listed cfg id signed (cfg.tagged l .ok)
        (li.ok ++ [okSign]))
    (hOwn :
      li.mine = .done ∨ Crypto.key n okSign.id ≠ some id)
    (hCount : countPi cfg l li okSign = some (li', certs)) :
    LoopQuorums cfg id signed l li' ∧
      (∀ cert ∈ certs, Collected cfg id signed cert) ∧
        li'.mine = li.mine := by
  have hOkOwn :
      li.mine = .done ∨ Foreign id (li.ok ++ [okSign]) := by
    rcases hOwn with hDone | hOther
    · exact .inl hDone
    · exact hLoop.okOwn.imp (fun h => h) fun h =>
        h.append hOther
  have hLength :
      (li.ok ++ [okSign]).length = li.piCount + 1 := by
    rw [List.length_append, hLoop.okCount,
      List.length_singleton]
  unfold SpeedingMVBA.countPi at hCount
  dsimp only at hCount
  split at hCount
  · rename_i hMany
    rcases Option.map_eq_some_iff.mp hCount with
      ⟨batch, hBatch, hEq⟩
    cases hEq
    refine
      ⟨⟨hLoop.mine, hOk, hLength, hOkOwn, hLoop.shares,
        hLoop.unsent, hLoop.shareMine, hLoop.finish⟩, ?_, rfl⟩
    intro cert hCert
    rw [List.mem_singleton.mp hCert]
    refine ⟨_, hBatch, ?_, hOk⟩
    rw [hLength]
    exact hMany
  · cases hCount
    exact
      ⟨⟨hLoop.mine, hOk, hLength, hOkOwn, hLoop.shares,
        hLoop.unsent, hLoop.shareMine, hLoop.finish⟩,
        List.forall_mem_nil _, rfl⟩

/- Enough shares for pi, and the own OK with it. -/
theorem handleMinePBC4_quorums
    (hSmall : n < 2 ^ 31)
    (hParty : PartyQuorums cfg id signed m)
    (hAuthentic : Authentic cfg signed msg)
    (hFresh :
      ∀ hash signs, (m.loops l).mine = .wait4 hash signs →
        msg.sign.all (fresh id signs) = true)
    (hStep : handleMinePBC4 cfg id m l msg = some e) :
    EffectQuorums cfg id signed e := by
  have hLoop := hParty.loops l
  unfold handleMinePBC4 at hStep
  dsimp only at hStep
  split at hStep
  · rename_i hash signs hWait
    rcases Option.ite_none_right_eq_some.mp hStep with
      ⟨-, hStep⟩
    rcases Option.bind_eq_some_iff.mp hStep with
      ⟨got, hAccept, hStep⟩
    have hMine := hLoop.mine
    rw [hWait] at hMine
    rcases hMine with ⟨hForeign, hListed⟩
    rcases hListed.count hAuthentic.sign (hFresh _ _ hWait)
        hAccept with
      ⟨hMore, hOther⟩
    have hForeign := hForeign.append hOther
    have hOpen : (m.loops l).mine ≠ .done := by
      rw [hWait]
      nofun
    split at hStep
    · rename_i hMany
      rcases Option.bind_eq_some_iff.mp hStep with
        ⟨batch, hBatch, hStep⟩
      rcases Option.bind_eq_some_iff.mp hStep with
        ⟨⟨li', certs⟩, hCount, hEq⟩
      cases hEq
      have hDone :
          LoopQuorums cfg id signed l
            { m.loops l with mine := .done } :=
        hLoop.setMine hOpen trivial
      have hOk :=
        hLoop.ok.own hSmall (hLoop.okOwn.resolve_left hOpen)
      rcases hDone.countPi hOk (.inl rfl) hCount with
        ⟨hCounted, hCerts, -⟩
      refine
        { party := hParty.setLoop hCounted
          accepted := List.forall_mem_nil _
          assembled := List.forall_mem_cons.mpr ⟨?_, hCerts⟩ }
      refine ⟨_, hBatch, ?_, hMore.own hSmall hForeign⟩
      rw [List.length_append, List.length_singleton]
      exact Nat.lt_succ_of_le hMany
    · cases hStep
      exact
        .plain
          (hParty.setLoop
            (hLoop.setMine hOpen ⟨hForeign, hMore⟩))
  · cases hStep

/- Pi brings a certificate and an OK. -/
theorem handlePi_quorums
    (hParty : PartyQuorums cfg id signed m)
    (hAuthentic : Authentic cfg signed msg)
    (hEnough : msg.ss.all (enough n) = true)
    (hFresh : msg.sign.all (fresh id (m.loops l).ok) = true)
    (hStep : handlePi cfg m l msg = some e) :
    EffectQuorums cfg id signed e := by
  have hLoop := hParty.loops l
  unfold handlePi at hStep
  dsimp only at hStep
  rcases Option.ite_none_right_eq_some.mp hStep with
    ⟨-, hStep⟩
  rcases Option.bind_eq_some_iff.mp hStep with
    ⟨leader, -, hStep⟩
  rcases Option.bind_eq_some_iff.mp hStep with
    ⟨cert, hAccept, hStep⟩
  rcases Option.bind_eq_some_iff.mp hStep with
    ⟨okSign, hSign, hStep⟩
  rcases Option.bind_eq_some_iff.mp hStep with
    ⟨⟨li', certs⟩, hCount, hEq⟩
  cases hEq
  rcases hLoop.ok.count hAuthentic.sign hFresh hSign with
    ⟨hOk, hOther⟩
  have hStored :
      LoopQuorums cfg id signed l
        { m.loops l with
          inputs :=
            Function.update (m.loops l).inputs leader
              msg.rawMsg.values
          pis :=
            Function.update (m.loops l).pis leader cert.2 } :=
    ⟨hLoop.mine, hLoop.ok, hLoop.okCount, hLoop.okOwn,
      hLoop.shares, hLoop.unsent, hLoop.shareMine,
      hLoop.finish⟩
  rcases hStored.countPi hOk (.inr hOther) hCount with
    ⟨hCounted, hCerts, -⟩
  exact
    { party :=
        hParty.setLoop
          ⟨hCounted.mine, hCounted.ok, hCounted.okCount,
            hCounted.okOwn, hCounted.shares, hCounted.unsent,
            hCounted.shareMine, hCounted.finish⟩
      accepted := by
        intro c hc
        rw [List.mem_singleton.mp hc]
        exact backed_of_accept hAuthentic.ss hEnough hAccept
      assembled := hCerts }

/- The own share is sent once. -/
theorem sendShare_quorums
    (hParty : PartyQuorums cfg id signed m)
    (hStep : sendShare cfg id m l = some e) :
    EffectQuorums cfg id signed e := by
  have hLoop := hParty.loops l
  unfold sendShare at hStep
  dsimp only at hStep
  split at hStep
  · rename_i hSends _
    rcases hLoop.unsent hSends with ⟨hNone, hForeign⟩
    split at hStep
    · cases hStep
      exact
        .plain
          (hParty.setLoop
            ⟨hLoop.mine, hLoop.ok, hLoop.okCount, hLoop.okOwn,
              hLoop.shares, nofun, hLoop.shareMine,
              hLoop.finish⟩)
    · cases hStep
      refine
        .plain
          (hParty.setLoop
            ⟨hLoop.mine, hLoop.ok, hLoop.okCount, hLoop.okOwn,
              hLoop.shares, nofun, ?_, hLoop.finish⟩)
      intro msg hMine
      cases hMine
      exact ⟨rfl, hForeign⟩
  · cases hStep

/-
  A share is counted. The own one is the last that may be
  the party's.
-/
theorem countShare_quorums
    {share : Signature} {ss : BatchSignature}
    {certs : List Cert}
    (hParty : PartyQuorums cfg id signed m)
    (hShares :
      Listed cfg id signed (cfg.share l)
        ((m.loops l).shares ++ [share]))
    (hOwn :
      ((m.loops l).sendsShare = false ∧
          (m.loops l).shareMine = none) ∨
        Crypto.key n share.id ≠ some id)
    (hCerts : ∀ cert ∈ certs, Backed signed cert.1)
    (hStep : countShare cfg m l share ss certs = some e) :
    EffectQuorums cfg id signed e := by
  have hLoop := hParty.loops l
  have hUnsent :
      (m.loops l).sendsShare = true →
        (m.loops l).shareMine = none ∧
          Foreign id ((m.loops l).shares ++ [share]) := by
    intro hSends
    rcases hOwn with hSent | hOther
    · rw [hSent.1] at hSends
      cases hSends
    · rcases hLoop.unsent hSends with ⟨hNone, hForeign⟩
      exact ⟨hNone, hForeign.append hOther⟩
  have hShareMine :
      ∀ msg, (m.loops l).shareMine = some msg →
        msg.sign =
            some (SpeedingMVBA.sign cfg id (cfg.share l)) ∧
          Foreign id ((m.loops l).shares ++ [share]) := by
    intro msg hMine
    rcases hOwn with hSent | hOther
    · rw [hSent.2] at hMine
      cases hMine
    · rcases hLoop.shareMine msg hMine with ⟨hSign, hForeign⟩
      exact ⟨hSign, hForeign.append hOther⟩
  unfold countShare at hStep
  dsimp only at hStep
  split at hStep
  · rename_i hMany
    rcases Option.map_eq_some_iff.mp hStep with
      ⟨batch, hBatch, rfl⟩
    refine
      { party :=
          hParty.setLoop
            ⟨hLoop.mine, hLoop.ok, hLoop.okCount, hLoop.okOwn,
              hShares, hUnsent, hShareMine, hLoop.finish⟩
        accepted := hCerts
        assembled := ?_ }
    intro cert hCert
    rw [List.mem_singleton.mp hCert]
    exact ⟨_, hBatch, hMany, hShares⟩
  · cases hStep
    exact
      { party :=
          hParty.setLoop
            ⟨hLoop.mine, hLoop.ok, hLoop.okCount, hLoop.okOwn,
              hShares, hUnsent, hShareMine, hLoop.finish⟩
        accepted := hCerts
        assembled := List.forall_mem_nil _ }

/- A share of another party brings a certificate. -/
theorem handleShare_quorums
    (hParty : PartyQuorums cfg id signed m)
    (hAuthentic : Authentic cfg signed msg)
    (hEnough : msg.ss.all (enough n) = true)
    (hFresh :
      msg.sign.all (fresh id (m.loops l).shares) = true)
    (hStep : handleShare cfg m l msg = some e) :
    EffectQuorums cfg id signed e := by
  have hLoop := hParty.loops l
  unfold handleShare at hStep
  rcases Option.ite_none_right_eq_some.mp hStep with
    ⟨-, hStep⟩
  rcases Option.bind_eq_some_iff.mp hStep with
    ⟨cert, hAccept, hStep⟩
  rcases Option.bind_eq_some_iff.mp hStep with
    ⟨share, hSign, hStep⟩
  rcases hLoop.shares.count hAuthentic.sign hFresh hSign with
    ⟨hShares, hOther⟩
  refine
    countShare_quorums hParty hShares (.inr hOther) ?_ hStep
  intro c hc
  rw [List.mem_singleton.mp hc]
  exact backed_of_accept hAuthentic.ss hEnough hAccept

/- The own share is counted once. -/
theorem handleShareMine_quorums
    (hSmall : n < 2 ^ 31)
    (hParty : PartyQuorums cfg id signed m)
    (hStep : handleShareMine cfg m l = some e) :
    EffectQuorums cfg id signed e := by
  have hLoop := hParty.loops l
  unfold handleShareMine at hStep
  dsimp only at hStep
  rcases Option.ite_none_right_eq_some.mp hStep with
    ⟨-, hStep⟩
  rcases Option.bind_eq_some_iff.mp hStep with
    ⟨msg, hMine, hStep⟩
  rcases Option.bind_eq_some_iff.mp hStep with
    ⟨share, hSign, hStep⟩
  rcases Option.bind_eq_some_iff.mp hStep with
    ⟨ss, -, hStep⟩
  rcases hLoop.shareMine msg hMine with ⟨hOwn, hForeign⟩
  rw [hSign] at hOwn
  cases hOwn
  have hSends : (m.loops l).sendsShare = false := by
    cases hSends : (m.loops l).sendsShare with
    | false => rfl
    | true =>
        have hNone := (hLoop.unsent hSends).1
        rw [hMine] at hNone
        cases hNone
  have hTaken :
      PartyQuorums cfg id signed
        (m.setLoop l { m.loops l with shareMine := none }) :=
    hParty.setLoop
      ⟨hLoop.mine, hLoop.ok, hLoop.okCount, hLoop.okOwn,
        hLoop.shares, fun h => ⟨rfl, (hLoop.unsent h).2⟩, nofun,
        hLoop.finish⟩
  refine
    countShare_quorums hTaken ?_ (.inl ?_)
      (List.forall_mem_nil _) hStep
  · rw [setLoop_same]
    exact hLoop.shares.own hSmall hForeign
  · rw [setLoop_same]
    exact ⟨hSends, rfl⟩

/- Storing the coin collects nothing. -/
theorem storeCoin_quorums
    (hParty : PartyQuorums cfg id signed m)
    (hStep : storeCoin cfg m l = some e) :
    EffectQuorums cfg id signed e := by
  have hLoop := hParty.loops l
  unfold storeCoin at hStep
  dsimp only at hStep
  rcases Option.ite_none_right_eq_some.mp hStep with
    ⟨-, hEq⟩
  cases hEq
  have hStored :
      PartyQuorums cfg id signed
        (m.setLoop l
          { m.loops l with storesCoin := false }) :=
    hParty.setLoop
      ⟨hLoop.mine, hLoop.ok, hLoop.okCount, hLoop.okOwn,
        hLoop.shares, hLoop.unsent, hLoop.shareMine,
        hLoop.finish⟩
  exact .plain (hStored.of_same rfl rfl)

end SpeedingMVBA

end Jumbo
