import Jumbo.DumboMVBA.Network

/-
  Whether what is accepted can be put together again.

  A party that signs a root stores its path. The check of a
  message counts no signers and looks at no round, and a
  later dispersal under the same number replaces the path.
  Where a certificate names enough correct parties for the
  round, and paths are replaced under the same root only,
  enough of them hold a path.

  Main declarations:
    * `Holds` and `Available`
    * `Net.Meets`
    * `Keeps`
    * `accepted_available`
-/

------------------------------------------------------------
-- Availability
------------------------------------------------------------

namespace Jumbo

namespace DumboMVBA

open Crypto (Bytes)
open Protocol
open Struct

variable {n : Nat}

/- A path that verifies is stored for the number. -/
def Holds
    (cfg : Config n) (dm : Dumbomvba n) (id i : Fin n)
    (root : Bytes) : Prop :=
  ∃ path, dm.paths i = some path ∧
    verifyPath cfg.sha root path id.val = true

/-
  The message names a party and a root, and enough correct
  parties hold a path to it in the round.
-/
def Available
    (cfg : Config n) (corrupted : Finset (Fin n)) (s : Net n)
    (round : Nat) (msg : DumbomvbaMsg) : Prop :=
  ∃ i root, Crypto.key n msg.id = some i ∧
    msg.values = [root] ∧
      ∃ holders : Finset (Fin n),
        threshold n ≤ holders.card ∧
          ∀ id ∈ holders, id ∉ corrupted ∧
            Holds cfg (s.dm id round) id i root

/- The correct parties that a certificate names. -/
def correctMembers
    (corrupted : Finset (Fin n)) (batch : BatchSignature) :
    Finset (Fin n) :=
  (batch.mems.filterMap (Crypto.key n)).toFinset \ corrupted

namespace Net

/-
  The condition on a step. What is accepted is of the round
  of the party and names enough correct parties, a correct
  party replaces a path by one to the same root, and rounds
  fit 32 bits.
-/
def Meets
    (corrupted : Finset (Fin n)) (s : Net n) :
    NetAction n → Prop
| .accept id msg =>
    id ∉ corrupted →
      msg.round = Int32.ofNat (s.round id) ∧
        ∀ batch, msg.ss = some batch →
          threshold n ≤ (correctMembers corrupted batch).card
| .dispersal id round msg =>
    id ∉ corrupted →
      ∀ i path, Crypto.key n msg.id = some i →
        (s.dm id round).paths i = some path →
          path.getLast? = msg.values.getLast?
| .next id => s.round id + 1 < 2 ^ 32
| _ => True

end Net

/- Whatever has been signed in a round is still stored. -/
def Keeps
    (cfg : Config n) (id : Fin n) (round : Nat)
    (dm : Dumbomvba n) : Prop :=
  ∀ signMsg ∈ dm.signed,
    round < 2 ^ 32 ∧ signMsg.round = Int32.ofNat round ∧
      ∃ i root, Crypto.key n signMsg.id = some i ∧
        signMsg.values = [root] ∧ Holds cfg dm id i root

section Members

end Members

end DumboMVBA

end Jumbo

------------------------------------------------------------
-- Runs
------------------------------------------------------------

namespace Jumbo

namespace DumboMVBA

open Crypto (Bytes)
open Protocol
open Struct

section Runs

variable {n : Nat} {cfg : Config n}
variable {corrupted : Finset (Fin n)} {s : Net n}

/- A path that verifies ends with the root. -/
theorem getLast?_of_verifyPath
    {sha : Bytes → Bytes} {root : Bytes} {path : List Bytes}
    {index : Int}
    (hPath : verifyPath sha root path index = true) :
    path.getLast? = some root := by
  unfold verifyPath at hPath
  split at hPath
  · cases hPath
  · split at hPath
    · cases hPath
    · rename_i hLast
      exact not_not.mp hLast

/- A dispersal keeps what it signs and what was signed. -/
theorem Keeps.dispersal
    {id : Fin n} {round : Nat} {dm dm' : Dumbomvba n}
    {msg : DumbomvbaMsg}
    (hKeeps : Keeps cfg id round dm)
    (hFits : round < 2 ^ 32)
    (hSame :
      ∀ i path, Crypto.key n msg.id = some i →
        dm.paths i = some path →
          path.getLast? = msg.values.getLast?)
    (hDispersal :
      handleDispersal cfg id round dm msg = some dm') :
    Keeps cfg id round dm' := by
  rcases handleDispersal_cases hDispersal with
    ⟨root, i, sent, hLast, hPath, hKey, rfl⟩
  have hNew :
      Function.update dm.paths i (some msg.values) i =
        some msg.values :=
    Function.update_self ..
  intro signMsg hSigned
  rcases List.mem_append.mp hSigned with hOld | hMem
  · rcases hKeeps signMsg hOld with
      ⟨_, hRound, i', root', hKey', hValues, path, hStored,
        hVerify⟩
    refine ⟨hFits, hRound, i', root', hKey', hValues, ?_⟩
    by_cases hEq : i' = i
    · -- the path that is replaced ends at the same root
      subst hEq
      refine ⟨msg.values, hNew, ?_⟩
      have hRoot := hSame i' path hKey hStored
      rw [getLast?_of_verifyPath hVerify, hLast,
        Option.some.injEq] at hRoot
      rw [hRoot]
      exact hPath
    · exact
        ⟨path, by
          dsimp only
          rw [Function.update_of_ne hEq]
          exact hStored, hVerify⟩
  · rw [List.mem_singleton.mp hMem]
    exact
      ⟨hFits, rfl, i, root, hKey, rfl, msg.values, hNew,
        hPath⟩

/- A round that has been started fits 32 bits. -/
theorem round_lt
    (hReach :
      (network cfg).ReachableBy
        (fun s a =>
          s.Authentic cfg corrupted a ∧ s.Meets corrupted a)
        s)
    (id : Fin n) : s.round id < 2 ^ 32 := by
  revert id
  refine
    hReach.invariant (fun s => ∀ id, s.round id < 2 ^ 32)
      (fun _ => Nat.two_pow_pos 32) ?_
  intro s a s' _ hAll hOk hExec id
  rcases exec_cases hExec with
    ⟨_, _, _, _, _, rfl⟩ | ⟨_, _, _, _, rfl⟩ | ⟨id', rfl, rfl⟩
  · exact hAll id
  · exact hAll id
  · by_cases hEq : id = id'
    · subst hEq
      dsimp only
      rw [Function.update_self]
      exact hOk.2
    · dsimp only
      rw [Function.update_of_ne hEq]
      exact hAll id

/- Every correct party keeps what it has signed. -/
theorem keeps
    (hReach :
      (network cfg).ReachableBy
        (fun s a =>
          s.Authentic cfg corrupted a ∧ s.Meets corrupted a)
        s)
    (id : Fin n) (round : Nat) (hCorrect : id ∉ corrupted) :
    Keeps cfg id round (s.dm id round) := by
  refine
    dm_invariant
      (fun id round dm =>
        id ∉ corrupted → Keeps cfg id round dm) ?_ ?_ hReach
      id round hCorrect
  · intro _ _ _ signMsg hSigned
    cases hSigned
  intro s a id round dm' hReach hOk hLe hHandles hBefore
    hCorrect
  have hKeeps := hBefore hCorrect
  rcases hHandles.signs with
    ⟨hPaths, hSigned⟩ | ⟨msg, rfl, hDispersal⟩
  · unfold Keeps Holds
    rw [hPaths, hSigned]
    exact hKeeps
  · exact
      hKeeps.dispersal
        (Nat.lt_of_le_of_lt hLe (round_lt hReach _))
        (hOk.2 hCorrect) hDispersal

/- What has been signed stays so. -/
theorem signed_subset
    {id : Fin n} {round : Nat} {dm dm' : Dumbomvba n}
    {a : NetAction n} {signMsg : SignMsg}
    (hHandles : Handles cfg id round dm dm' a)
    (hSigned : signMsg ∈ dm.signed) :
    signMsg ∈ dm'.signed := by
  rcases hHandles.signs with ⟨_, hSame⟩ | ⟨msg, _, hDispersal⟩
  · rw [hSame]
    exact hSigned
  · rcases handleDispersal_cases hDispersal with
      ⟨_, _, _, _, _, _, rfl⟩
    exact List.mem_append_left _ hSigned

/-
  The correct members of a certificate that is accepted have
  signed the message in its round.
-/
def Certified
    (corrupted : Finset (Fin n)) (s : Net n) (round : Nat)
    (msg : DumbomvbaMsg) : Prop :=
  ∃ batch, msg.ss = some batch ∧
    threshold n ≤ (correctMembers corrupted batch).card ∧
      ∀ id ∈ correctMembers corrupted batch,
        msg.toSignMsg ∈ (s.dm id round).signed

/- An accepted certificate has signers enough. -/
theorem certified_of_accept
    (hMarshal : Function.Injective cfg.marshal)
    (hReach :
      (network cfg).ReachableBy
        (fun s a =>
          s.Authentic cfg corrupted a ∧ s.Meets corrupted a)
        s)
    {id : Fin n} {msg : DumbomvbaMsg}
    (hCorrect : id ∉ corrupted)
    (hCheck : checkInput cfg msg = some true)
    (hAuthentic : s.Authentic cfg corrupted (.accept id msg))
    (hMeets : s.Meets corrupted (.accept id msg)) :
    Certified corrupted s (s.round id) msg := by
  unfold checkInput at hCheck
  split at hCheck
  · cases hCheck
  · rename_i batch hBatch
    rcases hMeets hCorrect with ⟨hRound, hEnough⟩
    refine ⟨batch, hBatch, hEnough batch hBatch, ?_⟩
    intro q hMem
    rcases Finset.mem_sdiff.mp hMem with ⟨hMember, hCorrect⟩
    rcases List.mem_filterMap.mp (List.mem_toFinset.mp hMember)
      with ⟨mem, hIn, hKey⟩
    rcases (hAuthentic batch hBatch).batch hCheck hIn with
      ⟨q', hKey', hSigned⟩
    rw [hKey] at hKey'
    cases hKey'
    rcases hSigned with hByzantine |
      ⟨round, signMsg, hSigned, hBytes⟩
    · exact absurd hByzantine hCorrect
    · -- the signature is for this message and this round
      have hSame := hMarshal hBytes
      rcases keeps hReach q round hCorrect signMsg hSigned with
        ⟨hFits, hThis, _⟩
      rw [hSame, hRound] at hThis
      have hEq :=
        int32_ofNat_inj (round_lt hReach id) hFits hThis
      rw [hEq, ← hSame]
      exact hSigned

/- In every run accepted messages have a certificate. -/
theorem certified
    (hMarshal : Function.Injective cfg.marshal)
    (hReach :
      (network cfg).ReachableBy
        (fun s a =>
          s.Authentic cfg corrupted a ∧ s.Meets corrupted a)
        s) :
    ∀ id round msg, (id, round, msg) ∈ s.accepted →
      id ∉ corrupted → Certified corrupted s round msg := by
  refine
    hReach.invariant
      (fun s =>
        ∀ id round msg, (id, round, msg) ∈ s.accepted →
          id ∉ corrupted → Certified corrupted s round msg)
      (fun _ _ _ h => (List.not_mem_nil h).elim) ?_
  intro s a s' hBefore hAll hOk hExec
  rcases exec_cases hExec with
    ⟨id', round', dm, _, hHandles, rfl⟩ |
      ⟨id', msg', rfl, hCheck, rfl⟩ | ⟨_, rfl, rfl⟩
  · intro id round msg hMem hCorrect
    rcases hAll id round msg hMem hCorrect with
      ⟨batch, hBatch, hEnough, hSigned⟩
    refine ⟨batch, hBatch, hEnough, fun q hq => ?_⟩
    rcases s.set_dm id' round' dm q round with
      ⟨rfl, rfl, hEq⟩ | hSame
    · rw [hEq]
      exact signed_subset hHandles (hSigned q hq)
    · rw [hSame]
      exact hSigned q hq
  · intro id round msg hMem hCorrect
    rcases List.mem_append.mp hMem with hOld | hNew
    · exact hAll id round msg hOld hCorrect
    · cases List.mem_singleton.mp hNew
      exact
        certified_of_accept hMarshal hBefore hCorrect hCheck
          hOk.1 hOk.2
  · exact hAll

/-
  In every run whose steps meet the condition, and at every
  time, what a correct party has accepted is available.
-/
theorem accepted_available
    (hMarshal : Function.Injective cfg.marshal)
    (hReach :
      (network cfg).ReachableBy
        (fun s a =>
          s.Authentic cfg corrupted a ∧ s.Meets corrupted a)
        s) :
    ∀ id round msg, (id, round, msg) ∈ s.accepted →
      id ∉ corrupted →
        Available cfg corrupted s round msg := by
  intro id round msg hMem hCorrect
  rcases certified hMarshal hReach id round msg hMem hCorrect
    with ⟨batch, _, hEnough, hSigned⟩
  -- a member of the certificate tells the root
  have hHold (q : Fin n)
      (hq : q ∈ correctMembers corrupted batch) :
      q ∉ corrupted ∧ ∃ i root,
        Crypto.key n msg.id = some i ∧ msg.values = [root] ∧
          Holds cfg (s.dm q round) q i root := by
    have hOut := (Finset.mem_sdiff.mp hq).2
    exact
      ⟨hOut,
        (keeps hReach q round hOut _ (hSigned q hq)).2.2⟩
  have hPos : 0 < threshold n := by
    have hn := id.pos
    unfold threshold
    omega
  rcases Finset.card_pos.mp (Nat.lt_of_lt_of_le hPos hEnough)
    with ⟨q, hq⟩
  rcases (hHold q hq).2 with ⟨i, root, hKey, hValues, _⟩
  refine
    ⟨i, root, hKey, hValues,
      correctMembers corrupted batch, hEnough, ?_⟩
  intro q' hq'
  rcases hHold q' hq' with
    ⟨hOut, i', root', hKey', hValues', hHolds⟩
  rw [hKey] at hKey'
  cases hKey'
  rw [hValues] at hValues'
  cases hValues'
  exact ⟨hOut, hHolds⟩

end Runs

end DumboMVBA

end Jumbo

------------------------------------------------------------
-- Certificates without Signers
------------------------------------------------------------

namespace Jumbo

namespace DumboMVBA

open Crypto (Bytes)
open Protocol
open Struct

/- A list of bytes that shows where it ends. -/
def marshalBytes (bytes : Bytes) : Bytes :=
  bytes.flatMap (fun b => [1, b]) ++ [0]

/- All fields one after another, with their lengths. -/
def plainMarshal (m : SignMsg) : Bytes :=
  intToBytes m.id ++ intToBytes m.round ++
    intToBytes m.type ++ intToBytes m.msglen ++
      m.values.flatMap marshalBytes

/- The length says where a field ends. -/
theorem marshalBytes_inj
    {a b rest rest' : Bytes}
    (hEq : marshalBytes a ++ rest = marshalBytes b ++ rest') :
    a = b ∧ rest = rest' := by
  induction a generalizing b with
  | nil =>
      cases b with
      | nil => exact ⟨rfl, (List.cons.inj hEq).2⟩
      | cons y b => cases (List.cons.inj hEq).1
  | cons x a ih =>
      cases b with
      | nil => cases (List.cons.inj hEq).1
      | cons y b =>
          have hTail := (List.cons.inj hEq).2
          have hRest := (List.cons.inj hTail).2
          rcases ih hRest with ⟨rfl, hSame⟩
          exact ⟨by rw [(List.cons.inj hTail).1], hSame⟩

/- So a list of fields is determined. -/
theorem flatMap_marshalBytes_inj
    {a b : List Bytes}
    (hEq : a.flatMap marshalBytes = b.flatMap marshalBytes) :
    a = b := by
  induction a generalizing b with
  | nil =>
      cases b with
      | nil => rfl
      | cons y b =>
          rw [List.flatMap_cons] at hEq
          unfold marshalBytes at hEq
          simp at hEq
  | cons x a ih =>
      cases b with
      | nil =>
          rw [List.flatMap_cons] at hEq
          unfold marshalBytes at hEq
          simp at hEq
      | cons y b =>
          rw [List.flatMap_cons, List.flatMap_cons] at hEq
          rcases marshalBytes_inj hEq with ⟨rfl, hRest⟩
          rw [ih hRest]

/- So the message is determined. -/
theorem plainMarshal_injective :
    Function.Injective plainMarshal := by
  intro m m' hEq
  unfold plainMarshal at hEq
  simp only [List.append_assoc] at hEq
  rcases List.append_inj hEq rfl with ⟨hId, hEq⟩
  rcases List.append_inj hEq rfl with ⟨hRound, hEq⟩
  rcases List.append_inj hEq rfl with ⟨hType, hEq⟩
  rcases List.append_inj hEq rfl with ⟨hMsglen, hEq⟩
  cases m
  cases m'
  dsimp only at *
  rw [intToBytes_inj hId, intToBytes_inj hRound,
    intToBytes_inj hType, intToBytes_inj hMsglen,
    flatMap_marshalBytes_inj hEq]

/- A hash that does not collide on what follows. -/
def plainSha (bytes : Bytes) : Bytes :=
  List.replicate 32
    (bytes.foldl (fun acc b => acc * 31 + b + 1) 7)

/- Four shards of one byte. -/
def plainShards : List Bytes := [[1], [2], [3], [4]]

/- The tree over these shards. -/
def plainTree : List (List Bytes) × Bytes :=
  (MerkleTree.newTree plainSha plainShards).getD ([], [])

/- What the parties sign for the dispersal. -/
def plainSigned : SignMsg where
  id := 1
  round := 0
  type := 20
  msglen := 2
  values := [plainTree.2]

/-
  Signatures are the number of the party, for this message
  only.
-/
def plainConfig : Config 4 where
  prim :=
    { verify := fun id sign msg =>
        sign = List.replicate 64 (UInt8.ofNat id.val) ∧
          msg = plainMarshal plainSigned
      aggregateSign := fun _ _ _ => none
      aggregateVerify := fun _ _ _ => false
      blsVerify := fun _ _ _ => none
      blsAggregate := fun _ => none
      fastAggregateVerify := fun _ _ _ => none
      verifyAggregateHashes := fun _ _ _ => none }
  type := .schnorr
  sign := fun id _ => List.replicate 64 (UInt8.ofNat id.val)
  sha := plainSha
  marshal := plainMarshal
  encode := fun _ => some plainShards
  recover := fun _ => some plainShards

/- The dispersal of the first party to another one. -/
def plainDispersal (id : Fin 4) : NetAction 4 :=
  .dispersal id 0
    { plainSigned with
      values :=
        getMerklePath plainTree.1 plainTree.2 plainShards
          (plainShards.getD id.val [])
      sign := none
      ss := none }

/- A certificate of these members. -/
def plainMsg (mems : List (Fin 4)) : DumbomvbaMsg :=
  { plainSigned with
    sign := none
    ss :=
      some
        ⟨mems.flatMap fun id =>
            List.replicate 64 (UInt8.ofNat id.val),
          mems.map number⟩ }

/- Party 1 is shown a certificate of these parties. -/
def plainAccept (mems : List (Fin 4)) : NetAction 4 :=
  .accept 1 (plainMsg mems)

/- Three parties get their shard. -/
def plainRun : List (NetAction 4) :=
  [plainDispersal 1, plainDispersal 2, plainDispersal 3]

/- Where a run ends. -/
def plainNet (run : List (NetAction 4)) : Net 4 :=
  (network plainConfig).drive (fun _ _ => true) Net.new run

/- Whoever is correct has signed in the run. -/
theorem plainRun_authentic
    {s : Net 4} {mems : List (Fin 4)}
    (hSigned :
      ∀ id, id ≠ 0 →
        plainSigned ∈ (s.dm id 0).signed) :
    s.Authentic plainConfig {0} (plainAccept mems) := by
  intro batch _
  refine Crypto.genuine_verifyOnly fun id i msg hVerify => ?_
  rcases of_decide_eq_true hVerify with ⟨_, rfl⟩
  by_cases hFirst : id = 0
  · exact .inl (Finset.mem_singleton.mpr hFirst)
  · exact .inr ⟨0, plainSigned, hSigned id hFirst, rfl⟩

/- A party that stores its first path replaces none. -/
theorem meets_plainDispersal
    {s : Net 4} {id : Fin 4}
    (hNone : ∀ i, (s.dm id 0).paths i = none) :
    s.Meets {0} (plainDispersal id) := by
  intro _ i path _ hStored
  rw [hNone i] at hStored
  cases hStored

/- Nothing is forged in it. -/
theorem plainRun_reachable :
    (network plainConfig).ReachableBy
      (fun s a =>
        s.Authentic plainConfig {0} a ∧ s.Meets {0} a)
      (plainNet (plainRun ++ [plainAccept [1, 2, 3]])) := by
  refine Machine.ReachableBy.run .init _ ?_
  intro i a hAction
  match i with
  | 0 =>
      rw [← Option.some.inj hAction]
      exact
        ⟨trivial, meets_plainDispersal (by decide +kernel)⟩
  | 1 =>
      rw [← Option.some.inj hAction]
      exact
        ⟨trivial, meets_plainDispersal (by decide +kernel)⟩
  | 2 =>
      rw [← Option.some.inj hAction]
      exact
        ⟨trivial, meets_plainDispersal (by decide +kernel)⟩
  | 3 =>
      rw [← Option.some.inj hAction]
      refine
        ⟨plainRun_authentic (by decide +kernel), fun _ =>
          ⟨by decide +kernel, ?_⟩⟩
      intro batch hBatch
      rw [← Option.some.inj hBatch]
      decide +kernel
  | i + 4 => cases hAction

/- What was accepted is available. -/
theorem accepted_available_plain :
    (1, 0, plainMsg [1, 2, 3]) ∈
        (plainNet
          (plainRun ++ [plainAccept [1, 2, 3]])).accepted ∧
      Available plainConfig {0}
        (plainNet (plainRun ++ [plainAccept [1, 2, 3]])) 0
        (plainMsg [1, 2, 3]) := by
  have hAccepted :
      (1, 0, plainMsg [1, 2, 3]) ∈
        (plainNet
          (plainRun ++ [plainAccept [1, 2, 3]])).accepted := by
    decide +kernel
  exact
    ⟨hAccepted,
      accepted_available plainMarshal_injective
        plainRun_reachable 1 0 _ hAccepted (by decide)⟩

/- Nothing is available where nothing is stored. -/
theorem not_available
    {s : Net 4} {round : Nat} {msg : DumbomvbaMsg}
    (hNone : ∀ id i, (s.dm id round).paths i = none) :
    ¬ Available plainConfig {0} s round msg := by
  rintro ⟨i, root, _, _, holders, hEnough, hHolds⟩
  have hPos : 0 < holders.card :=
    Nat.lt_of_lt_of_le (by decide) hEnough
  rcases Finset.card_pos.mp hPos with ⟨id, hMem⟩
  rcases (hHolds id hMem).2 with ⟨path, hStored, _⟩
  rw [hNone id i] at hStored
  cases hStored

/-
  A certificate that names nobody is accepted, and so is one
  of a round before.
-/
theorem unavailable_accepted :
    (∃ s : Net 4,
      (network plainConfig).ReachableBy
          (fun s a => s.Authentic plainConfig {0} a) s ∧
        (1, 0, plainMsg []) ∈ s.accepted ∧
          ¬ Available plainConfig {0} s 0 (plainMsg [])) ∧
      ∃ s : Net 4,
        (network plainConfig).ReachableBy
            (fun s a => s.Authentic plainConfig {0} a) s ∧
          (1, 1, plainMsg [1, 2, 3]) ∈ s.accepted ∧
            ¬ Available plainConfig {0} s 1
              (plainMsg [1, 2, 3]) := by
  constructor
  · refine
      ⟨plainNet [plainAccept []], ?_, by decide +kernel,
        not_available (by decide +kernel)⟩
    refine Machine.ReachableBy.run .init _ ?_
    intro i a hAction
    match i with
    | 0 =>
        rw [← Option.some.inj hAction]
        intro batch hBatch
        rw [← Option.some.inj hBatch]
        refine
          Crypto.genuine_verifyOnly fun id i msg hVerify => ?_
        have hSign := (of_decide_eq_true hVerify).1
        have hLength := congrArg List.length hSign
        simp at hLength
    | i + 1 => cases hAction
  · refine
      ⟨plainNet (plainRun ++ [.next 1, plainAccept [1, 2, 3]]),
        ?_, by decide +kernel,
        not_available (by decide +kernel)⟩
    refine Machine.ReachableBy.run .init _ ?_
    intro i a hAction
    match i with
    | 0 | 1 | 2 | 3 =>
        rw [← Option.some.inj hAction]
        exact trivial
    | 4 =>
        rw [← Option.some.inj hAction]
        exact plainRun_authentic (by decide +kernel)
    | i + 5 => cases hAction

end DumboMVBA

end Jumbo
