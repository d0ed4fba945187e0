import Jumbo.CertifiedBroadcast.Network

/-
  No two certified blocks at one height.

  A correct follower signs one block for each height, and a
  correct leader too. A certificate that names more than
  half of the parties and the Byzantine ones together shares
  a correct signer with every other such certificate. The
  checks of a certificate look at the members it names only
  one by one, so such a certificate is not enforced.

  Main declarations:
    * `members`
    * `Net.quorate`
    * `Sound`
    * `Sound.unique`
    * `consistent`
-/

------------------------------------------------------------
-- Conditions on a Step
------------------------------------------------------------

namespace Jumbo

namespace CertifiedBroadcast

open Crypto (Bytes)
open Protocol
open Struct

variable {n : Nat}

/- The parties a certificate names. -/
def members (n : Nat) (batch : BatchSignature) :
    Finset (Fin n) :=
  (batch.mems.filterMap (Crypto.key n)).toFinset

/-
  A certificate that a follower of a Byzantine leader relies
  on names enough parties, and heights do not come round.
-/
def Net.quorate
    (cfg : Config n) (faulty : Finset (Fin n)) (s : Net n) :
    NetAction n → Bool
| .follow lid sid nid a =>
    let bcf := s.follower lid sid nid
    bcf.height + 1 < 2 ^ 32 &&
      (lid ∉ faulty ||
        (bcf.handled a).all fun block =>
          block.rawBC.leader ≠ (cfg.of lid sid).leader ||
            block.rawBC.k ≠ sid ||
              block.rawBC.height ≠ bcf.int32height ||
                bcf.height = 0 ||
                  block.batchSigns.all fun batch =>
                    n + (n - 1) / 3 <
                      2 * (members n batch).card)
| .lead lid sid _ => (s.leader lid sid).height + 1 < 2 ^ 32

/- What holds in every run whose steps meet the conditions. -/
structure Sound
    (cfg : Config n) (faulty : Finset (Fin n)) (s : Net n) :
    Prop where
  authentic :
    ∀ lid sid nid block, (s.follower lid sid nid).Holds block →
      s.Authentic cfg faulty block
  heightFits :
    ∀ lid sid nid, (s.follower lid sid nid).height < 2 ^ 32
  sentFits :
    ∀ lid sid, (s.leader lid sid).sent.length < 2 ^ 32
  quorum :
    ∀ lid sid nid, lid ∈ faulty →
      ∀ (i : Nat) block,
        (s.follower lid sid nid).accepted[i + 1]? =
            some block →
          ∀ batch, block.batchSigns = some batch →
            n + (n - 1) / 3 < 2 * (members n batch).card
  sent :
    ∀ lid sid nid, lid ∉ faulty →
      ∀ block ∈ (s.follower lid sid nid).accepted,
        ∃ other ∈ (s.leader lid sid).sent,
          other.rawBC = block.rawBC

section Steps

variable {cfg : Config n} {faulty : Finset (Fin n)}
variable {s s' : Net n} {a : NetAction n}
variable {id : Fin n} {msg : Bytes}

/- Signatures that arrive change nothing about the blocks. -/
theorem sent_of_receive
    {bcl bcl' : BCL} {payback : PayBack}
    (hReceive : bcl.receive cfg payback = some bcl') :
    bcl'.sent = bcl.sent := by
  unfold BCL.receive at hReceive
  split at hReceive
  · cases hReceive
  · dsimp only at hReceive
    split at hReceive
    · split at hReceive
      · split at hReceive
        · cases hReceive
        · rcases Option.ite_none_right_eq_some.mp hReceive with
            ⟨_, hEq⟩
          cases hEq
          rfl
      · cases hReceive
        rfl
    · cases hReceive
      rfl

/- What a leader has sent stays sent. -/
theorem mem_sent_of_exec
    {bcl bcl' : BCL} {action : LeaderAction} {block : BCBlock}
    (hExec : bcl.exec cfg action = some bcl')
    (hMem : block ∈ bcl.sent) :
    block ∈ bcl'.sent := by
  cases action with
  | propose txblk timestamp =>
      change bcl.propose cfg txblk timestamp = some bcl'
        at hExec
      unfold BCL.propose at hExec
      split at hExec
      · cases hExec
      · cases hExec
        exact List.mem_append_left _ hMem
  | receive payback =>
      rw [sent_of_receive hExec]
      exact hMem

/- What has been signed stays signed. -/
theorem signed_of_exec
    (hReach : (network cfg faulty).Reachable s)
    (hExec : s.exec cfg faulty a = some s')
    (hSigned : s.Signed cfg faulty id msg) :
    s'.Signed cfg faulty id msg := by
  rcases hSigned with
    hFaulty | ⟨lid, sid, payback, hMem, hEq⟩ |
      ⟨sid, block, hMem, hEq⟩
  · exact .inl hFaulty
  · refine .inr (.inl ⟨lid, sid, payback, ?_, hEq⟩)
    rcases follower_of_exec hExec lid sid id with
      hSame | ⟨_, action, _, hStep⟩
    · rw [hSame]
      exact hMem
    · have hBuffered :=
        buffered (projected_follower hReach lid sid id)
      exact
        (exec_step hBuffered hStep).1.paybacks_subset hMem
  · refine .inr (.inr ⟨sid, block, ?_, hEq⟩)
    rcases leader_of_exec hExec id sid with
      hSame | ⟨action, _, hStep⟩
    · rw [hSame]
      exact hMem
    · exact mem_sent_of_exec hStep hMem

/- A block that is authentic stays so. -/
theorem authentic_of_exec
    {block : BCBlock}
    (hReach : (network cfg faulty).Reachable s)
    (hExec : s.exec cfg faulty a = some s')
    (hAuthentic : s.Authentic cfg faulty block) :
    s'.Authentic cfg faulty block where
  sign := fun sign hSign =>
    (hAuthentic.sign sign hSign).mono fun _ _ =>
      signed_of_exec hReach hExec
  batchSigns := fun batch hBatch =>
    (hAuthentic.batchSigns batch hBatch).mono fun _ _ =>
      signed_of_exec hReach hExec

/- A block held after a step is authentic before it. -/
theorem Sound.authentic_before
    {lid : Fin n} {sid : Int32} {nid : Fin n}
    {block : BCBlock}
    (hSound : Sound cfg faulty s)
    (hIdeal : s.Ideal cfg faulty a)
    (hExec : s.exec cfg faulty a = some s')
    (hHolds : (s'.follower lid sid nid).Holds block) :
    s.Authentic cfg faulty block := by
  rcases follower_of_exec hExec lid sid nid with
    hSame | ⟨_, action, rfl, hStep⟩
  · rw [hSame] at hHolds
    exact hSound.authentic lid sid nid block hHolds
  · rcases held_of_exec hStep hHolds with hOld | rfl
    · exact hSound.authentic lid sid nid block hOld
    · exact hIdeal

/- Different leaders have different numbers in their blocks. -/
theorem leader_inj
    {lid lid' : Fin n} {sid sid' : Int32}
    (hIds : n < 2 ^ 32)
    (hEq : (cfg.of lid sid).leader = (cfg.of lid' sid').leader) :
    lid = lid' := by
  have hVal : lid.val + 1 = lid'.val + 1 :=
    int32_ofNat_inj (by omega) (by omega) hEq
  exact Fin.ext (by omega)

/-
  A correct party that has signed a block has accepted it or
  sent it as the leader.
-/
theorem signed_cases
    {lid : Fin n} {sid : Int32} {rawBC : RawBC}
    (hReach : (network cfg faulty).Reachable s)
    (hIds : n < 2 ^ 32)
    (hHash : Function.Injective cfg.hash)
    (hCorrect : id ∉ faulty)
    (hSigned :
      s.Signed cfg faulty id
        ((cfg.of lid sid).signbyte (cfg.hash rawBC)
          rawBC.height)) :
    (∃ block ∈ (s.follower lid sid id).accepted,
        block.rawBC = rawBC) ∨
      id = lid ∧ ∃ block ∈ (s.leader lid sid).sent,
        block.rawBC = rawBC := by
  rcases hSigned with
    hFaulty | ⟨lid', sid', payback, hMem, hEq⟩ |
      ⟨sid', block, hMem, hEq⟩
  · exact absurd hFaulty hCorrect
  · rcases signbyte_inj hEq with ⟨hBlk, _, hLid, hSid⟩
    have hSame := leader_inj hIds hLid
    subst hSame
    change sid = sid' at hSid
    subst hSid
    rcases answers (projected_follower hReach lid sid id)
      payback hMem with ⟨block, hIn, hHashed, _⟩
    exact .inl ⟨block, hIn, hHash (hHashed.symm.trans hBlk.symm)⟩
  · rcases signbyte_inj hEq with ⟨hBlk, _, hLid, hSid⟩
    have hSame := leader_inj hIds hLid
    subst hSame
    change sid = sid' at hSid
    subst hSid
    exact .inr ⟨rfl, block, hMem, hHash hBlk.symm⟩

/- The conditions carry a sound state to the next one. -/
theorem Sound.follow
    {lid : Fin n} {sid : Int32} {nid : Fin n}
    {action : FollowerAction} {bcf' : BCF}
    (hReach : (network cfg faulty).Reachable s)
    (hSound : Sound cfg faulty s)
    (hOk : s.quorate cfg faulty (.follow lid sid nid action))
    (hStep :
      (s.follower lid sid nid).exec (cfg.of lid sid) nid
        action = some bcf') :
    bcf'.height < 2 ^ 32 ∧
      (lid ∈ faulty →
        ∀ (i : Nat) block,
          bcf'.accepted[i + 1]? = some block →
            ∀ batch, block.batchSigns = some batch →
              n + (n - 1) / 3 <
                2 * (members n batch).card) := by
  have hInstance := projected_follower hReach lid sid nid
  have hLength := (chained hInstance).length
  have hCase := (exec_step (buffered hInstance) hStep).1
  unfold Net.quorate at hOk
  simp only [Bool.and_eq_true, decide_eq_true_eq] at hOk
  rcases hOk with ⟨hFits, hQuorum⟩
  generalize (s.follower lid sid nid).handled action = handled
    at hCase hQuorum
  cases hCase with
  | keep =>
      exact
        ⟨hSound.heightFits lid sid nid,
          hSound.quorum lid sid nid⟩
  | accept futurebuffer block hAccept =>
      rw [BCF.generatepayback_height,
        BCF.generatepayback_accepted]
      refine ⟨hFits, ?_⟩
      intro hFaulty i other hOther batch hBatch
      by_cases hOld :
          i + 1 < (s.follower lid sid nid).accepted.length
      · rw [List.getElem?_append_left hOld] at hOther
        exact
          hSound.quorum lid sid nid hFaulty i other hOther
            batch hBatch
      · have hLt := (List.getElem?_eq_some_iff.mp hOther).1
        rw [List.length_append, List.length_singleton] at hLt
        have hEnd :
            i + 1 =
              (s.follower lid sid nid).accepted.length := by
          dsimp only at hLt
          omega
        dsimp only at hOther
        rw [hEnd, List.getElem?_concat_length] at hOther
        cases hOther
        have hPos : (s.follower lid sid nid).height ≠ 0 := by
          omega
        have hK : block.rawBC.k = sid := hAccept.k
        simp only [Option.all_some, hFaulty, hAccept.leader,
          hAccept.height, hK, hPos, hBatch, not_true_eq_false,
          ne_eq, decide_false, Bool.false_or,
          decide_eq_true_eq] at hQuorum
        exact hQuorum

/- A leader sends one more block at most. -/
theorem sent_length_of_exec
    {bcl bcl' : BCL} {action : LeaderAction}
    (hLed : Led cfg bcl)
    (hFits : bcl.height + 1 < 2 ^ 32)
    (hLength : bcl.sent.length < 2 ^ 32)
    (hExec : bcl.exec cfg action = some bcl') :
    bcl'.sent.length < 2 ^ 32 := by
  cases action with
  | propose txblk timestamp =>
      change bcl.propose cfg txblk timestamp = some bcl'
        at hExec
      unfold BCL.propose at hExec
      cases hWaiting : bcl.waiting with
      | some block =>
          rw [hWaiting] at hExec
          cases hExec
      | none =>
          rw [hWaiting] at hExec
          cases hExec
          rw [List.length_append,
            (hLed.certified hWaiting).1]
          exact hFits
  | receive payback =>
      rw [sent_of_receive hExec]
      exact hLength

/- A block of a correct leader's instance is one it sent. -/
theorem Sound.sent_of_exec
    {lid : Fin n} {sid : Int32} {nid : Fin n}
    (hReach : (network cfg faulty).Reachable s)
    (hIds : n < 2 ^ 32)
    (hHash : Function.Injective cfg.hash)
    (hSound : Sound cfg faulty s)
    (hIdeal : s.Ideal cfg faulty a)
    (hExec : s.exec cfg faulty a = some s')
    (hCorrect : lid ∉ faulty)
    {block : BCBlock}
    (hMem : block ∈ (s'.follower lid sid nid).accepted) :
    ∃ other ∈ (s.leader lid sid).sent,
      other.rawBC = block.rawBC := by
  have hAuthentic :=
    hSound.authentic_before hIdeal hExec (.inr (.inr hMem))
  have hLegal :=
    (chained (projected_follower (hReach.step hExec)
      lid sid nid)).legal block hMem
  have hSigned := hLegal.signed
  unfold BCF.checkleadersign at hSigned
  rcases (Option.any_eq_true _ _).mp hSigned with
    ⟨sign, hSign, hVerify⟩
  have hGenuine := hAuthentic.sign sign hSign
  rcases signed_cases hReach hIds hHash hCorrect
    (hGenuine.single (of_decide_eq_true hVerify)) with
    ⟨other, hOther, hEq⟩ | ⟨_, other, hOther, hEq⟩
  · rcases hSound.sent lid sid lid hCorrect other hOther with
      ⟨first, hFirst, hSame⟩
    exact ⟨first, hFirst, hSame.trans hEq⟩
  · exact ⟨other, hOther, hEq⟩

/- The invariant of a run whose steps meet the conditions. -/
theorem sound
    (hIds : n < 2 ^ 32)
    (hHash : Function.Injective cfg.hash)
    (hReach :
      (network cfg faulty).ReachableBy
        (fun s a =>
          s.Ideal cfg faulty a ∧ s.quorate cfg faulty a) s) :
    Sound cfg faulty s := by
  refine hReach.invariant (Sound cfg faulty) ?_ ?_
  · constructor
    · rintro lid sid nid block (h | h | h) <;> cases h
    · exact fun _ _ _ => Nat.two_pow_pos 32
    · exact fun _ _ => Nat.two_pow_pos 32
    · intro lid sid nid _ i block h
      cases h
    · intro lid sid nid _ block h
      cases h
  intro s a s' hBefore hSound hOk hExec
  have hRun := hBefore.reachable
  constructor
  · intro lid sid nid block hHolds
    exact authentic_of_exec hRun hExec
      (hSound.authentic_before hOk.1 hExec hHolds)
  · intro lid sid nid
    rcases follower_of_exec hExec lid sid nid with
      hSame | ⟨_, action, rfl, hStep⟩
    · rw [hSame]
      exact hSound.heightFits lid sid nid
    · exact (hSound.follow hRun hOk.2 hStep).1
  · intro lid sid
    rcases leader_of_exec hExec lid sid with
      hSame | ⟨action, rfl, hStep⟩
    · rw [hSame]
      exact hSound.sentFits lid sid
    · have hFits := of_decide_eq_true hOk.2
      exact
        sent_length_of_exec (led (projected_leader hRun _ _))
          hFits (hSound.sentFits lid sid) hStep
  · intro lid sid nid
    rcases follower_of_exec hExec lid sid nid with
      hSame | ⟨_, action, rfl, hStep⟩
    · rw [hSame]
      exact hSound.quorum lid sid nid
    · exact (hSound.follow hRun hOk.2 hStep).2
  · intro lid sid nid hCorrect block hMem
    rcases hSound.sent_of_exec hRun hIds hHash hOk.1 hExec
      hCorrect hMem with ⟨other, hOther, hEq⟩
    refine ⟨other, ?_, hEq⟩
    rcases leader_of_exec hExec lid sid with
      hSame | ⟨action, _, hStep⟩
    · rw [hSame]
      exact hOther
    · exact mem_sent_of_exec hStep hOther

end Steps

end CertifiedBroadcast

end Jumbo

------------------------------------------------------------
-- One Block for Each Height
------------------------------------------------------------

namespace Jumbo

namespace CertifiedBroadcast

open Crypto (Bytes)
open Protocol
open Struct

variable {n : Nat}

section Heights

variable {cfg : Config n} {bcf : BCF} {block block' : BCBlock}

/- The accepted blocks are numbered without a gap. -/
theorem Chained.height_eq
    {i : Nat}
    (hChained : Chained cfg bcf)
    (hBlock : bcf.accepted[i]? = some block) :
    block.rawBC.height = Int32.ofNat i := by
  have hLt := (List.getElem?_eq_some_iff.mp hBlock).1
  rw [hChained.length] at hLt
  have hHeight := congrArg (·[i]?) hChained.heights
  simp only [List.getElem?_map, hBlock, Option.map_some,
    List.getElem?_range hLt, Option.some.injEq] at hHeight
  exact hHeight

/- Until heights come round they tell blocks apart. -/
theorem Chained.eq_of_height
    (hChained : Chained cfg bcf)
    (hFits : bcf.height < 2 ^ 32)
    (hMem : block ∈ bcf.accepted)
    (hMem' : block' ∈ bcf.accepted)
    (hEq : block.rawBC.height = block'.rawBC.height) :
    block = block' := by
  rcases List.getElem?_of_mem hMem with ⟨i, hi⟩
  rcases List.getElem?_of_mem hMem' with ⟨j, hj⟩
  have hLength := hChained.length
  have hLt := (List.getElem?_eq_some_iff.mp hi).1
  have hLt' := (List.getElem?_eq_some_iff.mp hj).1
  rw [hChained.height_eq hi, hChained.height_eq hj] at hEq
  have hSame := int32_ofNat_inj (by omega) (by omega) hEq
  subst hSame
  rw [hi] at hj
  injection hj

/- Blocks that follow each other are at indices that do. -/
theorem succession_index
    {blocks : List BCBlock} {p : BCBlock × BCBlock}
    (hMem : p ∈ successions blocks) :
    ∃ i : Nat, blocks[i]? = some p.1 ∧
      blocks[i + 1]? = some p.2 := by
  rcases List.getElem?_of_mem hMem with ⟨i, hi⟩
  have hBoth := List.getElem?_zip_eq_some.mp hi
  rw [List.getElem?_tail] at hBoth
  exact ⟨i, hBoth⟩

/- A block put out is an accepted one with a successor. -/
theorem Chained.of_output
    (hChained : Chained cfg bcf)
    (hMem : block ∈ bcf.output) :
    ∃ p ∈ successions bcf.accepted,
      block.rawBC = p.1.rawBC := by
  rw [hChained.output] at hMem
  rcases List.mem_map.mp hMem with ⟨p, hPair, rfl⟩
  have hIn := (List.mem_filter.mp hPair).1
  have hLegal :=
    hChained.legal p.1 (mem_of_mem_successions hIn)
  refine ⟨p, hIn, ?_⟩
  unfold BCF.backBlock
  rw [← hLegal.k]

end Heights

section Uniqueness

variable {cfg : Config n} {faulty : Finset (Fin n)}
variable {s : Net n} {lid nid nid' : Fin n} {sid : Int32}
variable {p p' : BCBlock × BCBlock}

/- Enough parties have signed a block with a successor. -/
theorem Sound.signers
    (hReach : (network cfg faulty).Reachable s)
    (hSound : Sound cfg faulty s)
    (hFaulty : lid ∈ faulty)
    (hPair : p ∈ successions (s.follower lid sid nid).accepted) :
    ∃ quorum : Finset (Fin n),
      n + (n - 1) / 3 < 2 * quorum.card ∧
        ∀ id ∈ quorum,
          s.Signed cfg faulty id
            ((cfg.of lid sid).signbyte (cfg.hash p.1.rawBC)
              p.1.rawBC.height) := by
  have hChained := chained (projected_follower hReach lid sid nid)
  rcases succession_index hPair with ⟨i, hFirst, hNext⟩
  have hLt := (List.getElem?_eq_some_iff.mp hNext).1
  have hFits := hSound.heightFits lid sid nid
  rw [hChained.length] at hLt
  have hNe : p.2.rawBC.height ≠ 0 := by
    rw [hChained.height_eq hNext]
    intro hZero
    have hSame :=
      int32_ofNat_inj (b := 0) (by omega) (by omega) hZero
    omega
  rcases (hChained.succeeds p hPair).certified hNe with
    ⟨batch, hBatch, hVerify⟩
  have hGenuine :=
    (hSound.authentic lid sid nid p.2
      (.inr (.inr (List.mem_of_getElem? hNext)))).batchSigns
      batch hBatch
  refine
    ⟨members n batch,
      hSound.quorum lid sid nid hFaulty i p.2 hNext batch
        hBatch, ?_⟩
  intro id hId
  rcases List.mem_filterMap.mp (List.mem_toFinset.mp hId) with
    ⟨mem, hMem, hKey⟩
  rcases hGenuine.batch (of_decide_eq_true hVerify) hMem with
    ⟨id', hKey', hSigned⟩
  rw [hKey] at hKey'
  cases hKey'
  exact hSigned

/- Two certified blocks at one height are one block. -/
theorem Sound.unique
    (hReach : (network cfg faulty).Reachable s)
    (hIds : n < 2 ^ 32)
    (hFew : faulty.card ≤ (n - 1) / 3)
    (hHash : Function.Injective cfg.hash)
    (hSound : Sound cfg faulty s)
    (hPair :
      p ∈ successions (s.follower lid sid nid).accepted)
    (hPair' :
      p' ∈ successions (s.follower lid sid nid').accepted)
    (hEq : p.1.rawBC.height = p'.1.rawBC.height) :
    p.1.rawBC = p'.1.rawBC := by
  by_cases hFaulty : lid ∈ faulty
  · -- the two certificates share a correct signer
    rcases hSound.signers hReach hFaulty hPair with
      ⟨quorum, hCard, hSigned⟩
    rcases hSound.signers hReach hFaulty hPair' with
      ⟨quorum', hCard', hSigned'⟩
    have hLarge :
        Fintype.card (Fin n) + faulty.card <
          quorum.card + quorum'.card := by
      rw [Fintype.card_fin]
      omega
    rcases exists_mem_inter_of_third hLarge with
      ⟨id, hId, hId', hCorrect⟩
    have hAccepted :
        ∀ rawBC : RawBC,
          s.Signed cfg faulty id
              ((cfg.of lid sid).signbyte (cfg.hash rawBC)
                rawBC.height) →
            ∃ block ∈ (s.follower lid sid id).accepted,
              block.rawBC = rawBC := by
      intro rawBC hSign
      rcases signed_cases hReach hIds hHash hCorrect hSign
        with hIn | ⟨rfl, _⟩
      · exact hIn
      · exact absurd hFaulty hCorrect
    rcases hAccepted _ (hSigned id hId) with
      ⟨block, hMem, hRaw⟩
    rcases hAccepted _ (hSigned' id hId') with
      ⟨block', hMem', hRaw'⟩
    have hSame :=
      (chained
        (projected_follower hReach lid sid id)).eq_of_height
        (hSound.heightFits lid sid id) hMem hMem'
        (by rw [hRaw, hRaw', hEq])
    rw [← hRaw, ← hRaw', hSame]
  · -- both are blocks of the correct leader
    rcases hSound.sent lid sid nid hFaulty p.1
      (mem_of_mem_successions hPair) with
      ⟨block, hMem, hRaw⟩
    rcases hSound.sent lid sid nid' hFaulty p'.1
      (mem_of_mem_successions hPair') with
      ⟨block', hMem', hRaw'⟩
    have hGrown := (led (projected_leader hReach lid sid)).grown
    have hFits := hSound.sentFits lid sid
    rcases List.getElem?_of_mem hMem with ⟨i, hi⟩
    rcases List.getElem?_of_mem hMem' with ⟨j, hj⟩
    have hLt := (List.getElem?_eq_some_iff.mp hi).1
    have hLt' := (List.getElem?_eq_some_iff.mp hj).1
    rw [← hRaw, ← hRaw', hGrown.height hi,
      hGrown.height hj] at hEq
    have hSame := int32_ofNat_inj (by omega) (by omega) hEq
    subst hSame
    rw [hi] at hj
    cases hj
    rw [← hRaw, ← hRaw']

/-
  In every run whose steps meet the conditions, no two
  blocks put out or certified at one height differ.
-/
theorem consistent
    (hIds : n < 2 ^ 32)
    (hFew : faulty.card ≤ (n - 1) / 3)
    (hHash : Function.Injective cfg.hash)
    (hReach :
      (network cfg faulty).ReachableBy
        (fun s a =>
          s.Ideal cfg faulty a ∧ s.quorate cfg faulty a) s) :
    (∀ lid sid nid nid',
      ∀ block ∈ (s.follower lid sid nid).output,
        ∀ block' ∈ (s.follower lid sid nid').output,
          block.rawBC.height = block'.rawBC.height →
            block.rawBC = block'.rawBC) ∧
    ∀ lid sid nid nid',
      ∀ p ∈ successions (s.follower lid sid nid).accepted,
        ∀ p' ∈ successions (s.follower lid sid nid').accepted,
          p.1.rawBC.height = p'.1.rawBC.height →
            p.1.rawBC = p'.1.rawBC := by
  have hRun := hReach.reachable
  have hSound := sound hIds hHash hReach
  constructor
  · intro lid sid nid nid' block hMem block' hMem' hEq
    rcases (chained
      (projected_follower hRun lid sid nid)).of_output hMem
      with ⟨p, hPair, hRaw⟩
    rcases (chained
      (projected_follower hRun lid sid nid')).of_output hMem'
      with ⟨p', hPair', hRaw'⟩
    rw [hRaw, hRaw'] at hEq ⊢
    exact
      hSound.unique hRun hIds hFew hHash hPair hPair' hEq
  · intro lid sid nid nid' p hPair p' hPair' hEq
    exact
      hSound.unique hRun hIds hFew hHash hPair hPair' hEq

end Uniqueness

end CertifiedBroadcast

end Jumbo

------------------------------------------------------------
-- A Byzantine Leader
------------------------------------------------------------

namespace Jumbo

namespace CertifiedBroadcast

open Crypto (Bytes)
open Protocol
open Struct

/- A number that can be told from what comes behind it. -/
def unary (x : Nat) : Bytes :=
  List.replicate x 1 ++ [0]

/- The number and the rest are determined. -/
theorem unary_append_inj
    {x y : Nat} {xs ys : Bytes}
    (hEq : unary x ++ xs = unary y ++ ys) :
    x = y ∧ xs = ys := by
  induction x generalizing y with
  | zero =>
      cases y with
      | zero => exact ⟨rfl, List.append_cancel_left hEq⟩
      | succ y =>
          simp [unary, List.replicate_succ] at hEq
  | succ x ih =>
      cases y with
      | zero =>
          simp [unary, List.replicate_succ] at hEq
      | succ y =>
          have hTail : unary x ++ xs = unary y ++ ys := by
            simpa [unary, List.replicate_succ] using hEq
          rcases ih hTail with ⟨rfl, hRest⟩
          exact ⟨rfl, hRest⟩

/- Every field can be read off the bytes. -/
def plainHash (rawBC : RawBC) : Bytes :=
  unary rawBC.height.toUInt32.toNat ++
    (unary rawBC.leader.toUInt32.toNat ++
      (unary rawBC.k.toUInt32.toNat ++
        (unary rawBC.timestamp.toUInt64.toNat ++
          (unary rawBC.txcount.toUInt32.toNat ++
            (unary rawBC.root.length ++
              (rawBC.root ++ rawBC.lastblkid))))))

/- No two blocks have the same hash. -/
theorem plainHash_injective :
    Function.Injective plainHash := by
  intro r r' hEq
  unfold plainHash at hEq
  rcases unary_append_inj hEq with ⟨hHeight, hEq⟩
  rcases unary_append_inj hEq with ⟨hLeader, hEq⟩
  rcases unary_append_inj hEq with ⟨hK, hEq⟩
  rcases unary_append_inj hEq with ⟨hTime, hEq⟩
  rcases unary_append_inj hEq with ⟨hCount, hEq⟩
  rcases unary_append_inj hEq with ⟨hLength, hEq⟩
  rcases List.append_inj hEq hLength with ⟨hRoot, hLast⟩
  have hTime :=
    congrArg UInt64.toInt64 (UInt64.toNat.inj hTime)
  simp only [Int64.toInt64_toUInt64] at hTime
  cases r
  cases r'
  rw [RawBC.mk.injEq]
  exact
    ⟨hLast, int32_eq_of_toNat hHeight, hRoot,
      int32_eq_of_toNat hLeader, int32_eq_of_toNat hK, hTime,
      int32_eq_of_toNat hCount⟩

/- Blocks of leader 1, with the message signed for each. -/
def forkRaw (lastblkid : Bytes) (height : Int32)
    (root : UInt8) : RawBC :=
  ⟨lastblkid, height, [root], 1, 1, 0, 0⟩

/- A first block with a root. -/
def forkFirst (root : UInt8) : RawBC :=
  forkRaw [] 0 root

/- A second block on it, with the same root. -/
def forkSecond (root : UInt8) : RawBC :=
  forkRaw (plainHash (forkFirst root)) 1 root

/- All that may be signed under these blocks. -/
def forkMsgs : List Bytes :=
  [forkFirst 7, forkSecond 7, forkFirst 8, forkSecond 8].map
    fun rawBC =>
      Struct.signbyte (plainHash rawBC) rawBC.height 1 1

/- One signature for each party and message. -/
def tableSign (id : Fin 4) (msg : Bytes) : Bytes :=
  List.replicate 64
    (UInt8.ofNat (id.val + 4 * forkMsgs.idxOf msg))

/- Signatures that are looked up in a table. -/
def tablePrimitives : Crypto.Primitives 4 where
  verify := fun id sign msg =>
    msg ∈ forkMsgs && sign = tableSign id msg
  aggregateSign := fun _ _ _ => none
  aggregateVerify := fun _ _ _ => false
  blsVerify := fun _ _ _ => none
  blsAggregate := fun _ => none
  fastAggregateVerify := fun _ _ _ => none
  verifyAggregateHashes := fun _ _ _ => none

/- The configuration with that table. -/
def forkConfig : Config 4 where
  prim := tablePrimitives
  type := .schnorr
  sign := tableSign
  hash := plainHash
  sha256 := id
  lid := 0
  sid := 1
  testmode := true

/- A block as the Byzantine leader sends it. -/
def forkBlock (rawBC : RawBC) (batch : BatchSignature) :
    BCBlock where
  rawBC := rawBC
  sign :=
    some
      ⟨1, tableSign 0
        (Struct.signbyte (plainHash rawBC) rawBC.height 1 1)⟩
  batchSigns := some batch

/- A follower is sent a block. -/
def forkSend (nid : Fin 4) (rawBC : RawBC)
    (batch : BatchSignature) : NetAction 4 :=
  .follow 0 1 nid (.receive (forkBlock rawBC batch))

/- A signature tells its signer and its message. -/
theorem tableSign_inj
    {id id' : Fin 4} {msg msg' : Bytes}
    (hMsg : msg ∈ forkMsgs) (hMsg' : msg' ∈ forkMsgs)
    (hEq : tableSign id msg = tableSign id' msg') :
    id = id' ∧ msg = msg' := by
  have hHead :
      UInt8.ofNat (id.val + 4 * forkMsgs.idxOf msg) =
        UInt8.ofNat (id'.val + 4 * forkMsgs.idxOf msg') := by
    unfold tableSign at hEq
    exact (List.replicate_right_inj (by decide)).mp hEq
  have hLt := List.idxOf_lt_length_of_mem hMsg
  have hLt' := List.idxOf_lt_length_of_mem hMsg'
  have hLength : forkMsgs.length = 4 := rfl
  have hNat := congrArg UInt8.toNat hHead
  simp at hNat
  have hSame :
      forkMsgs.idxOf msg = forkMsgs.idxOf msg' := by
    omega
  exact
    ⟨Fin.ext (by omega), (List.idxOf_inj hMsg).mp hSame⟩

/- A row of signatures is genuine when each of them is. -/
theorem genuine_table
    {signed : Fin 4 → Bytes → Prop}
    (signs : List (Fin 4 × Bytes))
    (hSigned :
      ∀ p ∈ signs, p.2 ∈ forkMsgs ∧ signed p.1 p.2) :
    Crypto.Genuine tablePrimitives signed
      (signs.flatMap fun p => tableSign p.1 p.2) := by
  refine Crypto.genuine_verifyOnly fun id i msg hVerify => ?_
  simp only [Bool.and_eq_true, decide_eq_true_eq] at hVerify
  rcases hVerify with ⟨hMsg, hSign⟩
  induction signs generalizing i with
  | nil => simp [tableSign] at hSign
  | cons p signs ih =>
      have hLength : (tableSign p.1 p.2).length = 64 := by
        simp [tableSign]
      rw [List.flatMap_cons] at hSign
      cases i with
      | zero =>
          rw [Nat.mul_zero, List.drop_zero,
            List.take_left' hLength] at hSign
          have hFirst := hSigned p List.mem_cons_self
          rcases tableSign_inj hFirst.1 hMsg hSign with
            ⟨rfl, rfl⟩
          exact hFirst.2
      | succ i =>
          apply ih
            (fun q hq => hSigned q (List.mem_cons_of_mem _ hq))
            i
          rw [← hSign, Nat.mul_succ, Nat.add_comm,
            ← List.drop_drop, List.drop_left' hLength]

/- Members are counted from one. -/
def forkBatch (signers : List (Fin 4 × Bytes)) :
    BatchSignature where
  signs := signers.flatMap fun p => tableSign p.1 p.2
  mems := signers.map fun p => Int32.ofNat (p.1.val + 1)

/- Sending a block whose signers have signed forges nothing. -/
theorem ideal_forkSend
    {s : Net 4} {nid : Fin 4} {rawBC : RawBC}
    {signers : List (Fin 4 × Bytes)}
    (hMsg :
      Struct.signbyte (plainHash rawBC) rawBC.height 1 1 ∈
        forkMsgs)
    (hSigned :
      ∀ p ∈ signers, p.2 ∈ forkMsgs ∧
        s.Signed forkConfig {0} p.1 p.2) :
    s.Ideal forkConfig {0}
      (forkSend nid rawBC (forkBatch signers)) where
  sign := by
    intro sign hSign
    cases hSign
    have hGenuine :=
      @genuine_table (s.Signed forkConfig {0})
        [(0,
          Struct.signbyte (plainHash rawBC) rawBC.height 1 1)]
    rw [List.flatMap_singleton] at hGenuine
    apply hGenuine
    intro p hMem
    cases List.mem_singleton.mp hMem
    exact ⟨hMsg, .inl (Finset.mem_singleton_self _)⟩
  batchSigns := by
    intro batch hBatch
    cases hBatch
    exact genuine_table signers hSigned

/- The message that everybody signs for the first block. -/
def forkMsg : Bytes :=
  Struct.signbyte (plainHash (forkFirst 7)) 0 1 1

/-
  Three parties sign the first block and two accept the
  second.
-/
def quorumRun : List (NetAction 4) :=
  let batch :=
    forkBatch [(1, forkMsg), (2, forkMsg), (3, forkMsg)]
  [forkSend 1 (forkFirst 7) (forkBatch []),
    forkSend 2 (forkFirst 7) (forkBatch []),
    forkSend 3 (forkFirst 7) (forkBatch []),
    forkSend 1 (forkSecond 7) batch,
    forkSend 2 (forkSecond 7) batch]

/- The state after some steps of that run. -/
def quorumState (i : Nat) : Net 4 :=
  (network forkConfig {0}).drive (fun _ _ => true) Net.new
    (quorumRun.take i)

/- The signatures are there before they are sent. -/
theorem quorumRun_signed
    {i : Nat} (hLate : i = 3 ∨ i = 4) :
    ∀ p ∈ [(1, forkMsg), (2, forkMsg), (3, forkMsg)],
      p.2 ∈ forkMsgs ∧
        (quorumState i).Signed forkConfig {0} p.1 p.2 := by
  have hPayback :
      ∀ id : Fin 4, id ≠ 0 →
        ∃ payback ∈
          ((quorumState i).follower 0 1 id).paybacks,
          forkMsg =
            (forkConfig.of 0 1).signbyte payback.blkID
              payback.round := by
    rcases hLate with rfl | rfl
    · decide +kernel
    · decide +kernel
  have hMsg : forkMsg ∈ forkMsgs := by decide +kernel
  intro p hMem
  simp only [List.mem_cons, List.not_mem_nil, or_false] at hMem
  rcases hMem with rfl | rfl | rfl
  · exact ⟨hMsg, .inr (.inl ⟨0, 1, hPayback 1 (by decide)⟩)⟩
  · exact ⟨hMsg, .inr (.inl ⟨0, 1, hPayback 2 (by decide)⟩)⟩
  · exact ⟨hMsg, .inr (.inl ⟨0, 1, hPayback 3 (by decide)⟩)⟩

/- Nothing is forged and all certificates have a quorum. -/
theorem quorumRun_reachable :
    (network forkConfig {0}).ReachableBy
      (fun s a =>
        s.Ideal forkConfig {0} a ∧ s.quorate forkConfig {0} a)
      (quorumState 5) := by
  refine Machine.ReachableBy.run .init quorumRun ?_
  intro i a hAction
  have hNone :
      ∀ {s : Net 4}, ∀ p ∈ ([] : List (Fin 4 × Bytes)),
        p.2 ∈ forkMsgs ∧
          s.Signed forkConfig {0} p.1 p.2 := by
    intro s p hMem
    cases hMem
  match i with
  | 0 =>
      cases hAction
      exact
        ⟨ideal_forkSend (by decide +kernel) hNone,
          by decide +kernel⟩
  | 1 =>
      cases hAction
      exact
        ⟨ideal_forkSend (by decide +kernel) hNone,
          by decide +kernel⟩
  | 2 =>
      cases hAction
      exact
        ⟨ideal_forkSend (by decide +kernel) hNone,
          by decide +kernel⟩
  | 3 =>
      cases hAction
      exact
        ⟨ideal_forkSend (by decide +kernel)
          (quorumRun_signed (.inl rfl)), by decide +kernel⟩
  | 4 =>
      cases hAction
      exact
        ⟨ideal_forkSend (by decide +kernel)
          (quorumRun_signed (.inr rfl)), by decide +kernel⟩
  | i + 5 => cases hAction

/- Both followers put out the same block. -/
theorem consistent_quorum :
    ((quorumState 5).follower 0 1 1).output.length = 1 ∧
      ((quorumState 5).follower 0 1 2).output.length = 1 ∧
        ∀ block ∈ ((quorumState 5).follower 0 1 1).output,
          ∀ block' ∈ ((quorumState 5).follower 0 1 2).output,
            block.rawBC.height = block'.rawBC.height →
              block.rawBC = block'.rawBC :=
  ⟨by decide +kernel, by decide +kernel,
    (consistent (by decide) (by decide) plainHash_injective
      quorumRun_reachable).1 0 1 1 2⟩

/- Certificates that name nobody verify. -/
def forkRun : List (NetAction 4) :=
  [forkSend 1 (forkFirst 7) (forkBatch []),
    forkSend 1 (forkSecond 7) (forkBatch []),
    forkSend 2 (forkFirst 8) (forkBatch []),
    forkSend 2 (forkSecond 8) (forkBatch [])]

/-
  With empty certificates two followers put out different
  blocks at one height.
-/
theorem consistent_fork :
    Function.Injective forkConfig.hash ∧
      ∃ s,
        (network forkConfig {0}).ReachableBy
            (fun s a => s.Ideal forkConfig {0} a) s ∧
          ∃ block ∈ (s.follower 0 1 1).output,
            ∃ block' ∈ (s.follower 0 1 2).output,
              block.rawBC.height = block'.rawBC.height ∧
                block.rawBC ≠ block'.rawBC := by
  refine
    ⟨plainHash_injective,
      (network forkConfig {0}).drive (fun _ _ => true) Net.new
        forkRun, ?_, by decide +kernel⟩
  refine Machine.ReachableBy.run .init forkRun ?_
  intro i a hAction
  have hMem := List.mem_of_getElem? hAction
  have hSend :
      ∃ nid, ∃ rawBC : RawBC,
        Struct.signbyte (plainHash rawBC) rawBC.height 1 1 ∈
            forkMsgs ∧
          a = forkSend nid rawBC (forkBatch []) := by
    simp only [forkRun, List.mem_cons, List.not_mem_nil,
      or_false] at hMem
    rcases hMem with rfl | rfl | rfl | rfl
    · exact ⟨1, forkFirst 7, by decide +kernel, rfl⟩
    · exact ⟨1, forkSecond 7, by decide +kernel, rfl⟩
    · exact ⟨2, forkFirst 8, by decide +kernel, rfl⟩
    · exact ⟨2, forkSecond 8, by decide +kernel, rfl⟩
  rcases hSend with ⟨nid, rawBC, hMsg, rfl⟩
  apply ideal_forkSend hMsg
  intro p hNone
  cases hNone

end CertifiedBroadcast

end Jumbo
