import Jumbo.CertifiedBroadcast.Follower

/-
  The chain of blocks that a leader sends.

  A leader waits for the certificate of a block before it
  sends the next one, and the next one carries it. So what
  it has sent at any time is a chain whose blocks pass every
  check of a follower.

  Main declarations:
    * `ValidChain`
    * `leader`
    * `Led`
    * `Led.validChain`
-/

------------------------------------------------------------
-- Valid Chains
------------------------------------------------------------

namespace Jumbo

namespace CertifiedBroadcast

open Protocol
open Struct

variable {n : Nat}

/- The blocks of a leader, in the order of their heights. -/
structure ValidChain
    (cfg : Config n) (chain : List BCBlock) : Prop where
  fits : chain.length < 2 ^ 31
  height :
    ∀ (i : Nat) block, chain[i]? = some block →
      FutureBuffer.height block = i
  legal : ∀ block ∈ chain, Legal cfg block
  linked :
    ∀ (i : Nat) block next, chain[i]? = some block →
      chain[i + 1]? = some next →
        next.rawBC.lastblkid = cfg.hash block.rawBC

section Chain

variable {cfg : Config n} {chain : List BCBlock}

/- A chain has one block for each height. -/
theorem ValidChain.eq_of_height
    (hValid : ValidChain cfg chain)
    {block block' : BCBlock}
    (hMem : block ∈ chain) (hMem' : block' ∈ chain)
    (hEq :
      FutureBuffer.height block = FutureBuffer.height block') :
    block = block' := by
  rcases List.getElem?_of_mem hMem with ⟨i, hi⟩
  rcases List.getElem?_of_mem hMem' with ⟨j, hj⟩
  have hI := hValid.height i block hi
  have hJ := hValid.height j block' hj
  have hSame : i = j := by omega
  subst hSame
  rw [hi] at hj
  injection hj

/- Comparing heights as the code does, on 32 bits. -/
theorem ValidChain.height_lt_iff
    (hValid : ValidChain cfg chain) {bcf : BCF}
    (hLe : bcf.height ≤ chain.length) (block : BCBlock) :
    block.rawBC.height < bcf.int32height ↔
      FutureBuffer.height block < bcf.height := by
  have hFits := hValid.fits
  rw [Int32.lt_iff_toInt_lt]
  unfold BCF.int32height
  rw [Int32.toInt_ofNat_of_lt (by omega)]
  rfl

/- Heights do not wrap around within the chain. -/
theorem ValidChain.height_eq_iff
    (hValid : ValidChain cfg chain) {bcf : BCF}
    (hLe : bcf.height ≤ chain.length) (block : BCBlock) :
    block.rawBC.height = bcf.int32height ↔
      FutureBuffer.height block = bcf.height := by
  have hFits := hValid.fits
  rw [← Int32.toInt_inj]
  unfold BCF.int32height
  rw [Int32.toInt_ofNat_of_lt (by omega)]
  rfl

end Chain

end CertifiedBroadcast

end Jumbo

------------------------------------------------------------
-- The Leader's Run
------------------------------------------------------------

namespace Jumbo

namespace CertifiedBroadcast

open Crypto (Bytes)
open Protocol
open Struct

variable {n : Nat}

/- The leader makes a block or reads a payback. -/
inductive LeaderAction where
| propose (txblk : Bytes) (timestamp : Int64)
| receive (payback : PayBack)

/- One step of the leader. -/
def BCL.exec (cfg : Config n) (bcl : BCL) :
    LeaderAction → Option BCL
| .propose txblk timestamp => bcl.propose cfg txblk timestamp
| .receive payback => bcl.receive cfg payback

/- One leader that gets any signatures at all. -/
def leader (cfg : Config n) :
    Machine BCL LeaderAction where
  init := BCL.new
  exec := BCL.exec cfg

/- The block is the one the follower expects after these. -/
structure Extends
    (cfg : Config n) (sent : List BCBlock) (block : BCBlock) :
    Prop where
  leader : block.rawBC.leader = cfg.leader
  k : block.rawBC.k = cfg.sid
  sign :
    block.sign =
      some
        ⟨cfg.leader,
          cfg.sign cfg.lid
            (cfg.signbyte (cfg.hash block.rawBC)
              block.rawBC.height)⟩
  certified : BCF.checkcomsigns cfg block = true
  height : block.rawBC.height = Int32.ofNat sent.length
  linked :
    ∀ last, sent.getLast? = some last →
      block.rawBC.lastblkid = cfg.hash last.rawBC

/- Every block extends the ones sent before it. -/
def Grown (cfg : Config n) (sent : List BCBlock) : Prop :=
  ∀ i block, sent[i]? = some block →
    Extends cfg (sent.take i) block

/- The leader against the blocks it has sent. -/
structure Led (cfg : Config n) (bcl : BCL) : Prop where
  grown : Grown cfg bcl.sent
  -- the last block sent, while its signatures are collected
  waiting :
    ∀ block, bcl.waiting = some block →
      bcl.sent.length = bcl.height + 1 ∧
        bcl.sent.getLast? = some block
  certified :
    bcl.waiting = none →
      bcl.sent.length = bcl.height ∧
        ∀ last, bcl.sent.getLast? = some last →
          bcl.lastblkID = cfg.hash last.rawBC ∧
            cfg.verifies
              (cfg.signbyte bcl.lastblkID last.rawBC.height)
              bcl.lastbatch = true

section Led

variable {cfg : Config n} {bcl bcl' : BCL}
variable {sent : List BCBlock} {block : BCBlock}

/- A leader's own signatures verify. -/
theorem Extends.legal
    (hExtends : Extends cfg sent block)
    (hSign :
      ∀ msg, Crypto.verify cfg.prim cfg.type cfg.lid
        (cfg.sign cfg.lid msg) msg = some true) :
    Legal cfg block := by
  refine
    ⟨hExtends.leader, hExtends.k, ?_, hExtends.certified⟩
  unfold BCF.checkleadersign
  rw [hExtends.sign]
  simp only [Option.any_some, decide_eq_true_eq]
  exact hSign _

/- A block that extends the others may be added. -/
theorem Grown.append
    (hGrown : Grown cfg sent)
    (hExtends : Extends cfg sent block) :
    Grown cfg (sent ++ [block]) := by
  intro i other hOther
  by_cases hOld : i < sent.length
  · rw [List.getElem?_append_left hOld] at hOther
    rw [List.take_append_of_le_length hOld.le]
    exact hGrown i other hOther
  · have hLt := (List.getElem?_eq_some_iff.mp hOther).1
    rw [List.length_append, List.length_singleton] at hLt
    have hEq : i = sent.length := by omega
    subst hEq
    rw [List.getElem?_concat_length] at hOther
    cases hOther
    rw [List.take_left]
    exact hExtends

/- The blocks are numbered without a gap. -/
theorem Grown.height
    {i : Nat}
    (hGrown : Grown cfg sent)
    (hBlock : sent[i]? = some block) :
    block.rawBC.height = Int32.ofNat i := by
  have hLt := (List.getElem?_eq_some_iff.mp hBlock).1
  have hHeight := (hGrown i block hBlock).height
  rwa [List.length_take, Nat.min_eq_left hLt.le] at hHeight

/- The last block of a grown chain has the last height. -/
theorem Grown.last_height
    {last : BCBlock}
    (hGrown : Grown cfg sent)
    (hLast : sent.getLast? = some last) :
    last.rawBC.height + 1 = Int32.ofNat sent.length := by
  rw [List.getLast?_eq_getElem?] at hLast
  have hHeight := hGrown.height hLast
  have hLt := (List.getElem?_eq_some_iff.mp hLast).1
  have hSplit :
      sent.length = sent.length - 1 + 1 := by
    omega
  rw [hHeight, hSplit, Int32.ofNat_add, Nat.add_sub_cancel]
  rfl

/- The block a leader proposes extends what it has sent. -/
theorem Led.propose
    {txblk : Bytes} {timestamp : Int64}
    (hLed : Led cfg bcl)
    (hPropose :
      bcl.propose cfg txblk timestamp = some bcl') :
    Led cfg bcl' := by
  unfold BCL.propose at hPropose
  cases hWaiting : bcl.waiting with
  | some block =>
      rw [hWaiting] at hPropose
      cases hPropose
  | none =>
      rw [hWaiting] at hPropose
      rcases hLed.certified hWaiting with ⟨hLength, hLast⟩
      injection hPropose with hEq
      subst hEq
      have hCases :
          bcl.height = 0 ∨
            ∃ last, bcl.sent.getLast? = some last ∧
              bcl.height ≠ 0 := by
        by_cases hZero : bcl.height = 0
        · exact .inl hZero
        · right
          cases hEnd : bcl.sent.getLast? with
          | none =>
              have hNil := List.getLast?_eq_none_iff.mp hEnd
              rw [hNil] at hLength
              exact absurd hLength.symm hZero
          | some last => exact ⟨last, rfl, hZero⟩
      refine
        ⟨hLed.grown.append ⟨rfl, rfl, rfl, ?_, ?_, ?_⟩,
          ?_, fun h => by cases h⟩
      · unfold BCF.checkcomsigns
        rcases hCases with hZero | ⟨last, hEnd, hNe⟩
        · simp [BCL.rawBC, hZero]
        · have hBatch := (hLast last hEnd).2
          have hHeight := hLed.grown.last_height hEnd
          rw [hLength] at hHeight
          simp only [BCL.rawBC, if_neg hNe, Option.any_some,
            ← hHeight, Int32.add_sub_cancel, hBatch,
            Bool.or_true]
      · exact congrArg Int32.ofNat hLength.symm
      · intro last hEnd
        rcases hCases with hZero | ⟨_, _, hNe⟩
        · rw [hZero] at hLength
          rw [List.length_eq_zero_iff.mp hLength] at hEnd
          cases hEnd
        · exact
            (if_neg hNe).trans (hLast last hEnd).1
      · intro block hBlock
        cases hBlock
        constructor
        · simp [hLength]
        · simp

/- The certificate collected is for the last block. -/
theorem Led.receive
    {payback : PayBack}
    (hLed : Led cfg bcl)
    (hReceive : bcl.receive cfg payback = some bcl') :
    Led cfg bcl' := by
  unfold BCL.receive at hReceive
  cases hWaiting : bcl.waiting with
  | none =>
      rw [hWaiting] at hReceive
      cases hReceive
  | some block =>
      rw [hWaiting] at hReceive
      dsimp only at hReceive
      rcases hLed.waiting block hWaiting with
        ⟨hLength, hLast⟩
      split at hReceive
      · split at hReceive
        · split at hReceive
          · cases hReceive
          · rename_i batch hBatch
            rcases Option.ite_none_right_eq_some.mp hReceive
              with ⟨hVerify, hEq⟩
            cases hEq
            refine
              ⟨hLed.grown, fun _ h => (by cases h),
                fun _ => ⟨hLength, ?_⟩⟩
            intro last hEnd
            dsimp only at hEnd
            rw [hLast] at hEnd
            cases hEnd
            exact ⟨rfl, hVerify⟩
        · cases hReceive
          refine ⟨hLed.grown, ?_, fun h => by cases h⟩
          intro other hOther
          exact hLed.waiting other (hWaiting.trans hOther)
      · cases hReceive
        exact hLed

/- In every run the leader's blocks are a chain. -/
theorem led
    (hReach : (leader cfg).Reachable bcl) :
    Led cfg bcl := by
  refine hReach.invariant (Led cfg) ?_ ?_
  · refine ⟨?_, ?_, ?_⟩
    · intro i block hBlock
      cases hBlock
    · intro block hBlock
      cases hBlock
    · intro _
      refine ⟨rfl, ?_⟩
      intro last hLast
      cases hLast
  · intro s a s' _ hLed hExec
    cases a with
    | propose txblk timestamp =>
        exact hLed.propose hExec
    | receive payback => exact hLed.receive hExec

/- Until the heights wrap, what is sent is a valid chain. -/
theorem Led.validChain
    (hLed : Led cfg bcl)
    (hSign :
      ∀ msg, Crypto.verify cfg.prim cfg.type cfg.lid
        (cfg.sign cfg.lid msg) msg = some true)
    (hFits : bcl.sent.length < 2 ^ 31) :
    ValidChain cfg bcl.sent := by
  refine ⟨hFits, ?_, ?_, ?_⟩
  · intro i block hBlock
    have hLt := (List.getElem?_eq_some_iff.mp hBlock).1
    unfold FutureBuffer.height
    rw [hLed.grown.height hBlock,
      Int32.toInt_ofNat_of_lt (by omega)]
  · intro block hMem
    rcases List.getElem?_of_mem hMem with ⟨i, hBlock⟩
    exact (hLed.grown i block hBlock).legal hSign
  · intro i block next hBlock hNext
    have hLt := (List.getElem?_eq_some_iff.mp hNext).1
    apply (hLed.grown (i + 1) next hNext).linked
    rw [List.getLast?_take, if_neg (Nat.succ_ne_zero i),
      Nat.add_sub_cancel, hBlock]
    rfl

end Led

end CertifiedBroadcast

end Jumbo
