import Jumbo.CertifiedBroadcast.Arrival

/-
  The follower of the single-leader chain.

  It is a copy of the follower of a certified broadcast, with
  the same future buffer. A timely block is checked with the
  key of party 1; an early one is checked with the key of the
  follower itself.

  Main declarations:
    * `Config`
    * `BCF`
    * `BCF.receive` and `BCF.next`
    * `ValidChain`
    * `OnChain`
    * `OnChain.handle`
-/

------------------------------------------------------------
-- The Follower
------------------------------------------------------------

namespace Jumbo

namespace SimpleHotStuff

open Crypto (Bytes)
open Struct
open CertifiedBroadcast (FutureBuffer PayBack)

/- The signatures and the hash. -/
structure Config (n : Nat) where
  prim : Crypto.Primitives n
  type : Crypto.SignatureType
  sign : Fin n → Bytes → Bytes
  -- SHA-256 of a marshalled `RawBC`
  hash : RawBC → Bytes

variable {n : Nat}

namespace Config

/- What is signed for a block. -/
def signbyte (blkID : Bytes) (height : Int32) : Bytes :=
  blkID ++ intToBytes height

/- `Verify` of the block's signature under one key. -/
def verifies (cfg : Config n) (key : Fin n)
    (block : BCBlock) : Bool :=
  block.sign.any fun sign =>
    Crypto.verify cfg.prim cfg.type key sign.content
      (signbyte (cfg.hash block.rawBC)
        block.rawBC.height) = some true

/- `BatchSignatureVerify` without panic, result true. -/
def verifiesBatch (cfg : Config n) (lastblkID : Bytes)
    (block : BCBlock) : Bool :=
  block.batchSigns.any fun batch =>
    Crypto.batchSignatureVerify cfg.prim cfg.type batch.signs
      (signbyte lastblkID (block.rawBC.height - 1))
      batch.mems = some true

end Config

/- What a follower keeps. -/
structure BCF where
  height : Nat
  lastblkID : Bytes
  lastblock : Option BCBlock
  futurebuffer : FutureBuffer
  output : List BCBlock
  msgOut : List PayBack

namespace BCF

/- A follower before the first block. -/
def new : BCF where
  height := 0
  lastblkID := []
  lastblock := none
  futurebuffer := ⟨-1, []⟩
  output := []
  msgOut := []

/- The height as it stands in a message. -/
def int32height (bcf : BCF) : Int32 :=
  Int32.ofNat bcf.height

/- The block follows the last one, or is the first. -/
def checkblockid (bcf : BCF) (block : BCBlock) : Bool :=
  block.rawBC.height = 0 ||
    bcf.lastblkID = block.rawBC.lastblkid

/- The certificate for the block before. -/
def checkcomsigns (cfg : Config n) (block : BCBlock) : Bool :=
  block.rawBC.height = 0 ||
    cfg.verifiesBatch block.rawBC.lastblkid block

/- The key is that of the follower: `bcf.id-1`. -/
def checkleadersign (cfg : Config n) (id : Fin n)
    (block : BCBlock) : Bool :=
  cfg.verifies id block

/- The signature that the follower sends back. -/
def payback
    (cfg : Config n) (id : Fin n) (bcf : BCF)
    (block : BCBlock) : PayBack where
  round := bcf.int32height
  blkID := cfg.hash block.rawBC
  sign :=
    { id := Int32.ofNat (id.val + 1)
      content :=
        cfg.sign id
          (Config.signbyte (cfg.hash block.rawBC)
            block.rawBC.height) }

/- What is put out is the `RawBC` of the last block. -/
def backBlock (lastblock : BCBlock) : BCBlock where
  rawBC := lastblock.rawBC
  sign := none
  batchSigns := none

/-
  The block is accepted, paid back if it has a root, and the
  one before is put out.
-/
def generatepayback
    (cfg : Config n) (id : Fin n) (bcf : BCF)
    (block : BCBlock) : BCF :=
  let bcf :=
    if block.rawBC.root = [] then bcf
    else
      { bcf with
        msgOut := bcf.msgOut ++ [bcf.payback cfg id block]
        output :=
          if 0 < bcf.height then
            bcf.output ++ bcf.lastblock.toList.map backBlock
          else bcf.output }
  { bcf with
    lastblkID := cfg.hash block.rawBC
    lastblock := some block
    height := bcf.height + 1 }

/-
  The key is that of party 1. After its checks it does what
  `generatepayback` does.
-/
def check_bcblock [NeZero n]
    (cfg : Config n) (id : Fin n) (bcf : BCF)
    (block : BCBlock) : Option BCF :=
  let checked :=
    block.rawBC.height = 0 ||
      (bcf.lastblkID = block.rawBC.lastblkid &&
        cfg.verifiesBatch bcf.lastblkID block)
  if checked && cfg.verifies 0 block then
    some (bcf.generatepayback cfg id block)
  else none

/- The body of `handle_bcblock` for a block it has got. -/
def handle [NeZero n]
    (cfg : Config n) (id : Fin n) (isfuture : Bool)
    (bcf : BCF) (block : BCBlock) : Option BCF :=
  if block.rawBC.height < bcf.int32height then some bcf
  else if block.rawBC.height = bcf.int32height then
    if isfuture then
      if bcf.checkblockid block then
        some (bcf.generatepayback cfg id block)
      else none
    else bcf.check_bcblock cfg id block
  else if checkleadersign cfg id block &&
      checkcomsigns cfg block then
    some { bcf with
      futurebuffer := bcf.futurebuffer.put block }
  else none

/- The loop at the head of an iteration. -/
def clean (bcf : BCF) : BCF :=
  { bcf with
    futurebuffer :=
      FutureBuffer.clean bcf.height bcf.futurebuffer.lowwest
        bcf.futurebuffer.bcblocks }

/- The buffer is thought to hold the next block. -/
def ready (bcf : BCF) : Bool :=
  bcf.futurebuffer.lowwest = bcf.height && bcf.height ≠ 0

/-
  An iteration that takes its block from the future buffer;
  an empty buffer gives a block without `RawBC`.
-/
def next [NeZero n]
    (cfg : Config n) (id : Fin n) (bcf : BCF) : Option BCF :=
  let bcf := bcf.clean
  if bcf.ready then
    match bcf.futurebuffer.getlowwest with
    | (some block, futurebuffer) =>
        { bcf with futurebuffer := futurebuffer }.handle
          cfg id true block
    | (none, _) => none
  else none

/- An iteration that reads a message. -/
def receive [NeZero n]
    (cfg : Config n) (id : Fin n) (bcf : BCF)
    (block : BCBlock) : Option BCF :=
  let bcf := bcf.clean
  if bcf.ready then none
  else if block.rawBC.leader = 1 then
    bcf.handle cfg id false block
  else some bcf

/- Iterations that find their block in the buffer. -/
def settle [NeZero n] (cfg : Config n) (id : Fin n) :
    Nat → BCF → Option BCF
| 0, bcf => some bcf
| fuel + 1, bcf =>
    if bcf.clean.ready then
      (bcf.next cfg id).bind (settle cfg id fuel)
    else some bcf.clean

/-
  A message is read and the follower goes on until it reads
  again; every iteration takes a block out of the buffer.
-/
def arrive [NeZero n]
    (cfg : Config n) (id : Fin n) (bcf : BCF)
    (block : BCBlock) : Option BCF :=
  (bcf.receive cfg id block).bind fun bcf =>
    bcf.settle cfg id (bcf.futurebuffer.bcblocks.length + 1)

/- The follower reads the blocks one after another. -/
def process [NeZero n]
    (cfg : Config n) (id : Fin n) (blocks : List BCBlock) :
    Option BCF :=
  blocks.foldlM (arrive cfg id) BCF.new

/- The block is early and below the cached lowest height. -/
def shadows (bcf : BCF) (block : BCBlock) : Prop :=
  bcf.height < FutureBuffer.height block ∧
    bcf.futurebuffer.bcblocks ≠ [] ∧
      FutureBuffer.height block < bcf.futurebuffer.lowwest

end BCF

end SimpleHotStuff

end Jumbo

------------------------------------------------------------
-- Valid Chains
------------------------------------------------------------

namespace Jumbo

namespace SimpleHotStuff

open Struct
open CertifiedBroadcast (FutureBuffer)

variable {n : Nat} [NeZero n]

/-
  Blocks of the leader that pass every check on time: the
  signature under the key of party 1, the certificate and
  the link to the block before.
-/
structure Valid (cfg : Config n) (block : BCBlock) :
    Prop where
  leader : block.rawBC.leader = 1
  signed : cfg.verifies 0 block = true
  certified : BCF.checkcomsigns cfg block = true

/- The blocks are numbered, valid and linked. -/
structure ValidChain
    (cfg : Config n) (chain : List BCBlock) : Prop where
  fits : chain.length < 2 ^ 31
  height :
    ∀ (i : Nat) block, chain[i]? = some block →
      FutureBuffer.height block = i
  valid : ∀ block ∈ chain, Valid cfg block
  linked :
    ∀ (i : Nat) block next, chain[i]? = some block →
      chain[i + 1]? = some next →
        next.rawBC.lastblkid = cfg.hash block.rawBC

section Chain

variable {cfg : Config n} {chain : List BCBlock}

/- A block of the chain stands at its height. -/
theorem ValidChain.getElem?_of_mem
    (hValid : ValidChain cfg chain)
    {block : BCBlock} (hMem : block ∈ chain)
    {h : Nat} (hHeight : FutureBuffer.height block = h) :
    chain[h]? = some block := by
  rcases List.getElem?_of_mem hMem with ⟨i, hi⟩
  have hIndex := hValid.height i block hi
  have hEq : i = h := by omega
  rw [← hEq]
  exact hi

/- Comparing heights as the code does, on 32 bits. -/
theorem ValidChain.height_lt_iff
    (hValid : ValidChain cfg chain) {bcf : BCF}
    (hLe : bcf.height ≤ chain.length) (block : BCBlock) :
    block.rawBC.height < bcf.int32height ↔
      FutureBuffer.height block < bcf.height := by
  have hFits := hValid.fits
  rw [Int32.lt_iff_toInt_lt]
  unfold BCF.int32height
  rw [Int32.toInt_ofNat_of_lt (by omega)]
  rfl

/- Heights do not wrap around within the chain. -/
theorem ValidChain.height_eq_iff
    (hValid : ValidChain cfg chain) {bcf : BCF}
    (hLe : bcf.height ≤ chain.length) (block : BCBlock) :
    block.rawBC.height = bcf.int32height ↔
      FutureBuffer.height block = bcf.height := by
  have hFits := hValid.fits
  rw [← Int32.toInt_inj]
  unfold BCF.int32height
  rw [Int32.toInt_ofNat_of_lt (by omega)]
  rfl

end Chain

end SimpleHotStuff

end Jumbo

------------------------------------------------------------
-- Following a Chain
------------------------------------------------------------

namespace Jumbo

namespace SimpleHotStuff

open Struct
open CertifiedBroadcast (FutureBuffer)

variable {n : Nat}

namespace BCF

/- The follower after the first blocks of a chain. -/
def upTo (cfg : Config n) (id : Fin n)
    (chain : List BCBlock) (i : Nat) : BCF :=
  (chain.take i).foldl (generatepayback cfg id) new

section Accept

variable (cfg : Config n) (id : Fin n)
variable (bcf : BCF) (block : BCBlock)

@[simp] theorem generatepayback_height :
    (bcf.generatepayback cfg id block).height =
      bcf.height + 1 := by
  unfold generatepayback
  dsimp only
  split <;> rfl

@[simp] theorem generatepayback_futurebuffer :
    (bcf.generatepayback cfg id block).futurebuffer =
      bcf.futurebuffer := by
  unfold generatepayback
  dsimp only
  split <;> rfl

@[simp] theorem generatepayback_lastblkID :
    (bcf.generatepayback cfg id block).lastblkID =
      cfg.hash block.rawBC :=
  rfl

/- The buffer has no part in accepting a block. -/
theorem generatepayback_withBuffer
    (futurebuffer : FutureBuffer) :
    ({ bcf with futurebuffer := futurebuffer } :
        BCF).generatepayback cfg id block =
      { bcf.generatepayback cfg id block with
        futurebuffer := futurebuffer } := by
  unfold generatepayback
  dsimp only
  split <;> rfl

end Accept

section UpTo

variable (cfg : Config n) (id : Fin n)
variable {chain : List BCBlock} {i : Nat} {block : BCBlock}

/- One block more in order. -/
theorem upTo_succ
    (hBlock : chain[i]? = some block) :
    upTo cfg id chain (i + 1) =
      (upTo cfg id chain i).generatepayback cfg id block := by
  unfold upTo
  rw [List.take_add_one, hBlock, List.foldl_append]
  rfl

/- The height counts the accepted blocks. -/
theorem upTo_height
    (hLe : i ≤ chain.length) :
    (upTo cfg id chain i).height = i := by
  induction i with
  | zero => rfl
  | succ i ih =>
      have hBlock : chain[i]? = some chain[i] :=
        List.getElem?_eq_getElem hLe
      rw [upTo_succ cfg id hBlock, generatepayback_height,
        ih (Nat.le_of_succ_le hLe)]

/- In order nothing has to wait. -/
theorem upTo_futurebuffer
    (hLe : i ≤ chain.length) :
    (upTo cfg id chain i).futurebuffer = ⟨-1, []⟩ := by
  induction i with
  | zero => rfl
  | succ i ih =>
      have hBlock : chain[i]? = some chain[i] :=
        List.getElem?_eq_getElem hLe
      rw [upTo_succ cfg id hBlock, generatepayback_futurebuffer,
        ih (Nat.le_of_succ_le hLe)]

end UpTo

end BCF

/- Buffer apart, the follower is as in order. -/
structure OnChain
    (cfg : Config n) (id : Fin n) (chain : List BCBlock)
    (bcf : BCF) : Prop where
  le : bcf.height ≤ chain.length
  eq :
    bcf =
      { BCF.upTo cfg id chain bcf.height with
        futurebuffer := bcf.futurebuffer }

section OnChain

variable {cfg : Config n} {id : Fin n}
variable {chain : List BCBlock} {bcf : BCF} {block : BCBlock}

/- What waits does not matter for being on the chain. -/
theorem OnChain.withBuffer
    (hOn : OnChain cfg id chain bcf)
    (futurebuffer : FutureBuffer) :
    OnChain cfg id chain
      { bcf with futurebuffer := futurebuffer } where
  le := hOn.le
  eq :=
    congrArg
      (fun bcf : BCF => { bcf with futurebuffer := futurebuffer })
      hOn.eq

/- In order the follower is on the chain. -/
theorem OnChain.upTo
    {i : Nat} (hLe : i ≤ chain.length) :
    OnChain cfg id chain (BCF.upTo cfg id chain i) where
  le := by
    rw [BCF.upTo_height cfg id hLe]
    exact hLe
  eq := by rw [BCF.upTo_height cfg id hLe]

/- Followers at the same height have put out the same. -/
theorem OnChain.output_eq
    {bcf' : BCF}
    (hOn : OnChain cfg id chain bcf)
    (hOn' : OnChain cfg id chain bcf')
    (hHeight : bcf.height = bcf'.height) :
    bcf.output = bcf'.output := by
  have hOutput := congrArg BCF.output hOn.eq
  have hOutput' := congrArg BCF.output hOn'.eq
  rw [← hHeight] at hOutput'
  exact hOutput.trans hOutput'.symm

variable [NeZero n]

/- Accepting the next block keeps it there. -/
theorem OnChain.accept
    (hOn : OnChain cfg id chain bcf)
    (hValid : ValidChain cfg chain)
    (hMem : block ∈ chain)
    (hHeight : FutureBuffer.height block = bcf.height) :
    OnChain cfg id chain
      (bcf.generatepayback cfg id block) := by
  have hBlock := hValid.getElem?_of_mem hMem hHeight
  have hLt := (List.getElem?_eq_some_iff.mp hBlock).1
  refine ⟨?_, ?_⟩
  · rw [BCF.generatepayback_height]
    exact hLt
  · rw [BCF.generatepayback_height,
      BCF.generatepayback_futurebuffer,
      BCF.upTo_succ cfg id hBlock,
      ← BCF.generatepayback_withBuffer, ← hOn.eq]

/- The next block is linked to the last one. -/
theorem OnChain.checkblockid
    (hOn : OnChain cfg id chain bcf)
    (hValid : ValidChain cfg chain)
    (hMem : block ∈ chain)
    (hHeight : FutureBuffer.height block = bcf.height) :
    bcf.checkblockid block = true := by
  have hBlock := hValid.getElem?_of_mem hMem hHeight
  have hEq := (hValid.height_eq_iff hOn.le block).mpr hHeight
  unfold BCF.checkblockid
  simp only [Bool.or_eq_true, decide_eq_true_eq]
  cases hZero : bcf.height with
  | zero =>
      left
      rw [hEq]
      unfold BCF.int32height
      rw [hZero]
      rfl
  | succ i =>
      right
      rw [hZero] at hBlock
      have hLt := (List.getElem?_eq_some_iff.mp hBlock).1
      have hLast : chain[i]? = some chain[i] :=
        List.getElem?_eq_getElem (Nat.lt_of_succ_lt hLt)
      have hSame := congrArg BCF.lastblkID hOn.eq
      rw [hZero] at hSame
      dsimp only at hSame
      rw [hSame, BCF.upTo_succ cfg id hLast,
        BCF.generatepayback_lastblkID,
        hValid.linked i _ block hLast hBlock]

/- A valid block that is linked is paid back. -/
theorem check_bcblock_eq
    (hBlock : Valid cfg block)
    (hLinked : bcf.checkblockid block = true) :
    bcf.check_bcblock cfg id block =
      some (bcf.generatepayback cfg id block) := by
  have hCertified := hBlock.certified
  unfold BCF.checkblockid at hLinked
  unfold BCF.checkcomsigns at hCertified
  unfold BCF.check_bcblock
  apply if_pos
  rw [hBlock.signed, Bool.and_true]
  simp only [Bool.or_eq_true, Bool.and_eq_true,
    decide_eq_true_eq] at hLinked hCertified ⊢
  rcases hLinked with hZero | hLink
  · exact .inl hZero
  · rcases hCertified with hZero | hBatch
    · exact .inl hZero
    · rw [hLink]
      exact .inr ⟨rfl, hBatch⟩

/-
  What handling a block of the chain does. Only an early one
  is checked with another key.
-/
theorem OnChain.handle
    {isfuture : Bool}
    (hOn : OnChain cfg id chain bcf)
    (hValid : ValidChain cfg chain)
    (hMem : block ∈ chain) :
    bcf.handle cfg id isfuture block =
      if FutureBuffer.height block < bcf.height then some bcf
      else if FutureBuffer.height block = bcf.height then
        some (bcf.generatepayback cfg id block)
      else if BCF.checkleadersign cfg id block then
        some { bcf with
          futurebuffer := bcf.futurebuffer.put block }
      else none := by
  have hBlock := hValid.valid block hMem
  have hLt := hValid.height_lt_iff hOn.le block
  have hEq := hValid.height_eq_iff hOn.le block
  unfold BCF.handle
  by_cases hOld : FutureBuffer.height block < bcf.height
  · rw [if_pos (hLt.mpr hOld), if_pos hOld]
  · rw [if_neg (mt hLt.mp hOld), if_neg hOld]
    by_cases hNow : FutureBuffer.height block = bcf.height
    · have hLinked := hOn.checkblockid hValid hMem hNow
      rw [if_pos (hEq.mpr hNow), if_pos hNow,
        check_bcblock_eq hBlock hLinked, if_pos hLinked,
        ite_self]
    · rw [if_neg (mt hEq.mp hNow), if_neg hNow,
        hBlock.certified, Bool.and_true]

end OnChain

end SimpleHotStuff

end Jumbo
