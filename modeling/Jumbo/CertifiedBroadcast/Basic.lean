import Jumbo.Lib.SortedBuffer
import Jumbo.Struct

/-
  The two sides of a certified broadcast instance: the
  follower with its buffer of early blocks, and the leader
  with the signatures it collects.

  The certificate of a block comes with its successor, so a
  follower puts out a block when it accepts the next one.
  A check that fails and a nil pointer both end the process;
  such a step has no result here. Calling others for help
  only sends messages; what comes back is a message like any
  other.

  Main declarations:
    * `Config`
    * `FutureBuffer`
    * `BCF`
    * `BCF.next` and `BCF.receive`
    * `BCL`
    * `BCL.propose` and `BCL.receive`
-/

------------------------------------------------------------
-- Parameters
------------------------------------------------------------

namespace Jumbo

namespace CertifiedBroadcast

open Crypto (Bytes)
open Struct

/- The parameters of one instance. -/
structure Config (n : Nat) where
  prim : Crypto.Primitives n
  type : Crypto.SignatureType
  sign : Fin n → Bytes → Bytes
  -- SHA-256 of a marshalled `RawBC`, and of a batch
  hash : RawBC → Bytes
  sha256 : Bytes → Bytes
  lid : Fin n
  sid : Int32
  testmode : Bool

namespace Config

variable {n : Nat}

/- Parties are counted from one. -/
def leader (cfg : Config n) : Int32 :=
  Int32.ofNat (cfg.lid.val + 1)

/- The bytes signed for a hash at a height. -/
def signbyte (cfg : Config n) (blkID : Bytes)
    (height : Int32) : Bytes :=
  Struct.signbyte blkID height cfg.leader cfg.sid

/- `BatchSignatureVerify` without panic, result true. -/
def verifies (cfg : Config n) (msg : Bytes)
    (batch : BatchSignature) : Bool :=
  Crypto.batchSignatureVerify cfg.prim cfg.type batch.signs
    msg batch.mems = some true

/- A certificate for exactly this block. -/
def Certifies (cfg : Config n) (block : BCBlock)
    (batch : BatchSignature) : Prop :=
  cfg.verifies
    (Struct.signbyte (cfg.hash block.rawBC)
      block.rawBC.height block.rawBC.leader block.rawBC.k)
    batch = true

end Config

/- Follower to leader. -/
structure PayBack where
  round : Int32
  blkID : Bytes
  sign : Signature

end CertifiedBroadcast

end Jumbo

------------------------------------------------------------
-- The Future Buffer
------------------------------------------------------------

namespace Jumbo

namespace CertifiedBroadcast

open Protocol
open Struct

/-
  Blocks that came early, in order of height, with the
  lowest height as it is noted.
-/
structure FutureBuffer where
  lowwest : Int
  bcblocks : List BCBlock

namespace FutureBuffer

/- The height that blocks are ordered by. -/
def height (block : BCBlock) : Int :=
  block.rawBC.height.toInt

/- The block taken out and the buffer after it. -/
def getlowwest (fb : FutureBuffer) :
    Option BCBlock × FutureBuffer :=
  match fb.bcblocks with
  | [] => (none, { fb with lowwest := -1 })
  | block :: bcblocks =>
      (some block,
        { bcblocks := bcblocks
          lowwest :=
            match bcblocks with
            | [] => fb.lowwest
            | first :: _ => height first })

/-
  The loop inserts into the buffer first, so a block that is
  now the first one is not below the first one any more.
-/
def put (fb : FutureBuffer) (block : BCBlock) :
    FutureBuffer :=
  match fb.bcblocks with
  | [] => ⟨height block, [block]⟩
  | _ :: _ =>
      let bcblocks :=
        SortedBuffer.insertLoop height block false []
          fb.bcblocks
      match bcblocks with
      | [] => { fb with bcblocks := bcblocks }
      | first :: _ =>
          { bcblocks := bcblocks
            lowwest :=
              if height block < height first then
                height block
              else fb.lowwest }

/- The first block after an insertion is not above it. -/
theorem put_eq
    {fb : FutureBuffer} {block : BCBlock}
    (hSorted :
      SortedBuffer.Sorted height fb.bcblocks)
    (hNe : fb.bcblocks ≠ []) :
    fb.put block =
      { fb with
        bcblocks :=
          SortedBuffer.insertNew height block fb.bcblocks } := by
  have hLoop :=
    SortedBuffer.insertLoop_eq (x := block) [] hSorted hNe
  rw [List.nil_append] at hLoop
  unfold put
  split
  · rename_i hNil
    exact absurd hNil hNe
  · dsimp only
    rw [hLoop]
    split
    · rfl
    · rename_i first rest hFirst
      have hLe : height first ≤ height block := by
        rcases SortedBuffer.mem_insertNew_self_key
          height block fb.bcblocks with
          ⟨z, hMem, hKey⟩
        have hNew :=
          SortedBuffer.insertNew_sorted (x := block) hSorted
        rw [hFirst] at hMem hNew
        rcases List.mem_cons.mp hMem with rfl | hMem
        · exact hKey.le
        · have hLt :=
            (List.pairwise_cons.mp hNew).1 z hMem
          omega
      rw [if_neg (not_lt_of_ge hLe)]

/- Drop what is below the height of the follower. -/
def clean (bound : Nat) (lowwest : Int) :
    List BCBlock → FutureBuffer
| [] =>
    if 0 < lowwest ∧ lowwest < bound then ⟨-1, []⟩
    else ⟨lowwest, []⟩
| block :: bcblocks =>
    if 0 < lowwest ∧ lowwest < bound then
      clean bound
        (match bcblocks with
          | [] => lowwest
          | first :: _ => height first)
        bcblocks
    else ⟨lowwest, block :: bcblocks⟩

end FutureBuffer

end CertifiedBroadcast

end Jumbo

------------------------------------------------------------
-- The Follower
------------------------------------------------------------

namespace Jumbo

namespace CertifiedBroadcast

open Crypto (Bytes)
open Struct

/-
  `accepted` are the blocks accepted so far, as they are put
  into the database; `calling` are the early blocks whose
  goroutine `sendcallhelp` has not buffered them yet.
-/
structure BCF where
  height : Nat
  lastblkID : Bytes
  lastblock : Option BCBlock
  futurebuffer : FutureBuffer
  calling : List BCBlock
  accepted : List BCBlock
  output : List BCBlock
  paybacks : List PayBack

namespace BCF

variable {n : Nat}

/- A follower before the first block. -/
def new : BCF where
  height := 0
  lastblkID := []
  lastblock := none
  futurebuffer := ⟨-1, []⟩
  calling := []
  accepted := []
  output := []
  paybacks := []

/- The height as it stands in a message. -/
def int32height (bcf : BCF) : Int32 :=
  Int32.ofNat bcf.height

/- The block follows the last one, or is the first. -/
def checkblockid (bcf : BCF) (block : BCBlock) : Bool :=
  block.rawBC.height = 0 ||
    bcf.lastblkID = block.rawBC.lastblkid

/- The certificate in a block is for the one before it. -/
def checkcomsigns (cfg : Config n) (block : BCBlock) : Bool :=
  block.rawBC.height = 0 ||
    block.batchSigns.any fun batch =>
      cfg.verifies
        (cfg.signbyte block.rawBC.lastblkid
          (block.rawBC.height - 1)) batch

/- The leader's signature under the hash and the height. -/
def checkleadersign
    (cfg : Config n) (block : BCBlock) : Bool :=
  block.sign.any fun sign =>
    Crypto.verify cfg.prim cfg.type cfg.lid sign.content
      (cfg.signbyte (cfg.hash block.rawBC)
        block.rawBC.height) = some true

/- The block put out, with the certificate that has come. -/
def backBlock
    (cfg : Config n) (lastblock block : BCBlock) : BCBlock :=
  { rawBC := { lastblock.rawBC with k := cfg.sid }
    sign := lastblock.sign
    batchSigns := block.batchSigns }

/- The signature that the follower sends back. -/
def payback
    (cfg : Config n) (nid : Fin n) (bcf : BCF)
    (block : BCBlock) : PayBack where
  round := bcf.int32height
  blkID := cfg.hash block.rawBC
  sign :=
    { id := Int32.ofNat (nid.val + 1)
      content :=
        cfg.sign nid
          (cfg.signbyte (cfg.hash block.rawBC)
            block.rawBC.height) }

/-
  A block without a root is not signed, and nothing is put
  out.
-/
def generatepayback
    (cfg : Config n) (nid : Fin n) (bcf : BCF)
    (block : BCBlock) : BCF :=
  let bcf :=
    if block.rawBC.root = [] then bcf
    else
      { bcf with
        paybacks := bcf.paybacks ++ [bcf.payback cfg nid block]
        output :=
          if 0 < bcf.height then
            bcf.output ++
              bcf.lastblock.toList.map (backBlock cfg · block)
          else bcf.output }
  { bcf with
    accepted := bcf.accepted ++ [block]
    lastblkID := cfg.hash block.rawBC
    lastblock := some block
    height := bcf.height + 1 }

section Accept

variable (cfg : Config n) (nid : Fin n)
variable (bcf : BCF) (block : BCBlock)

@[simp] theorem generatepayback_height :
    (bcf.generatepayback cfg nid block).height =
      bcf.height + 1 := by
  unfold generatepayback
  dsimp only
  split <;> rfl

@[simp] theorem generatepayback_futurebuffer :
    (bcf.generatepayback cfg nid block).futurebuffer =
      bcf.futurebuffer := by
  unfold generatepayback
  dsimp only
  split <;> rfl

@[simp] theorem generatepayback_calling :
    (bcf.generatepayback cfg nid block).calling =
      bcf.calling := by
  unfold generatepayback
  dsimp only
  split <;> rfl

@[simp] theorem generatepayback_accepted :
    (bcf.generatepayback cfg nid block).accepted =
      bcf.accepted ++ [block] := by
  unfold generatepayback
  dsimp only
  split <;> rfl

/-
  The block before is put out, unless this one has no root
  or is the first.
-/
theorem generatepayback_output :
    (bcf.generatepayback cfg nid block).output =
      if block.rawBC.root = [] ∨ bcf.height = 0 then
        bcf.output
      else
        bcf.output ++
          bcf.lastblock.toList.map (backBlock cfg · block) := by
  unfold generatepayback
  dsimp only
  split
  · rename_i hRoot
    rw [if_pos (.inl hRoot)]
  · rename_i hRoot
    split
    · rename_i hPos
      rw [if_neg (by simp [hRoot]; omega)]
    · rename_i hZero
      rw [if_pos (.inr (by omega))]

@[simp] theorem generatepayback_lastblkID :
    (bcf.generatepayback cfg nid block).lastblkID =
      cfg.hash block.rawBC :=
  rfl

@[simp] theorem generatepayback_lastblock :
    (bcf.generatepayback cfg nid block).lastblock =
      some block :=
  rfl

end Accept

/- After its checks it does what `generatepayback` does. -/
def check_bcblock
    (cfg : Config n) (nid : Fin n) (bcf : BCF)
    (block : BCBlock) : Option BCF :=
  let checked :=
    block.rawBC.height = 0 ||
      (bcf.lastblkID = block.rawBC.lastblkid &&
        block.batchSigns.any fun batch =>
          cfg.verifies
            (cfg.signbyte bcf.lastblkID
              (block.rawBC.height - 1)) batch)
  if checked && checkleadersign cfg block then
    some (bcf.generatepayback cfg nid block)
  else none

/- The body of `handle_bcblock` for a block it has got. -/
def handle
    (cfg : Config n) (nid : Fin n) (isfuture : Bool)
    (bcf : BCF) (block : BCBlock) : Option BCF :=
  if block.rawBC.height < bcf.int32height then some bcf
  else if block.rawBC.height = bcf.int32height then
    if isfuture then
      if bcf.checkblockid block then
        some (bcf.generatepayback cfg nid block)
      else none
    else bcf.check_bcblock cfg nid block
  else if checkleadersign cfg block &&
      checkcomsigns cfg block then
    if cfg.testmode then
      some { bcf with
        futurebuffer := bcf.futurebuffer.put block }
    else some { bcf with calling := bcf.calling ++ [block] }
  else none

/- The loop at the head of an iteration. -/
def clean (bcf : BCF) : BCF :=
  { bcf with
    futurebuffer :=
      FutureBuffer.clean bcf.height bcf.futurebuffer.lowwest
        bcf.futurebuffer.bcblocks }

/- The buffer is thought to hold the next block. -/
def ready (bcf : BCF) : Bool :=
  bcf.futurebuffer.lowwest = bcf.height && bcf.height ≠ 0

/-
  An iteration of `handle_bcblock` that takes its block from
  the future buffer. The buffer is not empty then; an empty
  one would give a block without `RawBC`.
-/
def next
    (cfg : Config n) (nid : Fin n) (bcf : BCF) : Option BCF :=
  let bcf := bcf.clean
  if bcf.ready then
    match bcf.futurebuffer.getlowwest with
    | (some block, futurebuffer) =>
        { bcf with futurebuffer := futurebuffer }.handle
          cfg nid true block
    | (none, _) => none
  else none

/- An iteration that reads a message. -/
def receive
    (cfg : Config n) (nid : Fin n) (bcf : BCF)
    (block : BCBlock) : Option BCF :=
  let bcf := bcf.clean
  if bcf.ready then none
  else if block.rawBC.leader = cfg.leader ∧
      block.rawBC.k = cfg.sid then
    bcf.handle cfg nid false block
  else some bcf

/- `sendcallhelp` puts its block into the buffer. -/
def called (bcf : BCF) (i : Nat) : Option BCF :=
  match bcf.calling[i]? with
  | some block =>
      some { bcf with
        calling := bcf.calling.eraseIdx i
        futurebuffer := bcf.futurebuffer.put block }
  | none => none

end BCF

end CertifiedBroadcast

end Jumbo

------------------------------------------------------------
-- The Leader
------------------------------------------------------------

namespace Jumbo

namespace CertifiedBroadcast

open Crypto (Bytes)
open Struct

/-
  `sent` are the blocks broadcast so far and `waiting` says
  that signatures for the last one are still collected.
-/
structure BCL where
  height : Nat
  lastblkID : Bytes
  lastbatch : BatchSignature
  sent : List BCBlock
  waiting : Option BCBlock
  tmpfollowsigns : List Signature
  output : List BCBlock

namespace BCL

variable {n : Nat}

/- A leader before its first block. -/
def new : BCL where
  height := 0
  lastblkID := []
  lastbatch := ⟨[], []⟩
  sent := []
  waiting := none
  tmpfollowsigns := []
  output := []

/- The block that the leader makes of its input. -/
def rawBC
    (cfg : Config n) (bcl : BCL) (txblk : Bytes)
    (timestamp : Int64) : RawBC where
  lastblkid := if bcl.height = 0 then [] else bcl.lastblkID
  height := Int32.ofNat bcl.height
  root := cfg.sha256 txblk
  leader := cfg.leader
  k := cfg.sid
  timestamp := timestamp
  txcount := Int32.ofNat (txblk.length / 250)

/- An iteration of `Start` up to the broadcast. -/
def propose
    (cfg : Config n) (bcl : BCL) (txblk : Bytes)
    (timestamp : Int64) : Option BCL :=
  match bcl.waiting with
  | some _ => none
  | none =>
      let rawBC := bcl.rawBC cfg txblk timestamp
      let block : BCBlock :=
        { rawBC := rawBC
          sign :=
            some
              ⟨cfg.leader,
                cfg.sign cfg.lid
                  (cfg.signbyte (cfg.hash rawBC)
                    rawBC.height)⟩
          batchSigns :=
            if bcl.height = 0 then none
            else some bcl.lastbatch }
      some { bcl with
        sent := bcl.sent ++ [block]
        waiting := some block
        tmpfollowsigns := [] }

/- A signature of a follower for the block waiting. -/
def receive
    (cfg : Config n) (bcl : BCL) (payback : PayBack) :
    Option BCL :=
  match bcl.waiting with
  | none => none
  | some block =>
      let blkID := cfg.hash block.rawBC
      if payback.round = Int32.ofNat bcl.height ∧
          payback.blkID = blkID then
        let signs := bcl.tmpfollowsigns ++ [payback.sign]
        if n * 2 / 3 ≤ signs.length then
          let mems := signs.map (·.id)
          let msg := cfg.signbyte blkID block.rawBC.height
          match Crypto.batchSignature cfg.prim cfg.type
              (signs.map (·.content)) msg mems with
          | none => none
          | some batch =>
              if cfg.verifies msg ⟨batch, mems⟩ then
                some { bcl with
                  height := bcl.height + 1
                  lastblkID := blkID
                  lastbatch := ⟨batch, mems⟩
                  waiting := none
                  tmpfollowsigns := []
                  output :=
                    bcl.output ++
                      [{ block with
                          batchSigns :=
                            some ⟨batch, mems⟩ }] }
              else none
        else some { bcl with tmpfollowsigns := signs }
      else some bcl

end BCL

end CertifiedBroadcast

end Jumbo
