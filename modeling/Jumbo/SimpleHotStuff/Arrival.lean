import Jumbo.SimpleHotStuff.Follower

/-
  The order in which the blocks of the leader arrive.

  As long as no early block fails the check with the key of
  the follower itself, the heights move as those of a
  follower of a certified broadcast that gets bare blocks of
  the same heights. So the follower ends where in-order
  arrival ends exactly when, besides, every block that comes
  below the cached lowest height comes once more in its turn.

  Main declarations:
    * `EarlyLikeTimely`
    * `OwnKey` and `ComesAgain`
    * `Mirrors`
    * `process_mirrors`
    * `early_like_timely_iff`
-/

------------------------------------------------------------
-- Early and Timely Blocks
------------------------------------------------------------

namespace Jumbo

namespace SimpleHotStuff

open Struct
open CertifiedBroadcast (FutureBuffer)

variable {n : Nat} [NeZero n]

/- With its predecessors there, the block is accepted. -/
def OnTime
    (cfg : Config n) (id : Fin n) (chain : List BCBlock)
    (block : BCBlock) : Prop :=
  ∃ (i : Nat) (bcf bcf' : BCF), chain[i]? = some block ∧
    BCF.process cfg id (chain.take i) = some bcf ∧
      bcf.receive cfg id block = some bcf' ∧
        bcf'.lastblock = some block

/- Output and height are those of in-order arrival. -/
def SameAsInOrder
    (cfg : Config n) (id : Fin n)
    (chain arrivals : List BCBlock) : Prop :=
  ∃ bcf bcf',
    BCF.process cfg id arrivals = some bcf ∧
      BCF.process cfg id chain = some bcf' ∧
        bcf.output = bcf'.output ∧ bcf.height = bcf'.height

/-
  A block that comes before its predecessors is taken exactly
  when it would be accepted on time, and the follower ends
  as with in-order arrival.
-/
structure EarlyLikeTimely
    (cfg : Config n) (id : Fin n)
    (chain arrivals : List BCBlock) : Prop where
  accepted :
    ∀ i block bcf, arrivals[i]? = some block →
      BCF.process cfg id (arrivals.take i) = some bcf →
        bcf.height < FutureBuffer.height block →
          ((bcf.receive cfg id block).isSome ↔
            OnTime cfg id chain block)
  same : SameAsInOrder cfg id chain arrivals

/-
  The signature of every block that comes early verifies
  under the key of the follower, too.
-/
def OwnKey
    (cfg : Config n) (id : Fin n) (arrivals : List BCBlock) :
    Prop :=
  ∀ i block bcf, arrivals[i]? = some block →
    BCF.process cfg id (arrivals.take i) = some bcf →
      bcf.height < FutureBuffer.height block →
        BCF.checkleadersign cfg id block = true

/-
  Every block that is shadowed when it arrives arrives again
  later, while it is the next one.
-/
def ComesAgain
    (cfg : Config n) (id : Fin n) (arrivals : List BCBlock) :
    Prop :=
  ∀ i block bcf, arrivals[i]? = some block →
    BCF.process cfg id (arrivals.take i) = some bcf →
      bcf.shadows block →
        ∃ k bcf', i < k ∧ arrivals[k]? = some block ∧
          BCF.process cfg id (arrivals.take k) = some bcf' ∧
            bcf'.height = FutureBuffer.height block

end SimpleHotStuff

end Jumbo

------------------------------------------------------------
-- Bare Blocks
------------------------------------------------------------

namespace Jumbo

namespace SimpleHotStuff

open Protocol
open Struct
open CertifiedBroadcast (FutureBuffer)

variable {n : Nat} [NeZero n]

/- Signatures that are never wrong, hashes by height. -/
def barePrimitives (n : Nat) : Crypto.Primitives n where
  verify := fun _ _ _ => true
  aggregateSign := fun _ _ _ => none
  aggregateVerify := fun _ _ _ => false
  blsVerify := fun _ _ _ => none
  blsAggregate := fun _ => none
  fastAggregateVerify := fun _ _ _ => none
  verifyAggregateHashes := fun _ _ _ => none

variable (n) in
/-
  Blocks are checked as in the other broadcast, but every
  signature passes.
-/
def bareConfig : CertifiedBroadcast.Config n where
  prim := barePrimitives n
  type := .schnorr
  sign := fun _ _ => [0]
  hash := fun rawBC => intToBytes rawBC.height
  sha256 := fun _ => [0]
  lid := 0
  sid := 0
  testmode := true

/- All that is left of a block is its height. -/
def bare (block : BCBlock) : BCBlock where
  rawBC :=
    ⟨intToBytes (block.rawBC.height - 1), block.rawBC.height,
      [], 1, 0, 0, 0⟩
  sign := some ⟨1, [0]⟩
  batchSigns := some ⟨[], []⟩

/- The buffer of the bare blocks. -/
def bareBuffer (fb : FutureBuffer) : FutureBuffer :=
  ⟨fb.lowwest, fb.bcblocks.map bare⟩

/- Every bare block passes the checks. -/
theorem bare_legal (block : BCBlock) :
    CertifiedBroadcast.Legal (bareConfig n) (bare block) where
  leader := by
    unfold CertifiedBroadcast.Config.leader
    simp [bare, bareConfig]
  k := rfl
  signed := rfl
  certified := by
    unfold CertifiedBroadcast.BCF.checkcomsigns
    rw [Bool.or_eq_true]
    exact .inr rfl

section Chain

variable {cfg : Config n} {id : Fin n}
variable {chain arrivals : List BCBlock} {block : BCBlock}

/- Heights of the chain that differ by one as numbers. -/
theorem ValidChain.bare
    (hValid : ValidChain cfg chain) :
    CertifiedBroadcast.ValidChain (bareConfig n)
      (chain.map bare) where
  fits := by
    rw [List.length_map]
    exact hValid.fits
  height := by
    intro i block hBlock
    rw [List.getElem?_map] at hBlock
    rcases Option.map_eq_some_iff.mp hBlock with
      ⟨block, hAt, rfl⟩
    exact hValid.height i block hAt
  legal := by
    intro block hMem
    rcases List.mem_map.mp hMem with ⟨block, _, rfl⟩
    exact bare_legal block
  linked := by
    intro i block next hBlock hNext
    rw [List.getElem?_map] at hBlock hNext
    rcases Option.map_eq_some_iff.mp hBlock with
      ⟨block, hAt, rfl⟩
    rcases Option.map_eq_some_iff.mp hNext with
      ⟨next, hAfterIt, rfl⟩
    have hHeight : FutureBuffer.height block = (i : Int) :=
      hValid.height i block hAt
    have hSucc : FutureBuffer.height next = ((i + 1 : Nat) : Int) :=
      hValid.height (i + 1) next hAfterIt
    have hLt := (List.getElem?_eq_some_iff.mp hAfterIt).1
    have hFits := hValid.fits
    have hBefore : block.rawBC.height = Int32.ofNat i := by
      apply Int32.toInt_inj.mp
      rw [Int32.toInt_ofNat_of_lt (by omega)]
      exact hHeight
    have hAfter : next.rawBC.height = Int32.ofNat (i + 1) := by
      apply Int32.toInt_inj.mp
      rw [Int32.toInt_ofNat_of_lt (by omega)]
      exact hSucc
    change
      intToBytes (next.rawBC.height - 1) =
        intToBytes block.rawBC.height
    rw [hBefore, hAfter, Int32.ofNat_add]
    exact congrArg intToBytes (Int32.add_sub_cancel _ _)

end Chain

section Buffer

variable {chain : List BCBlock} {bound : Nat}

/- Cleaning the bare buffer is the same. -/
theorem clean_bare
    (bound : Nat) (lowwest : Int) (bcblocks : List BCBlock) :
    FutureBuffer.clean bound lowwest (bcblocks.map bare) =
      bareBuffer
        (FutureBuffer.clean bound lowwest bcblocks) := by
  induction bcblocks generalizing lowwest with
  | nil =>
      rw [List.map_nil]
      unfold FutureBuffer.clean
      split <;> rfl
  | cons block rest ih =>
      rw [List.map_cons]
      unfold FutureBuffer.clean
      split
      · rw [← ih]
        cases rest <;> rfl
      · rfl

/- So is putting a block into it. -/
theorem put_bare
    {fb : FutureBuffer}
    (hTidy : CertifiedBroadcast.Tidy chain bound fb)
    (block : BCBlock) :
    (bareBuffer fb).put (bare block) =
      bareBuffer (fb.put block) := by
  have hKey (block : BCBlock) :
      FutureBuffer.height (bare block) =
        FutureBuffer.height block :=
    rfl
  by_cases hNil : fb.bcblocks = []
  · unfold FutureBuffer.put bareBuffer
    rw [hNil]
    rfl
  · have hSorted :
        SortedBuffer.Sorted FutureBuffer.height
          (bareBuffer fb).bcblocks :=
      List.pairwise_map.mpr hTidy.sorted
    have hNe : (bareBuffer fb).bcblocks ≠ [] :=
      fun h => hNil (List.map_eq_nil_iff.mp h)
    rw [FutureBuffer.put_eq hSorted hNe,
      FutureBuffer.put_eq hTidy.sorted hNil]
    unfold bareBuffer
    rw [SortedBuffer.insertNew_map hKey]

/- And taking the first one. -/
theorem after_bare
    (lowwest : Int) (bcblocks : List BCBlock) :
    FutureBuffer.after lowwest (bcblocks.map bare) =
      bareBuffer (FutureBuffer.after lowwest bcblocks) := by
  cases bcblocks <;> rfl

end Buffer

end SimpleHotStuff

end Jumbo

------------------------------------------------------------
-- Mirroring the Certified Broadcast
------------------------------------------------------------

namespace Jumbo

namespace SimpleHotStuff

open Struct
open CertifiedBroadcast (FutureBuffer Tidy)

variable {n : Nat} [NeZero n]

/- The two followers stand at the same height. -/
structure Mirrors
    (cfg : Config n) (id : Fin n) (chain : List BCBlock)
    (bcf : BCF) (mirror : CertifiedBroadcast.BCF) : Prop where
  onChain : OnChain cfg id chain bcf
  mirrorOn :
    CertifiedBroadcast.OnChain (bareConfig n) (chain.map bare)
      mirror
  height : mirror.height = bcf.height
  buffer : mirror.futurebuffer = bareBuffer bcf.futurebuffer

section Mirrors

variable {cfg : Config n} {id : Fin n}
variable {chain : List BCBlock}
variable {bcf : BCF} {mirror : CertifiedBroadcast.BCF}
variable {block : BCBlock}

/- The mirror only has to have the same buffer. -/
theorem Mirrors.withBuffer
    (hMirrors : Mirrors cfg id chain bcf mirror)
    (fb : FutureBuffer) :
    Mirrors cfg id chain
      { bcf with futurebuffer := fb }
      { mirror with futurebuffer := bareBuffer fb } where
  onChain := hMirrors.onChain.withBuffer fb
  mirrorOn := hMirrors.mirrorOn.withBuffer _
  height := hMirrors.height
  buffer := rfl

/- Both accept the next block of the chain. -/
theorem Mirrors.accept
    (hMirrors : Mirrors cfg id chain bcf mirror)
    (hValid : ValidChain cfg chain)
    (hMem : block ∈ chain)
    (hHeight : FutureBuffer.height block = bcf.height) :
    Mirrors cfg id chain
      (bcf.generatepayback cfg id block)
      (mirror.generatepayback (bareConfig n) id
        (bare block)) := by
  have hBare :
      FutureBuffer.height (bare block) = mirror.height := by
    rw [hMirrors.height]
    exact hHeight
  refine
    ⟨hMirrors.onChain.accept hValid hMem hHeight,
      hMirrors.mirrorOn.accept hValid.bare
        (List.mem_map_of_mem hMem) hBare, ?_, ?_⟩
  · rw [CertifiedBroadcast.BCF.generatepayback_height,
      BCF.generatepayback_height, hMirrors.height]
  · rw [CertifiedBroadcast.BCF.generatepayback_futurebuffer,
      BCF.generatepayback_futurebuffer, hMirrors.buffer]

/- Both drop the same blocks. -/
theorem Mirrors.clean
    (hMirrors : Mirrors cfg id chain bcf mirror) :
    Mirrors cfg id chain bcf.clean mirror.clean ∧
      mirror.clean.ready = bcf.clean.ready := by
  have hClean :
      mirror.clean =
        { mirror with
          futurebuffer := bareBuffer bcf.clean.futurebuffer } := by
    unfold CertifiedBroadcast.BCF.clean BCF.clean
    rw [hMirrors.buffer, hMirrors.height]
    unfold bareBuffer
    rw [clean_bare]
    rfl
  rw [hClean]
  refine ⟨hMirrors.withBuffer _, ?_⟩
  unfold CertifiedBroadcast.BCF.ready BCF.ready
  dsimp only
  rw [hMirrors.height]
  rfl

/- A block of the chain, with the result of handling it. -/
theorem Mirrors.handle
    {isfuture : Bool}
    (hMirrors : Mirrors cfg id chain bcf mirror)
    (hValid : ValidChain cfg chain)
    (hTidy : Tidy chain bcf.height bcf.futurebuffer)
    (hMem : block ∈ chain)
    (hKey :
      bcf.height < FutureBuffer.height block →
        BCF.checkleadersign cfg id block = true) :
    ∃ bcf' mirror',
      bcf.handle cfg id isfuture block = some bcf' ∧
        mirror.handle (bareConfig n) id isfuture (bare block) =
            some mirror' ∧
          Mirrors cfg id chain bcf' mirror' ∧
            Tidy chain bcf'.height bcf'.futurebuffer := by
  have hSame :
      ((FutureBuffer.height (bare block) : Int) <
          mirror.height ↔
        FutureBuffer.height block < bcf.height) ∧
      (FutureBuffer.height (bare block) = mirror.height ↔
        FutureBuffer.height block = bcf.height) := by
    rw [hMirrors.height]
    exact ⟨Iff.rfl, Iff.rfl⟩
  rw [hMirrors.onChain.handle hValid hMem,
    hMirrors.mirrorOn.handle hValid.bare rfl
      (List.mem_map_of_mem hMem)]
  by_cases hOld : FutureBuffer.height block < bcf.height
  · rw [if_pos hOld, if_pos (hSame.1.mpr hOld)]
    exact ⟨bcf, mirror, rfl, rfl, hMirrors, hTidy⟩
  rw [if_neg hOld, if_neg (mt hSame.1.mp hOld)]
  by_cases hNow : FutureBuffer.height block = bcf.height
  · rw [if_pos hNow, if_pos (hSame.2.mpr hNow)]
    refine
      ⟨_, _, rfl, rfl, hMirrors.accept hValid hMem hNow, ?_⟩
    rw [BCF.generatepayback_height,
      BCF.generatepayback_futurebuffer]
    exact
      { hTidy with
        empty := fun h => by
          have hLt := hTidy.empty h
          push_cast
          omega }
  · have hEarly : bcf.height < FutureBuffer.height block := by
      omega
    rw [if_neg hNow, if_neg (mt hSame.2.mp hNow),
      if_pos (hKey hEarly), hMirrors.buffer, put_bare hTidy]
    exact
      ⟨_, _, rfl, rfl, hMirrors.withBuffer _,
        (hTidy.put hMem hEarly).1⟩

/- The first block of the buffer is taken out and handled. -/
theorem Mirrors.next
    (hMirrors : Mirrors cfg id chain bcf mirror)
    (hValid : ValidChain cfg chain)
    (hTidy : Tidy chain bcf.height bcf.futurebuffer)
    (hReady : bcf.clean.ready = true) :
    ∃ bcf' mirror', bcf.next cfg id = some bcf' ∧
      mirror.next (bareConfig n) id = some mirror' ∧
        Mirrors cfg id chain bcf' mirror' ∧
          Tidy chain bcf'.height bcf'.futurebuffer := by
  rcases hMirrors.clean with ⟨hClean, hSame⟩
  have hTidy : Tidy chain bcf.clean.height
      bcf.clean.futurebuffer :=
    hTidy.clean.1
  unfold BCF.next CertifiedBroadcast.BCF.next
  dsimp only
  rw [if_pos hReady, if_pos (hSame.trans hReady)]
  generalize bcf.clean = bcf at hClean hReady hTidy
  generalize mirror.clean = mirror at hClean
  simp only [BCF.ready, Bool.and_eq_true,
    decide_eq_true_eq] at hReady
  cases hBuffer : bcf.futurebuffer with
  | mk lowwest bcblocks =>
  rw [hBuffer] at hTidy hReady
  have hLow : lowwest = bcf.height := hReady.1
  cases bcblocks with
  | nil =>
      have hLt := hTidy.empty rfl
      dsimp only at hLt
      omega
  | cons first rest =>
      have hMem := (hTidy.mem first List.mem_cons_self).1
      have hFirst := hTidy.first_le
      let fb := FutureBuffer.after lowwest rest
      have hTaken := hClean.withBuffer fb
      have hGet :
          mirror.futurebuffer.getlowwest =
            (some (bare first), bareBuffer fb) := by
        rw [hClean.buffer, hBuffer, ← after_bare]
        rfl
      rw [hGet]
      by_cases hNow : FutureBuffer.height first = bcf.height
      · -- what is left waits for the next height
        have hBare :
            FutureBuffer.height (bare first) =
              mirror.height := by
          rw [hClean.height]
          exact hNow
        have hOn := hTaken.onChain
        have hMirrorOn := hTaken.mirrorOn
        refine
          ⟨_, _, ?_, ?_, hTaken.accept hValid hMem hNow, ?_⟩
        · refine (hOn.handle hValid hMem).trans ?_
          rw [if_neg (not_lt_of_ge hNow.ge), if_pos hNow]
        · refine
            (hMirrorOn.handle hValid.bare rfl
              (List.mem_map_of_mem hMem)).trans ?_
          rw [if_neg (not_lt_of_ge hBare.ge), if_pos hBare]
        · rw [BCF.generatepayback_height,
            BCF.generatepayback_futurebuffer]
          apply hTidy.after
          intro _
          dsimp only
          push_cast
          omega
      · have hRest : rest ≠ [] := by
          intro hNil
          subst hNil
          rcases hTidy.cached (List.cons_ne_nil _ _) with
            ⟨other, hOther, hEq⟩
          cases List.mem_singleton.mp hOther
          dsimp only at hEq
          omega
        exact
          hTaken.handle hValid
            (hTidy.after fun h => absurd h hRest) hMem
            (fun hEarly => by
              dsimp only at hEarly
              omega)

/- Both come to rest after the same number of blocks. -/
theorem Mirrors.settle
    {fuel : Nat}
    (hMirrors : Mirrors cfg id chain bcf mirror)
    (hValid : ValidChain cfg chain)
    (hTidy : Tidy chain bcf.height bcf.futurebuffer) :
    ∃ bcf' mirror', bcf.settle cfg id fuel = some bcf' ∧
      mirror.settle (bareConfig n) id fuel = some mirror' ∧
        Mirrors cfg id chain bcf' mirror' ∧
          Tidy chain bcf'.height bcf'.futurebuffer := by
  induction fuel generalizing bcf mirror with
  | zero => exact ⟨bcf, mirror, rfl, rfl, hMirrors, hTidy⟩
  | succ fuel ih =>
      rcases hMirrors.clean with ⟨hClean, hSame⟩
      unfold BCF.settle CertifiedBroadcast.BCF.settle
      rw [hSame]
      cases hReady : bcf.clean.ready with
      | true =>
          rcases hMirrors.next hValid hTidy hReady with
            ⟨next, mirror', hNext, hNext', hAfter, hTidy'⟩
          rw [if_pos rfl, if_pos rfl, hNext, hNext']
          exact ih hAfter hTidy'
      | false =>
          rw [if_neg Bool.false_ne_true,
            if_neg Bool.false_ne_true]
          exact ⟨_, _, rfl, rfl, hClean, hTidy.clean.1⟩

/- One arrival, unless it is early and fails the check. -/
theorem Mirrors.arrive
    (hMirrors : Mirrors cfg id chain bcf mirror)
    (hValid : ValidChain cfg chain)
    (hTidy : Tidy chain bcf.height bcf.futurebuffer)
    (hResting : bcf.clean.ready = false)
    (hMem : block ∈ chain)
    (hKey :
      bcf.height < FutureBuffer.height block →
        BCF.checkleadersign cfg id block = true) :
    ∃ bcf' mirror', bcf.arrive cfg id block = some bcf' ∧
      mirror.arrive (bareConfig n) id (bare block) =
          some mirror' ∧
        Mirrors cfg id chain bcf' mirror' ∧
          Tidy chain bcf'.height bcf'.futurebuffer := by
  rcases hMirrors.clean with ⟨hClean, hSame⟩
  have hLegal := @bare_legal n _ block
  have hLeader := (hValid.valid block hMem).leader
  rcases @Mirrors.handle n _ cfg id chain bcf.clean mirror.clean
    block false hClean hValid hTidy.clean.1 hMem hKey with
    ⟨read, read', hRead, hRead', hAfter, hTidy'⟩
  unfold BCF.arrive CertifiedBroadcast.BCF.arrive
  unfold BCF.receive CertifiedBroadcast.BCF.receive
  dsimp only
  rw [hSame, hResting, if_neg Bool.false_ne_true,
    if_neg Bool.false_ne_true, if_pos hLeader,
    if_pos ⟨hLegal.leader, hLegal.k⟩, hRead, hRead']
  have hLength :
      read'.futurebuffer.bcblocks.length =
        read.futurebuffer.bcblocks.length := by
    rw [hAfter.buffer]
    exact List.length_map _
  rw [Option.bind_some, Option.bind_some, hLength]
  exact hAfter.settle hValid hTidy'

/- An early block that fails the check ends the process. -/
theorem OnChain.arrive_eq_none
    (hOn : OnChain cfg id chain bcf)
    (hValid : ValidChain cfg chain)
    (hResting : bcf.clean.ready = false)
    (hMem : block ∈ chain)
    (hEarly : bcf.height < FutureBuffer.height block)
    (hKey : BCF.checkleadersign cfg id block = false) :
    bcf.receive cfg id block = none := by
  have hClean : OnChain cfg id chain bcf.clean :=
    hOn.withBuffer _
  unfold BCF.receive
  dsimp only
  rw [hResting, if_neg Bool.false_ne_true,
    if_pos (hValid.valid block hMem).leader,
    hClean.handle hValid hMem]
  change
    (if FutureBuffer.height block < bcf.height then _
    else if FutureBuffer.height block = bcf.height then _
    else _) = none
  rw [if_neg (not_lt_of_gt hEarly), if_neg hEarly.ne', hKey]
  rfl

end Mirrors

end SimpleHotStuff

end Jumbo

------------------------------------------------------------
-- Runs over a Chain
------------------------------------------------------------

namespace Jumbo

namespace SimpleHotStuff

open Struct
open CertifiedBroadcast (FutureBuffer Tidy)

variable {n : Nat} [NeZero n]

section Runs

variable {cfg : Config n} {id : Fin n}
variable {chain arrivals : List BCBlock} {block : BCBlock}
variable {bcf : BCF}

/- Reading the next of the arrivals. -/
theorem process_take_succ
    {i : Nat} (hBlock : arrivals[i]? = some block) :
    BCF.process cfg id (arrivals.take (i + 1)) =
      (BCF.process cfg id (arrivals.take i)).bind fun bcf =>
        bcf.arrive cfg id block := by
  unfold BCF.process
  rw [List.take_add_one, hBlock, List.foldlM_append]
  simp [Option.bind_eq_bind]

/- With an empty buffer there is nothing to clean. -/
theorem clean_eq_of_empty
    (hEmpty : bcf.futurebuffer = ⟨-1, []⟩) :
    bcf.clean = bcf ∧ bcf.ready = false := by
  refine ⟨?_, ?_⟩
  · have hClean :
        FutureBuffer.clean bcf.height
            bcf.futurebuffer.lowwest
            bcf.futurebuffer.bcblocks =
          bcf.futurebuffer := by
      rw [hEmpty]
      apply CertifiedBroadcast.clean_eq_self
      dsimp only
      omega
    unfold BCF.clean
    rw [hClean]
  · unfold BCF.ready
    rw [hEmpty, Bool.and_eq_false_iff,
      decide_eq_false_iff_not]
    left
    dsimp only
    omega

variable (id) in
/- In order, every block of the chain is accepted. -/
theorem receive_upTo
    (hValid : ValidChain cfg chain)
    {i : Nat} (hBlock : chain[i]? = some block) :
    (BCF.upTo cfg id chain i).receive cfg id block =
      some (BCF.upTo cfg id chain (i + 1)) := by
  have hMem := List.mem_of_getElem? hBlock
  have hLe := (List.getElem?_eq_some_iff.mp hBlock).1.le
  have hHeight :
      FutureBuffer.height block =
        (BCF.upTo cfg id chain i).height := by
    rw [BCF.upTo_height cfg id hLe]
    exact hValid.height i block hBlock
  rcases clean_eq_of_empty
    (BCF.upTo_futurebuffer cfg id hLe) with ⟨hClean, hReady⟩
  unfold BCF.receive
  dsimp only
  rw [hClean, hReady, if_neg Bool.false_ne_true,
    if_pos (hValid.valid block hMem).leader,
    (OnChain.upTo hLe).handle hValid hMem,
    if_neg (not_lt_of_ge hHeight.ge), if_pos hHeight,
    BCF.upTo_succ cfg id hBlock]

variable (id) in
/- In order, each block is accepted when it arrives. -/
theorem process_in_order
    (hValid : ValidChain cfg chain)
    {i : Nat} (hLe : i ≤ chain.length) :
    BCF.process cfg id (chain.take i) =
      some (BCF.upTo cfg id chain i) := by
  induction i with
  | zero => rfl
  | succ i ih =>
      have hBlock : chain[i]? = some chain[i] :=
        List.getElem?_eq_getElem hLe
      rcases clean_eq_of_empty
        (BCF.upTo_futurebuffer cfg id hLe) with
        ⟨hClean, hReady⟩
      rw [process_take_succ hBlock,
        ih (Nat.le_of_succ_le hLe), Option.bind_some]
      unfold BCF.arrive
      rw [receive_upTo id hValid hBlock, Option.bind_some]
      unfold BCF.settle
      rw [hClean, hReady, if_neg Bool.false_ne_true]

variable (id) in
/- A block of the chain that comes in time is accepted. -/
theorem onTime
    (hValid : ValidChain cfg chain)
    (hMem : block ∈ chain) :
    OnTime cfg id chain block := by
  rcases List.getElem?_of_mem hMem with ⟨i, hBlock⟩
  have hLe := (List.getElem?_eq_some_iff.mp hBlock).1.le
  refine
    ⟨i, _, _, hBlock, process_in_order id hValid hLe,
      receive_upTo id hValid hBlock, ?_⟩
  rw [BCF.upTo_succ cfg id hBlock]
  rfl

variable (id) in
/- What the mirror does, from the certified broadcast. -/
theorem mirror_rests
    (hValid : ValidChain cfg chain)
    (hFrom : ∀ block ∈ arrivals, block ∈ chain)
    (i : Nat) :
    ∃ mirror,
      CertifiedBroadcast.BCF.process (bareConfig n) id
          ((arrivals.map bare).take i) = some mirror ∧
        CertifiedBroadcast.OnChain (bareConfig n)
            (chain.map bare) mirror ∧
          mirror.clean.ready = false := by
  have hFrom' :
      ∀ block ∈ arrivals.map bare, block ∈ chain.map bare := by
    intro block hMem
    rcases List.mem_map.mp hMem with ⟨other, hOther, rfl⟩
    exact List.mem_map_of_mem (hFrom other hOther)
  rcases CertifiedBroadcast.process_take_follows id hValid.bare
    rfl hFrom' i with
    ⟨mirror, hProcess, hFollows, hResting⟩
  exact
    ⟨mirror, hProcess, hFollows.toOnChain,
      hResting.clean hFollows⟩

/-
  As long as the follower goes on, it mirrors a follower of
  a certified broadcast.
-/
theorem process_mirrors
    (hValid : ValidChain cfg chain)
    (hFrom : ∀ block ∈ arrivals, block ∈ chain)
    {i : Nat}
    (hProcess :
      BCF.process cfg id (arrivals.take i) = some bcf) :
    ∃ mirror,
      CertifiedBroadcast.BCF.process (bareConfig n) id
          ((arrivals.map bare).take i) = some mirror ∧
        Mirrors cfg id chain bcf mirror ∧
          Tidy chain bcf.height bcf.futurebuffer ∧
            bcf.clean.ready = false := by
  induction i generalizing bcf with
  | zero =>
      rcases mirror_rests id hValid hFrom 0 with
        ⟨mirror, hMirror, hOn, _⟩
      cases hProcess
      cases hMirror
      refine
        ⟨_, rfl, ⟨OnChain.upTo (Nat.zero_le _), hOn, rfl, rfl⟩,
          ?_, ?_⟩
      · constructor <;>
          simp [BCF.new, Protocol.SortedBuffer.Sorted]
      · rw [(@clean_eq_of_empty BCF.new rfl).1]
        exact (clean_eq_of_empty rfl).2
  | succ i ih =>
      cases hBlock : arrivals[i]? with
      | none =>
          have hEnd := List.getElem?_eq_none_iff.mp hBlock
          have hEnd' : (arrivals.map bare).length ≤ i := by
            rw [List.length_map]
            exact hEnd
          rw [List.take_of_length_le (by omega)] at hProcess ⊢
          rw [List.take_of_length_le hEnd,
            List.take_of_length_le hEnd'] at ih
          exact ih hProcess
      | some block =>
          have hMem := hFrom block (List.mem_of_getElem? hBlock)
          have hBare :
              (arrivals.map bare)[i]? = some (bare block) := by
            rw [List.getElem?_map, hBlock]
            rfl
          rw [process_take_succ hBlock] at hProcess
          rcases Option.bind_eq_some_iff.mp hProcess with
            ⟨before, hBefore, hArrive⟩
          rcases ih hBefore with
            ⟨mirror, hMirror, hMirrors, hTidy, hResting⟩
          have hKey :
              before.height < FutureBuffer.height block →
                BCF.checkleadersign cfg id block = true := by
            intro hEarly
            by_contra hKey
            have hNone :=
              hMirrors.onChain.arrive_eq_none hValid hResting
                hMem hEarly (Bool.eq_false_of_not_eq_true hKey)
            unfold BCF.arrive at hArrive
            rw [hNone] at hArrive
            cases hArrive
          rcases hMirrors.arrive hValid hTidy hResting hMem
            hKey with
            ⟨after, mirror', hAfter, hMirror', hMirrors',
              hTidy'⟩
          rw [hArrive] at hAfter
          cases hAfter
          rcases mirror_rests id hValid hFrom (i + 1) with
            ⟨same, hSame, _, hRests⟩
          have hProcess' :
              CertifiedBroadcast.BCF.process (bareConfig n) id
                  ((arrivals.map bare).take (i + 1)) =
                some mirror' := by
            rw [CertifiedBroadcast.process_take_succ hBare,
              hMirror]
            exact hMirror'
          rw [hProcess'] at hSame
          cases hSame
          refine ⟨mirror', hProcess', hMirrors', hTidy', ?_⟩
          rw [← hMirrors'.clean.2]
          exact hRests

/- With the check passed by all early blocks it goes on. -/
theorem process_isSome
    (hValid : ValidChain cfg chain)
    (hFrom : ∀ block ∈ arrivals, block ∈ chain)
    (hOwn : OwnKey cfg id arrivals) (i : Nat) :
    ∃ bcf,
      BCF.process cfg id (arrivals.take i) = some bcf := by
  induction i with
  | zero => exact ⟨BCF.new, rfl⟩
  | succ i ih =>
      rcases ih with ⟨bcf, hProcess⟩
      cases hBlock : arrivals[i]? with
      | none =>
          have hEnd := List.getElem?_eq_none_iff.mp hBlock
          rw [List.take_of_length_le hEnd] at hProcess
          rw [List.take_of_length_le (by omega)]
          exact ⟨bcf, hProcess⟩
      | some block =>
          have hMem := hFrom block (List.mem_of_getElem? hBlock)
          rcases process_mirrors hValid hFrom hProcess with
            ⟨mirror, _, hMirrors, hTidy, hResting⟩
          rcases hMirrors.arrive hValid hTidy hResting hMem
            (hOwn i block bcf hBlock hProcess) with
            ⟨bcf', _, hArrive, _⟩
          refine ⟨bcf', ?_⟩
          rw [process_take_succ hBlock, hProcess]
          exact hArrive

/- The end of a run is as in order when its height is. -/
theorem same_iff_height
    (hValid : ValidChain cfg chain)
    (hFrom : ∀ block ∈ arrivals, block ∈ chain)
    (hProcess : BCF.process cfg id arrivals = some bcf) :
    SameAsInOrder cfg id chain arrivals ↔
      bcf.height = chain.length := by
  have hInOrder := process_in_order id hValid (Nat.le_refl _)
  have hFull := BCF.upTo_height cfg id (Nat.le_refl chain.length)
  rw [List.take_length] at hInOrder
  have hEnd := hProcess
  rw [← List.take_length (l := arrivals)] at hEnd
  rcases process_mirrors hValid hFrom hEnd with
    ⟨_, _, hMirrors, _⟩
  constructor
  · rintro ⟨same, inOrder, hSame, hSame', _, hHeight⟩
    rw [hProcess] at hSame
    rw [hInOrder] at hSame'
    cases hSame
    cases hSame'
    exact hHeight.trans hFull
  · intro hHeight
    have hEq :
        bcf.height = (BCF.upTo cfg id chain chain.length).height :=
      hHeight.trans hFull.symm
    exact
      ⟨bcf, _, hProcess, hInOrder,
        hMirrors.onChain.output_eq
          (OnChain.upTo (Nat.le_refl _)) hEq, hEq⟩

/- The same for the certified broadcast. -/
theorem mirror_same_iff_height
    {mirror : CertifiedBroadcast.BCF}
    (hValid : ValidChain cfg chain)
    (hFrom : ∀ block ∈ arrivals, block ∈ chain)
    (hProcess :
      CertifiedBroadcast.BCF.process (bareConfig n) id
        (arrivals.map bare) = some mirror) :
    CertifiedBroadcast.SameAsInOrder (bareConfig n) id
        (chain.map bare) (arrivals.map bare) ↔
      mirror.height = chain.length := by
  rcases CertifiedBroadcast.process_in_order id hValid.bare rfl
    with ⟨inOrder, hInOrder, hFollows, hFull⟩
  rw [List.length_map] at hFull
  rcases mirror_rests id hValid hFrom arrivals.length with
    ⟨same, hSame, hOn, _⟩
  rw [List.take_of_length_le (List.length_map _).le,
    hProcess] at hSame
  cases hSame
  constructor
  · rintro ⟨same, other, hSame, hOther, _, hHeight⟩
    rw [hProcess] at hSame
    rw [hInOrder] at hOther
    cases hSame
    cases hOther
    exact hHeight.trans hFull
  · intro hHeight
    have hEq := hHeight.trans hFull.symm
    exact
      ⟨mirror, inOrder, hProcess, hInOrder,
        hOn.output_eq hFollows.toOnChain hEq, hEq⟩

/- Blocks of the chain are told apart by their heights. -/
theorem ValidChain.bare_inj
    {block' : BCBlock}
    (hValid : ValidChain cfg chain)
    (hMem : block ∈ chain) (hMem' : block' ∈ chain)
    (hEq : SimpleHotStuff.bare block = SimpleHotStuff.bare block') :
    block = block' := by
  rcases List.getElem?_of_mem hMem with ⟨i, hi⟩
  have hHeight := hValid.height i block hi
  have hHeight' : FutureBuffer.height block' = i :=
    (congrArg FutureBuffer.height hEq).symm.trans hHeight
  rw [hValid.getElem?_of_mem hMem' hHeight'] at hi
  exact (Option.some.inj hi).symm

/- A block comes again in the mirror if it does here. -/
theorem comesAgain_iff
    (hValid : ValidChain cfg chain)
    (hFrom : ∀ block ∈ arrivals, block ∈ chain)
    (hOwn : OwnKey cfg id arrivals) :
    CertifiedBroadcast.ComesAgain (bareConfig n) id
        (arrivals.map bare) ↔
      ComesAgain cfg id arrivals := by
  have hShadows :
      ∀ {bcf : BCF} {mirror : CertifiedBroadcast.BCF},
        Mirrors cfg id chain bcf mirror → ∀ block,
          mirror.shadows (bare block) ↔ bcf.shadows block := by
    intro bcf mirror hMirrors block
    unfold CertifiedBroadcast.BCF.shadows BCF.shadows
    rw [hMirrors.height, hMirrors.buffer]
    unfold bareBuffer
    rw [ne_eq, ne_eq, List.map_eq_nil_iff]
    exact Iff.rfl
  constructor
  · intro hAgain i block bcf hBlock hProcess hShadow
    have hMem := hFrom block (List.mem_of_getElem? hBlock)
    rcases process_mirrors hValid hFrom hProcess with
      ⟨mirror, hMirror, hMirrors, _⟩
    have hBare :
        (arrivals.map bare)[i]? = some (bare block) := by
      rw [List.getElem?_map, hBlock]
      rfl
    rcases hAgain i (bare block) mirror hBare hMirror
      ((hShadows hMirrors block).mpr hShadow) with
      ⟨k, mirror', hLt, hAt, hMirror', hTurn⟩
    rw [List.getElem?_map] at hAt
    rcases Option.map_eq_some_iff.mp hAt with
      ⟨other, hOther, hEq⟩
    have hSame :=
      hValid.bare_inj
        (hFrom other (List.mem_of_getElem? hOther)) hMem hEq
    subst hSame
    rcases process_isSome hValid hFrom hOwn k with
      ⟨bcf', hProcess'⟩
    rcases process_mirrors hValid hFrom hProcess' with
      ⟨same, hSame, hMirrors', _⟩
    rw [hMirror'] at hSame
    cases hSame
    refine ⟨k, bcf', hLt, hOther, hProcess', ?_⟩
    rw [← hMirrors'.height]
    exact hTurn
  · intro hAgain i block mirror hBlock hMirror hShadow
    rw [List.getElem?_map] at hBlock
    rcases Option.map_eq_some_iff.mp hBlock with
      ⟨block, hAt, rfl⟩
    rcases process_isSome hValid hFrom hOwn i with
      ⟨bcf, hProcess⟩
    rcases process_mirrors hValid hFrom hProcess with
      ⟨same, hSame, hMirrors, _⟩
    rw [hMirror] at hSame
    cases hSame
    rcases hAgain i block bcf hAt hProcess
      ((hShadows hMirrors block).mp hShadow) with
      ⟨k, bcf', hLt, hAt', hProcess', hTurn⟩
    rcases process_mirrors hValid hFrom hProcess' with
      ⟨mirror', hMirror', hMirrors', _⟩
    refine ⟨k, mirror', hLt, ?_, hMirror', ?_⟩
    · rw [List.getElem?_map, hAt']
      rfl
    · rw [hMirrors'.height]
      exact hTurn

/- The heights at the end, against those of the mirror. -/
theorem same_iff_comesAgain
    (hValid : ValidChain cfg chain)
    (hFrom : ∀ block ∈ arrivals, block ∈ chain)
    (hAll : ∀ block ∈ chain, block ∈ arrivals)
    (hOwn : OwnKey cfg id arrivals) :
    SameAsInOrder cfg id chain arrivals ↔
      ComesAgain cfg id arrivals := by
  have hFrom' :
      ∀ block ∈ arrivals.map bare, block ∈ chain.map bare := by
    intro block hMem
    rcases List.mem_map.mp hMem with ⟨other, hOther, rfl⟩
    exact List.mem_map_of_mem (hFrom other hOther)
  have hAll' :
      ∀ block ∈ chain.map bare, block ∈ arrivals.map bare := by
    intro block hMem
    rcases List.mem_map.mp hMem with ⟨other, hOther, rfl⟩
    exact List.mem_map_of_mem (hAll other hOther)
  rcases process_isSome hValid hFrom hOwn arrivals.length with
    ⟨bcf, hProcess⟩
  rcases process_mirrors hValid hFrom hProcess with
    ⟨mirror, hMirror, hMirrors, _⟩
  rw [List.take_length] at hProcess
  rw [List.take_of_length_le (List.length_map _).le] at hMirror
  rw [← comesAgain_iff hValid hFrom hOwn,
    same_iff_height hValid hFrom hProcess, ← hMirrors.height,
    ← mirror_same_iff_height hValid hFrom hMirror]
  exact
    ⟨CertifiedBroadcast.comesAgain_of_same hValid.bare rfl
        hFrom',
      CertifiedBroadcast.same_of_comesAgain hValid.bare rfl
        hFrom' hAll'⟩

/-
  Early blocks are treated like timely ones exactly when
  they pass the check with the follower's own key and every
  shadowed block comes again in its turn.
-/
theorem early_like_timely_iff
    (hValid : ValidChain cfg chain)
    (hFrom : ∀ block ∈ arrivals, block ∈ chain)
    (hAll : ∀ block ∈ chain, block ∈ arrivals) :
    EarlyLikeTimely cfg id chain arrivals ↔
      OwnKey cfg id arrivals ∧ ComesAgain cfg id arrivals := by
  constructor
  · intro hEarly
    have hOwn : OwnKey cfg id arrivals := by
      intro i block bcf hBlock hProcess hAhead
      have hMem := hFrom block (List.mem_of_getElem? hBlock)
      rcases process_mirrors hValid hFrom hProcess with
        ⟨_, _, hMirrors, _, hResting⟩
      have hSome :=
        (hEarly.accepted i block bcf hBlock hProcess
          hAhead).mpr (onTime id hValid hMem)
      by_contra hKey
      rw [hMirrors.onChain.arrive_eq_none hValid hResting
        hMem hAhead (Bool.eq_false_of_not_eq_true hKey)]
        at hSome
      cases hSome
    exact
      ⟨hOwn,
        (same_iff_comesAgain hValid hFrom hAll hOwn).mp
          hEarly.same⟩
  · rintro ⟨hOwn, hAgain⟩
    refine
      ⟨?_,
        (same_iff_comesAgain hValid hFrom hAll hOwn).mpr
          hAgain⟩
    intro i block bcf hBlock hProcess hAhead
    have hMem := hFrom block (List.mem_of_getElem? hBlock)
    refine iff_of_true ?_ (onTime id hValid hMem)
    rcases process_mirrors hValid hFrom hProcess with
      ⟨mirror, _, hMirrors, hTidy, hResting⟩
    rcases hMirrors.arrive hValid hTidy hResting hMem
      (hOwn i block bcf hBlock hProcess) with
      ⟨bcf', _, hArrive, _⟩
    rcases Option.bind_eq_some_iff.mp hArrive with
      ⟨read, hRead, _⟩
    rw [hRead]
    rfl

end Runs

------------------------------------------------------------
-- A Follower with a Key of Its Own
------------------------------------------------------------

/- A signature is the number of the party, 64 times. -/
def fourPrimitives : Crypto.Primitives 4 where
  verify := fun id sign _ =>
    sign = List.replicate 64 (UInt8.ofNat id.val)
  aggregateSign := fun _ _ _ => none
  aggregateVerify := fun _ _ _ => false
  blsVerify := fun _ _ _ => none
  blsAggregate := fun _ => none
  fastAggregateVerify := fun _ _ _ => none
  verifyAggregateHashes := fun _ _ _ => none

/- Signatures are the number of the party, 64 times. -/
def fourConfig : Config 4 where
  prim := fourPrimitives
  type := .ecdsa
  sign := fun id _ => List.replicate 64 (UInt8.ofNat id.val)
  hash := fun rawBC => 7 :: intToBytes rawBC.height

/- Certificates are by parties 2 and 3. -/
def fourBlock (height : Int32) : BCBlock where
  rawBC :=
    { lastblkid :=
        if height = 0 then [] else 7 :: intToBytes (height - 1)
      height := height
      root := [1]
      leader := 1
      k := 0
      timestamp := 0
      txcount := 0 }
  sign := some ⟨1, List.replicate 64 0⟩
  batchSigns :=
    if height = 0 then none
    else
      some
        ⟨List.replicate 64 1 ++ List.replicate 64 2, [2, 3]⟩

/- Three blocks in order. -/
def fourChain : List BCBlock :=
  [fourBlock 0, fourBlock 1, fourBlock 2]

/- They are a valid chain. -/
theorem fourChain_valid : ValidChain fourConfig fourChain where
  fits := by decide
  height := by
    intro i block hBlock
    match i, hBlock with
    | 0, hBlock => cases hBlock; rfl
    | 1, hBlock => cases hBlock; rfl
    | 2, hBlock => cases hBlock; rfl
    | i + 3, hBlock => cases hBlock
  valid := by
    have hAll :
        ∀ block ∈ fourChain,
          block.rawBC.leader = 1 ∧
            fourConfig.verifies 0 block = true ∧
              BCF.checkcomsigns fourConfig block = true := by
      decide +kernel
    intro block hMem
    rcases hAll block hMem with ⟨hLeader, hSigned, hCertified⟩
    exact ⟨hLeader, hSigned, hCertified⟩
  linked := by
    intro i block next hBlock hNext
    match i, hBlock, hNext with
    | 0, hBlock, hNext => cases hBlock; cases hNext; rfl
    | 1, hBlock, hNext => cases hBlock; cases hNext; rfl
    | i + 2, hBlock, hNext => cases hNext

/- The last block comes before the second. -/
def earlyBlock : List BCBlock :=
  [fourBlock 0, fourBlock 2, fourBlock 1]

/- Party 1 has the key that is asked for. -/
theorem early_like_timely_leader :
    EarlyLikeTimely fourConfig 0 fourChain earlyBlock := by
  have hFrom : ∀ block ∈ earlyBlock, block ∈ fourChain := by
    decide
  have hAll : ∀ block ∈ fourChain, block ∈ earlyBlock := by
    decide
  have hOwn : OwnKey fourConfig 0 earlyBlock := by
    intro i block bcf hBlock _ _
    have hMem := hFrom block (List.mem_of_getElem? hBlock)
    exact (fourChain_valid.valid block hMem).signed
  have hEnd :
      (BCF.process fourConfig 0 earlyBlock).map (·.height) =
        some 3 := by
    decide +kernel
  rcases Option.map_eq_some_iff.mp hEnd with
    ⟨bcf, hProcess, hHeight⟩
  have hSame : SameAsInOrder fourConfig 0 fourChain earlyBlock :=
    (same_iff_height fourChain_valid hFrom hProcess).mpr hHeight
  exact
    (early_like_timely_iff fourChain_valid hFrom hAll).mpr
      ⟨hOwn,
        (same_iff_comesAgain fourChain_valid hFrom hAll
          hOwn).mp hSame⟩

/- Party 2 panics at a block that comes early. -/
theorem early_block_refused :
    ValidChain fourConfig fourChain ∧
      earlyBlock.Perm fourChain ∧
        BCF.process fourConfig 1 fourChain ≠ none ∧
          BCF.process fourConfig 1 earlyBlock = none ∧
            ¬ EarlyLikeTimely fourConfig 1 fourChain
              earlyBlock := by
  have hNone :
      (BCF.process fourConfig 1 earlyBlock).isNone := by
    decide +kernel
  have hPanic := Option.isNone_iff_eq_none.mp hNone
  refine ⟨fourChain_valid, by decide, ?_, hPanic, ?_⟩
  · have hInOrder :=
      process_in_order 1 fourChain_valid (Nat.le_refl _)
    rw [List.take_length] at hInOrder
    rw [hInOrder]
    exact Option.some_ne_none _
  · intro hEarly
    rcases hEarly.same with ⟨_, _, hProcess, _⟩
    rw [hPanic] at hProcess
    cases hProcess

end SimpleHotStuff

end Jumbo
