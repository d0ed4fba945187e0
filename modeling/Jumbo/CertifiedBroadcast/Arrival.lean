import Mathlib.Data.List.Induction
import Jumbo.CertifiedBroadcast.Leader

/-
  The order in which the blocks of a chain arrive.

  In test mode an early block goes straight into the future
  buffer. The cached lowest height is set when a block enters
  an empty buffer and when one is taken out, but not when a
  lower block is inserted: such a block is not found when its
  turn comes. The follower ends where in-order arrival ends
  exactly when each of these blocks arrives once more while
  it is the next one.

  Main declarations:
    * `BCF.process`
    * `BCF.shadows`
    * `Tidy`
    * `Follows`
    * `order_insensitive_iff`
-/

------------------------------------------------------------
-- Processing Arrivals
------------------------------------------------------------

namespace Jumbo

namespace CertifiedBroadcast

open Protocol
open Struct

variable {n : Nat}

namespace BCF

/- Iterations that find their block in the buffer. -/
def settle (cfg : Config n) (nid : Fin n) :
    Nat → BCF → Option BCF
| 0, bcf => some bcf
| fuel + 1, bcf =>
    if bcf.clean.ready then
      (bcf.next cfg nid).bind (settle cfg nid fuel)
    else some bcf.clean

/-
  A message is read and the follower goes on until it reads
  again; every iteration takes a block out of the buffer.
-/
def arrive
    (cfg : Config n) (nid : Fin n) (bcf : BCF)
    (block : BCBlock) : Option BCF :=
  (bcf.receive cfg nid block).bind fun bcf =>
    bcf.settle cfg nid (bcf.futurebuffer.bcblocks.length + 1)

/- The follower reads the blocks one after another. -/
def process
    (cfg : Config n) (nid : Fin n) (blocks : List BCBlock) :
    Option BCF :=
  blocks.foldlM (arrive cfg nid) BCF.new

/- The block is early and below the cached lowest height. -/
def shadows (bcf : BCF) (block : BCBlock) : Prop :=
  bcf.height < FutureBuffer.height block ∧
    bcf.futurebuffer.bcblocks ≠ [] ∧
      FutureBuffer.height block < bcf.futurebuffer.lowwest

end BCF

end CertifiedBroadcast

end Jumbo

------------------------------------------------------------
-- The Buffer
------------------------------------------------------------

namespace Jumbo

namespace CertifiedBroadcast

open Protocol
open Struct

variable {n : Nat}

/-
  A buffer of early blocks; unless it is empty, the cached
  height is the height of one of them.
-/
structure Tidy
    (chain : List BCBlock) (bound : Nat) (fb : FutureBuffer) :
    Prop where
  sorted :
    SortedBuffer.Sorted FutureBuffer.height fb.bcblocks
  mem :
    ∀ block ∈ fb.bcblocks,
      block ∈ chain ∧ 0 < FutureBuffer.height block
  cached :
    fb.bcblocks ≠ [] →
      ∃ block ∈ fb.bcblocks,
        FutureBuffer.height block = fb.lowwest
  empty : fb.bcblocks = [] → fb.lowwest < bound

/- A block that will be found when its turn comes. -/
def Visible (fb : FutureBuffer) (block : BCBlock) : Prop :=
  block ∈ fb.bcblocks ∧
    fb.lowwest ≤ FutureBuffer.height block

section Buffer

variable {chain : List BCBlock} {bound : Nat}

/- The cached height after the first block is taken out. -/
def FutureBuffer.after
    (lowwest : Int) (bcblocks : List BCBlock) :
    FutureBuffer where
  bcblocks := bcblocks
  lowwest :=
    match bcblocks with
    | [] => lowwest
    | first :: _ => FutureBuffer.height first

/- The buffer stays tidy when its first block is taken. -/
theorem Tidy.after
    {lowwest : Int} {block : BCBlock}
    {bcblocks : List BCBlock}
    (hTidy : Tidy chain bound ⟨lowwest, block :: bcblocks⟩)
    {bound' : Nat}
    (hEmpty : bcblocks = [] → lowwest < bound') :
    Tidy chain bound' (FutureBuffer.after lowwest bcblocks)
    where
  sorted := (List.pairwise_cons.mp hTidy.sorted).2
  mem := fun block hMem =>
    hTidy.mem block (List.mem_cons_of_mem _ hMem)
  cached := by
    intro hNe
    cases bcblocks with
    | nil => exact absurd rfl hNe
    | cons first rest =>
        exact ⟨first, List.mem_cons_self, rfl⟩
  empty := by
    intro hNil
    cases bcblocks with
    | nil => exact hEmpty rfl
    | cons first rest => cases hNil

/- The first block is not above the cached height. -/
theorem Tidy.first_le
    {lowwest : Int} {block : BCBlock}
    {bcblocks : List BCBlock}
    (hTidy : Tidy chain bound ⟨lowwest, block :: bcblocks⟩) :
    FutureBuffer.height block ≤ lowwest := by
  rcases hTidy.cached (List.cons_ne_nil _ _) with
    ⟨other, hMem, hEq⟩
  dsimp only at hMem hEq
  rcases List.mem_cons.mp hMem with rfl | hMem
  · exact hEq.le
  · have hLt := (List.pairwise_cons.mp hTidy.sorted).1 other hMem
    omega

/- Taking the first block out hides none of the others. -/
theorem Tidy.visible_after
    {lowwest : Int} {block other : BCBlock}
    {bcblocks : List BCBlock}
    (hTidy : Tidy chain bound ⟨lowwest, block :: bcblocks⟩)
    (hVisible : Visible ⟨lowwest, block :: bcblocks⟩ other)
    (hNe : other ≠ block) :
    Visible (FutureBuffer.after lowwest bcblocks) other := by
  have hMem : other ∈ bcblocks :=
    (List.mem_cons.mp hVisible.1).resolve_left hNe
  refine ⟨hMem, ?_⟩
  have hSorted := (List.pairwise_cons.mp hTidy.sorted).2
  cases bcblocks with
  | nil => cases hMem
  | cons first rest =>
      rcases List.mem_cons.mp hMem with rfl | hMem
      · exact Int.le_refl _
      · exact ((List.pairwise_cons.mp hSorted).1 other hMem).le

/- The loop at the head of an iteration. -/
theorem Tidy.clean
    {lowwest : Int} {bcblocks : List BCBlock}
    (hTidy : Tidy chain bound ⟨lowwest, bcblocks⟩) :
    let fb := FutureBuffer.clean bound lowwest bcblocks
    Tidy chain bound fb ∧
      (fb.bcblocks ≠ [] → bound ≤ fb.lowwest) ∧
        fb.bcblocks.length ≤ bcblocks.length ∧
          ∀ block, bound ≤ FutureBuffer.height block →
            Visible ⟨lowwest, bcblocks⟩ block →
              Visible fb block := by
  induction bcblocks generalizing lowwest with
  | nil =>
      unfold FutureBuffer.clean
      dsimp only
      have hLt := hTidy.empty rfl
      dsimp only at hLt
      split
      · refine ⟨?_, fun h => absurd rfl h, Nat.le_refl _,
          fun block _ hVisible => ?_⟩
        · refine
            { hTidy with
              cached := fun h => absurd rfl h
              empty := ?_ }
          intro _
          change (-1 : Int) < bound
          omega
        · cases hVisible.1
      · exact ⟨hTidy, fun h => absurd rfl h, Nat.le_refl _,
          fun block _ hVisible => hVisible⟩
  | cons first rest ih =>
      have hFirst := hTidy.first_le
      unfold FutureBuffer.clean
      dsimp only
      split
      · rename_i hBelow
        have hAfter :=
          ih (hTidy.after fun _ => hBelow.2)
        rcases hAfter with ⟨hTidy', hBound, hLength, hKeep⟩
        refine ⟨hTidy', hBound,
          Nat.le_trans hLength (Nat.le_succ _), ?_⟩
        intro block hHigh hVisible
        apply hKeep block hHigh
        apply hTidy.visible_after hVisible
        intro hEq
        subst hEq
        omega
      · rename_i hNot
        refine ⟨hTidy, ?_, Nat.le_refl _,
          fun _ _ hVisible => hVisible⟩
        intro _
        rcases hTidy.cached (List.cons_ne_nil _ _) with
          ⟨other, hMem, hEq⟩
        have hPos := (hTidy.mem other hMem).2
        dsimp only at hEq ⊢
        omega

/- Nothing is dropped if nothing is old. -/
theorem clean_eq_self
    {lowwest : Int} {bcblocks : List BCBlock}
    (hNot : ¬ (0 < lowwest ∧ lowwest < bound)) :
    FutureBuffer.clean bound lowwest bcblocks =
      ⟨lowwest, bcblocks⟩ := by
  cases bcblocks with
  | nil =>
      unfold FutureBuffer.clean
      rw [if_neg hNot]
  | cons first rest =>
      unfold FutureBuffer.clean
      rw [if_neg hNot]

/- An early block is put into the buffer. -/
theorem Tidy.put
    {fb : FutureBuffer} {block : BCBlock}
    (hTidy : Tidy chain bound fb)
    (hMem : block ∈ chain)
    (hEarly : bound < FutureBuffer.height block) :
    Tidy chain bound (fb.put block) ∧
      (fb.put block).bcblocks ≠ [] ∧
        (fb.put block).lowwest =
          if fb.bcblocks = [] then FutureBuffer.height block
          else fb.lowwest := by
  by_cases hNil : fb.bcblocks = []
  · have hPut :
        fb.put block =
          ⟨FutureBuffer.height block, [block]⟩ := by
      unfold FutureBuffer.put
      rw [hNil]
    rw [hPut, if_pos hNil]
    refine ⟨⟨List.pairwise_singleton _ _, ?_, ?_, ?_⟩, ?_, rfl⟩
    · intro other hOther
      cases List.mem_singleton.mp hOther
      exact ⟨hMem, by omega⟩
    · exact fun _ => ⟨block, List.mem_singleton_self _, rfl⟩
    · exact fun h => absurd h (List.cons_ne_nil _ _)
    · exact List.cons_ne_nil _ _
  · rw [FutureBuffer.put_eq hTidy.sorted hNil, if_neg hNil]
    have hNe :
        SortedBuffer.insertNew FutureBuffer.height block
          fb.bcblocks ≠ [] := by
      rcases SortedBuffer.mem_insertNew_self_key
        FutureBuffer.height block fb.bcblocks with ⟨z, hz, _⟩
      exact List.ne_nil_of_mem hz
    refine ⟨⟨?_, ?_, ?_, ?_⟩, hNe, rfl⟩
    · exact SortedBuffer.insertNew_sorted hTidy.sorted
    · intro other hOther
      rcases SortedBuffer.mem_of_mem_insertNew hOther with
        rfl | hOther
      · exact ⟨hMem, by omega⟩
      · exact hTidy.mem other hOther
    · intro _
      rcases hTidy.cached hNil with ⟨other, hOther, hEq⟩
      exact
        ⟨other, SortedBuffer.mem_insertNew_of_mem hOther, hEq⟩
    · exact fun h => absurd h hNe

/- Putting a block in hides none of the others. -/
theorem Tidy.visible_put
    {fb : FutureBuffer} {block other : BCBlock}
    (hTidy : Tidy chain bound fb)
    (hVisible : Visible fb other) :
    Visible (fb.put block) other := by
  have hNe := List.ne_nil_of_mem hVisible.1
  rw [FutureBuffer.put_eq hTidy.sorted hNe]
  exact
    ⟨SortedBuffer.mem_insertNew_of_mem hVisible.1,
      hVisible.2⟩

end Buffer

end CertifiedBroadcast

end Jumbo

------------------------------------------------------------
-- Following a Chain
------------------------------------------------------------

namespace Jumbo

namespace CertifiedBroadcast

open Protocol
open Struct

variable {n : Nat}

/- What has been accepted is a prefix of the chain. -/
structure OnChain
    (cfg : Config n) (chain : List BCBlock) (bcf : BCF) :
    Prop where
  chained : Chained cfg bcf
  accepted : bcf.accepted = chain.take bcf.height
  le : bcf.height ≤ chain.length

/- The follower is on the chain and its buffer is tidy. -/
structure Follows
    (cfg : Config n) (chain : List BCBlock) (bcf : BCF) :
    Prop extends OnChain cfg chain bcf where
  tidy : Tidy chain bcf.height bcf.futurebuffer

/- Nothing in the buffer is thought to be next. -/
def Resting (bcf : BCF) : Prop :=
  bcf.futurebuffer.bcblocks ≠ [] →
    bcf.height < bcf.futurebuffer.lowwest

section Follows

variable {cfg : Config n} {nid : Fin n}
variable {chain : List BCBlock} {bcf : BCF} {block : BCBlock}

/- A block of the chain at this height is acceptable. -/
theorem OnChain.acceptable
    (hOn : OnChain cfg chain bcf)
    (hValid : ValidChain cfg chain)
    (hMem : block ∈ chain)
    (hHeight : FutureBuffer.height block = bcf.height) :
    Acceptable cfg bcf block := by
  have hEq :=
    (hValid.height_eq_iff hOn.le block).mpr hHeight
  refine ⟨hValid.legal block hMem, hEq, ?_⟩
  unfold BCF.checkblockid
  simp only [Bool.or_eq_true, decide_eq_true_eq]
  rcases hOn.chained.lastblock with
    ⟨_, hZero⟩ | ⟨last, hSome, hPos, _⟩
  · left
    rw [hEq]
    unfold BCF.int32height
    rw [hZero]
    rfl
  · right
    rcases List.getElem?_of_mem hMem with ⟨i, hi⟩
    have hIndex := hValid.height i block hi
    have hSame : i = bcf.height - 1 + 1 := by omega
    have hLast := hOn.chained.last
    rw [hSome, hOn.accepted, List.getLast?_eq_getElem?,
      List.length_take, Nat.min_eq_left hOn.le,
      List.getElem?_take_of_lt (by omega)] at hLast
    rw [hSame] at hi
    rw [hOn.chained.lastblkID last hSome,
      hValid.linked _ last block hLast.symm hi]

/- The height of a block of the chain is below its length. -/
theorem ValidChain.lt_length
    (hValid : ValidChain cfg chain)
    (hMem : block ∈ chain)
    (hHeight : FutureBuffer.height block = bcf.height) :
    bcf.height < chain.length := by
  rcases List.getElem?_of_mem hMem with ⟨i, hi⟩
  have hIndex := hValid.height i block hi
  have hLt := (List.getElem?_eq_some_iff.mp hi).1
  omega

/- What waits does not matter for being on the chain. -/
theorem OnChain.withBuffer
    (hOn : OnChain cfg chain bcf)
    (futurebuffer : FutureBuffer) :
    OnChain cfg chain
      { bcf with futurebuffer := futurebuffer } :=
  ⟨{ hOn.chained with }, hOn.accepted, hOn.le⟩

/- The next block is accepted on either path. -/
theorem OnChain.accept
    (hOn : OnChain cfg chain bcf)
    (hValid : ValidChain cfg chain)
    (hMem : block ∈ chain)
    (hHeight : FutureBuffer.height block = bcf.height) :
    OnChain cfg chain
      (bcf.generatepayback cfg nid block) := by
  have hAccept := hOn.acceptable hValid hMem hHeight
  have hLt := hValid.lt_length hMem hHeight
  refine ⟨hOn.chained.accept hAccept, ?_, ?_⟩
  · rw [BCF.generatepayback_accepted,
      BCF.generatepayback_height, hOn.accepted]
    rcases List.getElem?_of_mem hMem with ⟨i, hi⟩
    have hIndex := hValid.height i block hi
    have hEq : i = bcf.height := by omega
    subst hEq
    rw [List.take_add_one, hi]
    rfl
  · rw [BCF.generatepayback_height]
    exact hLt

/- An acceptable block is paid back. -/
theorem check_bcblock_eq
    (hAccept : Acceptable cfg bcf block) :
    bcf.check_bcblock cfg nid block =
      some (bcf.generatepayback cfg nid block) := by
  have hLinked := hAccept.linked
  have hCertified := hAccept.certified
  unfold BCF.checkblockid at hLinked
  unfold BCF.checkcomsigns at hCertified
  unfold BCF.check_bcblock
  apply if_pos
  rw [hAccept.signed, Bool.and_true]
  simp only [Bool.or_eq_true, Bool.and_eq_true,
    decide_eq_true_eq] at hLinked hCertified ⊢
  rcases hLinked with hZero | hLink
  · exact .inl hZero
  · rcases hCertified with hZero | hBatch
    · exact .inl hZero
    · rw [hLink]
      exact .inr ⟨rfl, hBatch⟩

/- What handling a block of the chain does. -/
theorem OnChain.handle
    {isfuture : Bool}
    (hOn : OnChain cfg chain bcf)
    (hValid : ValidChain cfg chain)
    (hTest : cfg.testmode = true)
    (hMem : block ∈ chain) :
    bcf.handle cfg nid isfuture block =
      some
        (if FutureBuffer.height block < bcf.height then bcf
        else if FutureBuffer.height block = bcf.height then
          bcf.generatepayback cfg nid block
        else
          { bcf with
            futurebuffer := bcf.futurebuffer.put block }) := by
  have hLegal := hValid.legal block hMem
  have hLt := hValid.height_lt_iff hOn.le block
  have hEq := hValid.height_eq_iff hOn.le block
  unfold BCF.handle
  by_cases hOld : FutureBuffer.height block < bcf.height
  · rw [if_pos (hLt.mpr hOld), if_pos hOld]
  · rw [if_neg (mt hLt.mp hOld), if_neg hOld]
    by_cases hNow : FutureBuffer.height block = bcf.height
    · have hAccept := hOn.acceptable hValid hMem hNow
      rw [if_pos (hEq.mpr hNow), if_pos hNow,
        check_bcblock_eq hAccept, if_pos hAccept.linked,
        ite_self]
    · rw [if_neg (mt hEq.mp hNow), if_neg hNow,
        hLegal.signed, hLegal.certified, hTest]
      rfl

/- The loop at the head of an iteration keeps the invariant. -/
theorem Follows.clean
    (hFollows : Follows cfg chain bcf) :
    Follows cfg chain bcf.clean ∧
      (bcf.clean.ready = false → Resting bcf.clean) := by
  have hTidy := hFollows.tidy.clean
  refine
    ⟨⟨hFollows.toOnChain.withBuffer _, hTidy.1⟩, ?_⟩
  intro hReady hNe
  have hLe := hTidy.2.1 hNe
  rcases hTidy.1.cached hNe with ⟨other, hMem, hEq⟩
  have hPos := (hTidy.1.mem other hMem).2
  simp only [BCF.ready, Bool.and_eq_false_iff,
    decide_eq_false_iff_not, not_not] at hReady
  change ((bcf.height : Int) < bcf.clean.futurebuffer.lowwest)
  have hLow : bcf.clean.futurebuffer.lowwest ≠ bcf.height := by
    rcases hReady with h | h
    · exact h
    · change bcf.height = 0 at h
      change
        FutureBuffer.height other =
          bcf.clean.futurebuffer.lowwest at hEq
      omega
  change
    (bcf.height : Int) ≤ bcf.clean.futurebuffer.lowwest at hLe
  omega

/- What is visible now is still visible then. -/
def Keeps (bcf bcf' : BCF) : Prop :=
  bcf.height ≤ bcf'.height ∧
    ∀ block, bcf'.height ≤ FutureBuffer.height block →
      Visible bcf.futurebuffer block →
        Visible bcf'.futurebuffer block

/- What is kept twice is kept. -/
theorem Keeps.trans
    {bcf bcf' bcf'' : BCF}
    (hFirst : Keeps bcf bcf') (hSecond : Keeps bcf' bcf'') :
    Keeps bcf bcf'' := by
  refine ⟨Nat.le_trans hFirst.1 hSecond.1, ?_⟩
  intro block hHigh hVisible
  have hLe := hSecond.1
  exact hSecond.2 block hHigh
    (hFirst.2 block (by omega) hVisible)

/- Cleaning only drops what has been accepted. -/
theorem Follows.keeps_clean
    (hFollows : Follows cfg chain bcf) :
    Keeps bcf bcf.clean :=
  ⟨Nat.le_refl _, hFollows.tidy.clean.2.2.2⟩

variable (nid) in
/- The first block of the buffer is taken out and handled. -/
theorem Follows.takeFirst
    (hFollows : Follows cfg chain bcf)
    (hValid : ValidChain cfg chain)
    (hTest : cfg.testmode = true)
    (hReady : bcf.ready = true) :
    ∃ block futurebuffer bcf',
      bcf.futurebuffer.getlowwest =
          (some block, futurebuffer) ∧
        ({ bcf with futurebuffer := futurebuffer } :
            BCF).handle cfg nid true block = some bcf' ∧
          Follows cfg chain bcf' ∧ Keeps bcf bcf' ∧
            bcf'.futurebuffer.bcblocks.length <
              bcf.futurebuffer.bcblocks.length := by
  simp only [BCF.ready, Bool.and_eq_true,
    decide_eq_true_eq] at hReady
  have hTidy := hFollows.tidy
  cases hBuffer : bcf.futurebuffer with
  | mk lowwest bcblocks =>
  rw [hBuffer] at hTidy hReady
  cases bcblocks with
  | nil =>
      have hLt := hTidy.empty rfl
      dsimp only at hLt hReady
      omega
  | cons first rest =>
      have hMem := (hTidy.mem first List.mem_cons_self).1
      have hFirst := hTidy.first_le
      have hLow : lowwest = bcf.height := hReady.1
      have hOn :=
        hFollows.toOnChain.withBuffer
          (FutureBuffer.after lowwest rest)
      refine
        ⟨first, FutureBuffer.after lowwest rest, _, rfl,
          hOn.handle hValid hTest hMem, ?_⟩
      by_cases hOld : FutureBuffer.height first < bcf.height
      · rw [if_pos hOld]
        have hRest : rest ≠ [] := by
          intro hNil
          subst hNil
          rcases hTidy.cached (List.cons_ne_nil _ _) with
            ⟨other, hOther, hEq⟩
          cases List.mem_singleton.mp hOther
          dsimp only at hEq
          omega
        refine
          ⟨⟨hOn, hTidy.after fun h => absurd h hRest⟩,
            ⟨Nat.le_refl _, ?_⟩, Nat.lt_succ_self _⟩
        intro block hHigh hVisible
        rw [hBuffer] at hVisible
        apply hTidy.visible_after hVisible
        intro hEq
        subst hEq
        dsimp only at hHigh
        omega
      · have hNow :
            FutureBuffer.height first = bcf.height := by
          omega
        rw [if_neg hOld, if_pos hNow]
        refine
          ⟨⟨hOn.accept hValid hMem hNow, ?_⟩, ⟨?_, ?_⟩, ?_⟩
        · rw [BCF.generatepayback_height,
            BCF.generatepayback_futurebuffer]
          apply hTidy.after
          intro _
          push_cast
          omega
        · rw [BCF.generatepayback_height]
          exact Nat.le_succ _
        · intro block hHigh hVisible
          rw [BCF.generatepayback_height] at hHigh
          rw [BCF.generatepayback_futurebuffer]
          rw [hBuffer] at hVisible
          apply hTidy.visible_after hVisible
          intro hEq
          subst hEq
          push_cast at hHigh
          omega
        · rw [BCF.generatepayback_futurebuffer]
          exact Nat.lt_succ_self _

variable (nid) in
/- An iteration that finds its block in the buffer. -/
theorem Follows.next
    (hFollows : Follows cfg chain bcf)
    (hValid : ValidChain cfg chain)
    (hTest : cfg.testmode = true)
    (hReady : bcf.clean.ready = true) :
    ∃ bcf', bcf.next cfg nid = some bcf' ∧
      Follows cfg chain bcf' ∧ Keeps bcf bcf' ∧
        bcf'.futurebuffer.bcblocks.length <
          bcf.futurebuffer.bcblocks.length := by
  have hLength :
      bcf.clean.futurebuffer.bcblocks.length ≤
        bcf.futurebuffer.bcblocks.length :=
    hFollows.tidy.clean.2.2.1
  rcases hFollows.clean.1.takeFirst nid hValid hTest
    hReady with
    ⟨block, futurebuffer, bcf', hGet, hHandle, hAfter,
      hKeeps, hLess⟩
  refine
    ⟨bcf', ?_, hAfter, hFollows.keeps_clean.trans hKeeps,
      by omega⟩
  unfold BCF.next
  dsimp only
  rw [if_pos hReady, hGet]
  exact hHandle

variable (nid) in
/- The follower comes to rest. -/
theorem Follows.settle
    {fuel : Nat}
    (hFollows : Follows cfg chain bcf)
    (hValid : ValidChain cfg chain)
    (hTest : cfg.testmode = true)
    (hFuel : bcf.futurebuffer.bcblocks.length < fuel) :
    ∃ bcf', bcf.settle cfg nid fuel = some bcf' ∧
      Follows cfg chain bcf' ∧ Keeps bcf bcf' ∧
        Resting bcf' := by
  induction fuel generalizing bcf with
  | zero => omega
  | succ fuel ih =>
      unfold BCF.settle
      cases hReady : bcf.clean.ready with
      | true =>
          rcases hFollows.next nid hValid hTest
            hReady with
            ⟨next, hNext, hAfter, hKeeps, hLess⟩
          rcases ih hAfter (by omega) with
            ⟨bcf', hSettle, hEnd, hKeeps', hResting⟩
          refine
            ⟨bcf', ?_, hEnd, hKeeps.trans hKeeps', hResting⟩
          rw [if_pos rfl, hNext]
          exact hSettle
      | false =>
          exact
            ⟨bcf.clean, if_neg Bool.false_ne_true,
              hFollows.clean.1, hFollows.keeps_clean,
              hFollows.clean.2 hReady⟩

/- A follower at rest stays where it is. -/
theorem Resting.clean_eq
    (hResting : Resting bcf)
    (hNe : bcf.futurebuffer.bcblocks ≠ []) :
    bcf.clean = bcf ∧ bcf.ready = false := by
  have hLt := hResting hNe
  constructor
  · unfold BCF.clean
    rw [clean_eq_self (by omega)]
  · simp only [BCF.ready, Bool.and_eq_false_iff,
      decide_eq_false_iff_not]
    left
    omega

/- After cleaning a follower at rest has nothing ready. -/
theorem Resting.clean
    (hFollows : Follows cfg chain bcf)
    (hResting : Resting bcf) :
    bcf.clean.ready = false := by
  by_cases hNil : bcf.futurebuffer.bcblocks = []
  · have hTidy := hFollows.clean.1.tidy
    have hEmpty :
        bcf.clean.futurebuffer.bcblocks = [] := by
      apply List.eq_nil_iff_forall_not_mem.mpr
      intro block hMem
      have hIn := mem_of_mem_clean hMem
      rw [hNil] at hIn
      cases hIn
    have hLt := hTidy.empty hEmpty
    simp only [BCF.ready, Bool.and_eq_false_iff,
      decide_eq_false_iff_not]
    left
    omega
  · rcases hResting.clean_eq hNil with ⟨hEq, hReady⟩
    rw [hEq]
    exact hReady

/- A follower at rest stays as it is. -/
theorem Resting.settle
    {fuel : Nat}
    (hResting : Resting bcf)
    (hNe : bcf.futurebuffer.bcblocks ≠ []) :
    bcf.settle cfg nid (fuel + 1) = some bcf := by
  rcases hResting.clean_eq hNe with ⟨hEq, hReady⟩
  unfold BCF.settle
  rw [hEq, hReady]
  rfl

/- Reading a block of the chain. -/
theorem Follows.arrive_eq
    (hFollows : Follows cfg chain bcf)
    (hResting : Resting bcf)
    (hValid : ValidChain cfg chain)
    (hTest : cfg.testmode = true)
    (hMem : block ∈ chain) :
    bcf.arrive cfg nid block =
      let read :=
        if FutureBuffer.height block < bcf.height then
          bcf.clean
        else if FutureBuffer.height block = bcf.height then
          bcf.clean.generatepayback cfg nid block
        else
          { bcf.clean with
            futurebuffer :=
              bcf.clean.futurebuffer.put block }
      read.settle cfg nid
        (read.futurebuffer.bcblocks.length + 1) := by
  have hClean := hFollows.clean.1
  have hLegal := hValid.legal block hMem
  unfold BCF.arrive BCF.receive
  dsimp only
  rw [if_neg (by rw [hResting.clean hFollows]; decide),
    if_pos ⟨hLegal.leader, hLegal.k⟩,
    hClean.toOnChain.handle hValid hTest hMem]
  rfl

variable (nid) in
/- A block is read and the follower comes to rest again. -/
theorem Follows.arrive
    (hFollows : Follows cfg chain bcf)
    (hResting : Resting bcf)
    (hValid : ValidChain cfg chain)
    (hTest : cfg.testmode = true)
    (hMem : block ∈ chain) :
    ∃ bcf', bcf.arrive cfg nid block = some bcf' ∧
      Follows cfg chain bcf' ∧ Keeps bcf bcf' ∧
        Resting bcf' ∧
          (FutureBuffer.height block = bcf.height →
            bcf.height < bcf'.height) := by
  rw [hFollows.arrive_eq hResting hValid hTest hMem]
  have hClean := hFollows.clean.1
  by_cases hOld : FutureBuffer.height block < bcf.height
  · simp only [if_pos hOld]
    rcases hClean.settle nid hValid hTest
      (Nat.lt_succ_self _) with
      ⟨bcf', hSettle, hAfter, hKeeps, hRest⟩
    exact
      ⟨bcf', hSettle, hAfter,
        hFollows.keeps_clean.trans hKeeps, hRest,
        fun h => by omega⟩
  by_cases hNow : FutureBuffer.height block = bcf.height
  · simp only [if_neg hOld, if_pos hNow]
    have hAccept :
        Follows cfg chain
          (bcf.clean.generatepayback cfg nid block) := by
      refine ⟨hClean.toOnChain.accept hValid hMem hNow, ?_⟩
      rw [BCF.generatepayback_height,
        BCF.generatepayback_futurebuffer]
      exact
        { hClean.tidy with
          empty := fun h => by
            have hLt := hClean.tidy.empty h
            push_cast
            omega }
    have hKeeps :
        Keeps bcf
          (bcf.clean.generatepayback cfg nid block) := by
      refine ⟨?_, ?_⟩
      · rw [BCF.generatepayback_height]
        exact Nat.le_succ _
      · intro other hHigh hVisible
        rw [BCF.generatepayback_height] at hHigh
        rw [BCF.generatepayback_futurebuffer]
        push_cast at hHigh
        exact
          hFollows.keeps_clean.2 other
            (by
              change (bcf.height : Int) ≤ _
              change (bcf.height : Int) + 1 ≤ _ at hHigh
              omega)
            hVisible
    rcases hAccept.settle nid hValid hTest
      (Nat.lt_succ_self _) with
      ⟨bcf', hSettle, hAfter, hKeeps', hRest⟩
    refine
      ⟨bcf', hSettle, hAfter, hKeeps.trans hKeeps', hRest,
        fun _ => ?_⟩
    have hLe := hKeeps'.1
    rw [BCF.generatepayback_height] at hLe
    exact hLe
  · simp only [if_neg hOld, if_neg hNow]
    have hEarly :
        (bcf.height : Int) < FutureBuffer.height block := by
      omega
    have hPut := hClean.tidy.put hMem hEarly
    have hAfter :
        Follows cfg chain
          { bcf.clean with
            futurebuffer :=
              bcf.clean.futurebuffer.put block } :=
      ⟨hClean.toOnChain.withBuffer _, hPut.1⟩
    have hKeeps :
        Keeps bcf
          { bcf.clean with
            futurebuffer :=
              bcf.clean.futurebuffer.put block } :=
      ⟨Nat.le_refl _, fun other hHigh hVisible =>
        hClean.tidy.visible_put
          (hFollows.keeps_clean.2 other hHigh hVisible)⟩
    rcases hAfter.settle nid hValid hTest
      (Nat.lt_succ_self _) with
      ⟨bcf', hSettle, hEnd, hKeeps', hRest⟩
    exact
      ⟨bcf', hSettle, hEnd, hKeeps.trans hKeeps', hRest,
        fun h => absurd h hNow⟩

/- A visible block would have been taken. -/
theorem Resting.not_visible
    (hResting : Resting bcf)
    (hHeight : FutureBuffer.height block ≤ bcf.height) :
    ¬ Visible bcf.futurebuffer block := by
  intro hVisible
  have hLt := hResting (List.ne_nil_of_mem hVisible.1)
  have hLe := hVisible.2
  omega

/- An early block goes into the buffer and nothing else. -/
theorem Follows.arrive_early
    (hFollows : Follows cfg chain bcf)
    (hResting : Resting bcf)
    (hValid : ValidChain cfg chain)
    (hTest : cfg.testmode = true)
    (hMem : block ∈ chain)
    (hEarly : bcf.height < FutureBuffer.height block) :
    bcf.arrive cfg nid block =
      some
        { bcf.clean with
          futurebuffer :=
            bcf.clean.futurebuffer.put block } := by
  have hClean := hFollows.clean
  have hPut := hClean.1.tidy.put hMem hEarly
  have hRest := hClean.2 (hResting.clean hFollows)
  rw [hFollows.arrive_eq hResting hValid hTest hMem]
  simp only [if_neg (not_lt_of_gt hEarly),
    if_neg (Int.ne_of_gt hEarly)]
  apply Resting.settle
  · intro _
    change
      (bcf.height : Int) <
        (bcf.clean.futurebuffer.put block).lowwest
    rw [hPut.2.2]
    split
    · exact hEarly
    · rename_i hNe
      exact hRest hNe
  · exact hPut.2.1

/- An early block that is not shadowed will be found. -/
theorem Follows.visible_early
    (hFollows : Follows cfg chain bcf)
    (hResting : Resting bcf)
    (hValid : ValidChain cfg chain)
    (hMem : block ∈ chain)
    (hEarly : bcf.height < FutureBuffer.height block)
    (hNot : ¬ bcf.shadows block) :
    Visible (bcf.clean.futurebuffer.put block) block := by
  have hClean := hFollows.clean
  have hTidy := hClean.1.tidy
  have hPut := hTidy.put hMem hEarly
  constructor
  · by_cases hNil : bcf.clean.futurebuffer.bcblocks = []
    · unfold FutureBuffer.put
      rw [hNil]
      exact List.mem_singleton_self _
    · rw [FutureBuffer.put_eq hTidy.sorted hNil]
      rcases SortedBuffer.mem_insertNew_self_key
        FutureBuffer.height block
        bcf.clean.futurebuffer.bcblocks with
        ⟨z, hz, hKey⟩
      have hIn : z ∈ chain := by
        rcases SortedBuffer.mem_of_mem_insertNew hz with
          rfl | hOld
        · exact hMem
        · exact (hTidy.mem z hOld).1
      rw [hValid.eq_of_height hIn hMem hKey] at hz
      exact hz
  · rw [hPut.2.2]
    split
    · exact Int.le_refl _
    · rename_i hNe
      have hOld : bcf.futurebuffer.bcblocks ≠ [] := by
        intro hNil
        apply hNe
        apply List.eq_nil_iff_forall_not_mem.mpr
        intro other hOther
        have hIn := mem_of_mem_clean hOther
        rw [hNil] at hIn
        cases hIn
      rw [(hResting.clean_eq hOld).1]
      by_contra hLt
      exact hNot ⟨hEarly, hOld, by omega⟩

/-
  The follower has not got beyond height `m` and the cached
  lowest height is above it.
-/
def Blocked (bcf : BCF) (m : Int) : Prop :=
  bcf.height ≤ m ∧ bcf.futurebuffer.bcblocks ≠ [] ∧
    m < bcf.futurebuffer.lowwest

/- While a block is missing, later ones only wait. -/
theorem Follows.arrive_blocked
    {m : Int} {bcf' : BCF}
    (hFollows : Follows cfg chain bcf)
    (hResting : Resting bcf)
    (hValid : ValidChain cfg chain)
    (hTest : cfg.testmode = true)
    (hMem : block ∈ chain)
    (hBlocked : Blocked bcf m)
    (hNot :
      ¬ (FutureBuffer.height block = m ∧ bcf.height = m))
    (hArrive : bcf.arrive cfg nid block = some bcf') :
    Blocked bcf' m := by
  have hEq := (hResting.clean_eq hBlocked.2.1).1
  by_cases hEarly :
      bcf.height < FutureBuffer.height block
  · have hPut := hFollows.tidy.put hMem hEarly
    rw [hFollows.arrive_early hResting hValid hTest hMem
      hEarly, hEq] at hArrive
    cases hArrive
    refine ⟨hBlocked.1, hPut.2.1, ?_⟩
    change m < (bcf.futurebuffer.put block).lowwest
    rw [hPut.2.2, if_neg hBlocked.2.1]
    exact hBlocked.2.2
  rw [hFollows.arrive_eq hResting hValid hTest hMem,
    hEq] at hArrive
  by_cases hNow : FutureBuffer.height block = bcf.height
  · have hAbove : (bcf.height : Int) + 1 ≤ m := by
      have hLe := hBlocked.1
      omega
    have hNext :
        Blocked (bcf.generatepayback cfg nid block) m := by
      refine ⟨?_, ?_, ?_⟩
      · rw [BCF.generatepayback_height]
        push_cast
        exact hAbove
      · rw [BCF.generatepayback_futurebuffer]
        exact hBlocked.2.1
      · rw [BCF.generatepayback_futurebuffer]
        exact hBlocked.2.2
    simp only [if_neg (not_lt_of_ge hNow.ge),
      if_pos hNow] at hArrive
    rw [Resting.settle
      (fun _ => lt_of_le_of_lt hNext.1 hNext.2.2)
      hNext.2.1] at hArrive
    cases hArrive
    exact hNext
  · simp only [if_pos (show
      FutureBuffer.height block < bcf.height by omega)]
      at hArrive
    rw [hResting.settle hBlocked.2.1] at hArrive
    cases hArrive
    exact hBlocked

end Follows

end CertifiedBroadcast

end Jumbo

------------------------------------------------------------
-- Insensitivity to the Order
------------------------------------------------------------

namespace Jumbo

namespace CertifiedBroadcast

open Protocol
open Struct

variable {n : Nat}

/- Output and height are those of in-order arrival. -/
def SameAsInOrder
    (cfg : Config n) (nid : Fin n)
    (chain arrivals : List BCBlock) : Prop :=
  ∃ bcf bcf',
    BCF.process cfg nid arrivals = some bcf ∧
      BCF.process cfg nid chain = some bcf' ∧
        bcf.output = bcf'.output ∧ bcf.height = bcf'.height

/-
  Every block that is shadowed when it arrives arrives again
  later, while it is the next one.
-/
def ComesAgain
    (cfg : Config n) (nid : Fin n)
    (arrivals : List BCBlock) : Prop :=
  ∀ i block bcf, arrivals[i]? = some block →
    BCF.process cfg nid (arrivals.take i) = some bcf →
      bcf.shadows block →
        ∃ k bcf', i < k ∧ arrivals[k]? = some block ∧
          BCF.process cfg nid (arrivals.take k) = some bcf' ∧
            bcf'.height = FutureBuffer.height block

section Runs

variable {cfg : Config n} {nid : Fin n}
variable {chain arrivals : List BCBlock}

/- Reading one block more. -/
theorem process_append
    (blocks : List BCBlock) (block : BCBlock) :
    BCF.process cfg nid (blocks ++ [block]) =
      (BCF.process cfg nid blocks).bind fun bcf =>
        bcf.arrive cfg nid block := by
  unfold BCF.process
  rw [List.foldlM_append]
  simp [Option.bind_eq_bind]

/- Reading the next of the arrivals. -/
theorem process_take_succ
    {i : Nat} {block : BCBlock}
    (hBlock : arrivals[i]? = some block) :
    BCF.process cfg nid (arrivals.take (i + 1)) =
      (BCF.process cfg nid (arrivals.take i)).bind fun bcf =>
        bcf.arrive cfg nid block := by
  rw [List.take_add_one, hBlock]
  exact process_append _ block

variable (nid) in
/- The blocks of a chain never make a follower panic. -/
theorem process_follows
    (hValid : ValidChain cfg chain)
    (hTest : cfg.testmode = true)
    (hFrom : ∀ block ∈ arrivals, block ∈ chain) :
    ∃ bcf, BCF.process cfg nid arrivals = some bcf ∧
      Follows cfg chain bcf ∧ Resting bcf := by
  induction arrivals using List.reverseRecOn with
  | nil =>
      refine ⟨BCF.new, rfl, ⟨⟨?_, rfl, Nat.zero_le _⟩, ?_⟩, ?_⟩
      · constructor <;> simp [BCF.new, successions]
      · constructor <;>
          simp [BCF.new, SortedBuffer.Sorted]
      · exact fun h => absurd rfl h
  | append_singleton blocks block ih =>
      have hMem : block ∈ chain :=
        hFrom block
          (List.mem_append_right _
            (List.mem_singleton_self block))
      rcases ih fun b hb =>
        hFrom b (List.mem_append_left _ hb) with
        ⟨bcf, hProcess, hFollows, hResting⟩
      rcases hFollows.arrive nid hResting hValid
        hTest hMem with
        ⟨bcf', hArrive, hAfter, _, hRest, _⟩
      refine ⟨bcf', ?_, hAfter, hRest⟩
      rw [process_append, hProcess]
      exact hArrive

variable (nid) in
/-
  After any number of arrivals the follower is on the chain
  and at rest.
-/
theorem process_take_follows
    (hValid : ValidChain cfg chain)
    (hTest : cfg.testmode = true)
    (hFrom : ∀ block ∈ arrivals, block ∈ chain)
    (i : Nat) :
    ∃ bcf,
      BCF.process cfg nid (arrivals.take i) = some bcf ∧
        Follows cfg chain bcf ∧ Resting bcf :=
  process_follows nid hValid hTest fun block hMem =>
    hFrom block (List.mem_of_mem_take hMem)

/- One arrival, as a step from one prefix to the next. -/
theorem process_step
    {i : Nat} {block : BCBlock} {bcf : BCF}
    (hValid : ValidChain cfg chain)
    (hTest : cfg.testmode = true)
    (hFrom : ∀ block ∈ arrivals, block ∈ chain)
    (hBlock : arrivals[i]? = some block)
    (hProcess :
      BCF.process cfg nid (arrivals.take i) = some bcf) :
    ∃ bcf',
      BCF.process cfg nid (arrivals.take (i + 1)) =
          some bcf' ∧
        bcf.arrive cfg nid block = some bcf' ∧
          Keeps bcf bcf' ∧
            (FutureBuffer.height block = bcf.height →
              bcf.height < bcf'.height) := by
  rcases process_take_follows nid hValid hTest hFrom i with
    ⟨same, hSame, hFollows, hResting⟩
  rw [hProcess] at hSame
  cases hSame
  rcases hFollows.arrive nid hResting hValid hTest
    (hFrom block (List.mem_of_getElem? hBlock)) with
    ⟨bcf', hArrive, _, hKeeps, _, hNext⟩
  refine ⟨bcf', ?_, hArrive, hKeeps, hNext⟩
  rw [process_take_succ hBlock, hProcess]
  exact hArrive

/- From a prefix to a longer one. -/
theorem process_keeps
    {i j : Nat} {bcf bcf' : BCF}
    (hValid : ValidChain cfg chain)
    (hTest : cfg.testmode = true)
    (hFrom : ∀ block ∈ arrivals, block ∈ chain)
    (hLe : i ≤ j)
    (hFirst :
      BCF.process cfg nid (arrivals.take i) = some bcf)
    (hSecond :
      BCF.process cfg nid (arrivals.take j) = some bcf') :
    Keeps bcf bcf' := by
  induction j, hLe using Nat.le_induction generalizing bcf' with
  | base =>
      rw [hFirst] at hSecond
      cases hSecond
      exact ⟨Nat.le_refl _, fun _ _ h => h⟩
  | succ j hLe ih =>
      rcases process_take_follows nid hValid hTest hFrom j with
        ⟨mid, hMid, _, _⟩
      have hKeeps := ih hMid
      cases hBlock : arrivals[j]? with
      | none =>
          have hEnd := List.getElem?_eq_none_iff.mp hBlock
          rw [List.take_of_length_le (by omega)] at hSecond
          rw [List.take_of_length_le hEnd] at hMid
          rw [hMid] at hSecond
          cases hSecond
          exact hKeeps
      | some block =>
          rcases process_step hValid hTest hFrom hBlock hMid
            with ⟨next, hNext, _, hStep, _⟩
          rw [hNext] at hSecond
          cases hSecond
          exact hKeeps.trans hStep

/- A follower at the same height has put out the same. -/
theorem OnChain.output_eq
    {bcf bcf' : BCF}
    (hOn : OnChain cfg chain bcf)
    (hOn' : OnChain cfg chain bcf')
    (hHeight : bcf.height = bcf'.height) :
    bcf.output = bcf'.output := by
  rw [hOn.chained.output, hOn'.chained.output, hOn.accepted,
    hOn'.accepted, hHeight]

variable (nid) in
/- In order, each block is accepted when it arrives. -/
theorem process_in_order
    (hValid : ValidChain cfg chain)
    (hTest : cfg.testmode = true) :
    ∃ bcf, BCF.process cfg nid chain = some bcf ∧
      Follows cfg chain bcf ∧ bcf.height = chain.length := by
  have hPrefix :
      ∀ i ≤ chain.length,
        ∃ bcf,
          BCF.process cfg nid (chain.take i) = some bcf ∧
            i ≤ bcf.height := by
    intro i hLe
    induction i with
    | zero => exact ⟨BCF.new, rfl, Nat.zero_le _⟩
    | succ i ih =>
        rcases ih (by omega) with ⟨bcf, hProcess, hHeight⟩
        have hBlock : chain[i]? = some chain[i] :=
          List.getElem?_eq_getElem (by omega)
        rcases process_step hValid hTest (fun _ h => h)
          hBlock hProcess with
          ⟨bcf', hNext, _, hKeeps, hAccept⟩
        refine ⟨bcf', hNext, ?_⟩
        have hMono := hKeeps.1
        have hIndex := hValid.height i _ hBlock
        by_cases hEq : bcf.height = i
        · have hLess := hAccept (by omega)
          omega
        · omega
  rcases hPrefix chain.length (Nat.le_refl _) with
    ⟨bcf, hProcess, hHeight⟩
  rw [List.take_length] at hProcess
  rcases process_follows nid hValid hTest
    (fun block (h : block ∈ chain) => h) with
    ⟨same, hSame, hFollows, _⟩
  rw [hProcess] at hSame
  cases hSame
  have hLe := hFollows.le
  exact ⟨bcf, hProcess, hFollows, by omega⟩

/- A shadowed block holds the follower up. -/
theorem comesAgain_of_same
    (hValid : ValidChain cfg chain)
    (hTest : cfg.testmode = true)
    (hFrom : ∀ block ∈ arrivals, block ∈ chain)
    (hSame : SameAsInOrder cfg nid chain arrivals) :
    ComesAgain cfg nid arrivals := by
  intro i block bcf hBlock hProcess hShadows
  by_contra hNever
  push Not at hNever
  have hMem := hFrom block (List.mem_of_getElem? hBlock)
  -- the cached lowest height stays where it is
  have hBlocked :
      ∀ j, i ≤ j → ∃ bcf',
        BCF.process cfg nid (arrivals.take j) = some bcf' ∧
          Blocked bcf' (FutureBuffer.height block) := by
    intro j hLe
    induction j, hLe using Nat.le_induction with
    | base =>
        exact
          ⟨bcf, hProcess, hShadows.1.le, hShadows.2.1,
            hShadows.2.2⟩
    | succ j hLe ih =>
        rcases ih with ⟨mid, hMid, hStill⟩
        cases hNext : arrivals[j]? with
        | none =>
            have hEnd := List.getElem?_eq_none_iff.mp hNext
            rw [List.take_of_length_le hEnd] at hMid
            rw [List.take_of_length_le (by omega)]
            exact ⟨mid, hMid, hStill⟩
        | some next =>
            have hIn :=
              hFrom next (List.mem_of_getElem? hNext)
            rcases process_take_follows nid hValid hTest hFrom j with
              ⟨same, hMid', hFollows, hResting⟩
            rw [hMid] at hMid'
            cases hMid'
            rcases process_step hValid hTest hFrom hNext hMid
              with ⟨after, hAfter, hArrive, _⟩
            refine
              ⟨after, hAfter,
                hFollows.arrive_blocked hResting hValid hTest
                  hIn hStill ?_ hArrive⟩
            rintro ⟨hHeight, hTurn⟩
            have hEq :=
              hValid.eq_of_height hIn hMem hHeight
            subst hEq
            by_cases hFirst : j = i
            · subst hFirst
              rw [hProcess] at hMid
              cases hMid
              have hEarly := hShadows.1
              omega
            · exact
                hNever j mid (by omega) hNext hMid hTurn
  rcases hSame with
    ⟨last, inOrder, hLast, hInOrder, _, hHeight⟩
  rcases process_in_order nid hValid hTest with
    ⟨same, hSame, _, hFull⟩
  rw [hInOrder] at hSame
  cases hSame
  have hLength := (List.getElem?_eq_some_iff.mp hBlock).1
  rcases hBlocked arrivals.length hLength.le with
    ⟨same, hSame, hStill⟩
  rw [List.take_length, hLast] at hSame
  cases hSame
  rcases List.getElem?_of_mem hMem with ⟨m, hm⟩
  have hIndex := hValid.height m block hm
  have hLt := (List.getElem?_eq_some_iff.mp hm).1
  have hLe := hStill.1
  omega

/- Without such a block every one is found in its turn. -/
theorem same_of_comesAgain
    (hValid : ValidChain cfg chain)
    (hTest : cfg.testmode = true)
    (hFrom : ∀ block ∈ arrivals, block ∈ chain)
    (hAll : ∀ block ∈ chain, block ∈ arrivals)
    (hAgain : ComesAgain cfg nid arrivals) :
    SameAsInOrder cfg nid chain arrivals := by
  rcases process_in_order nid hValid hTest with
    ⟨inOrder, hInOrder, hFollows', hFull⟩
  rcases process_follows nid hValid hTest hFrom with
    ⟨last, hLast, hFollows, hResting⟩
  have hEnd :
      BCF.process cfg nid (arrivals.take arrivals.length) =
        some last := by
    rw [List.take_length]
    exact hLast
  -- the next block would have moved the follower on
  have hNever :
      ∀ i block bcf, arrivals[i]? = some block →
        BCF.process cfg nid (arrivals.take i) = some bcf →
          FutureBuffer.height block = last.height →
            bcf.height ≠ FutureBuffer.height block := by
    intro i block bcf hBlock hProcess hNext hEq
    have hLt := (List.getElem?_eq_some_iff.mp hBlock).1
    rcases process_step hValid hTest hFrom hBlock hProcess with
      ⟨bcf', hAfter, _, _, hAccept⟩
    have hLess := hAccept hEq.symm
    have hKeeps :=
      process_keeps hValid hTest hFrom hLt hAfter hEnd
    have hMono := hKeeps.1
    omega
  have hHeight : last.height = chain.length := by
    by_contra hNe
    have hLe := hFollows.le
    have hLt : last.height < chain.length := by omega
    have hChain : chain[last.height]? = some chain[last.height] :=
      List.getElem?_eq_getElem hLt
    generalize chain[last.height] = block at hChain
    have hNext := hValid.height _ block hChain
    have hMem := List.mem_of_getElem? hChain
    rcases List.getElem?_of_mem (hAll block hMem) with
      ⟨i, hBlock⟩
    have hIndex := (List.getElem?_eq_some_iff.mp hBlock).1
    rcases process_take_follows nid hValid hTest hFrom i with
      ⟨bcf, hProcess, hBefore, hRest⟩
    have hMono :=
      (process_keeps hValid hTest hFrom hIndex.le hProcess
        hEnd).1
    have hTurn := hNever i block bcf hBlock hProcess hNext
    have hEarly : bcf.height < FutureBuffer.height block := by
      omega
    have hNot : ¬ bcf.shadows block := by
      intro hShadows
      rcases hAgain i block bcf hBlock hProcess hShadows with
        ⟨k, bcf', _, hBlock', hProcess', hTurn'⟩
      exact hNever k block bcf' hBlock' hProcess' hNext hTurn'
    rcases process_step hValid hTest hFrom hBlock hProcess with
      ⟨after, hAfter, hArrive, _, _⟩
    have hVisible :=
      hBefore.visible_early hRest hValid hMem hEarly hNot
    rw [hBefore.arrive_early hRest hValid hTest hMem
      hEarly] at hArrive
    cases hArrive
    have hKeeps :=
      process_keeps hValid hTest hFrom hIndex hAfter hEnd
    exact hResting.not_visible hNext.le
      (hKeeps.2 block hNext.ge hVisible)
  refine ⟨last, inOrder, hLast, hInOrder, ?_, by omega⟩
  exact
    hFollows.toOnChain.output_eq hFollows'.toOnChain
      (by omega)

/-
  The follower ends where in-order arrival ends exactly when
  every shadowed block comes again in its turn.
-/
theorem order_insensitive_iff
    (hValid : ValidChain cfg chain)
    (hTest : cfg.testmode = true)
    (hFrom : ∀ block ∈ arrivals, block ∈ chain)
    (hAll : ∀ block ∈ chain, block ∈ arrivals) :
    SameAsInOrder cfg nid chain arrivals ↔
      ComesAgain cfg nid arrivals :=
  ⟨comesAgain_of_same hValid hTest hFrom,
    same_of_comesAgain hValid hTest hFrom hAll⟩

end Runs

------------------------------------------------------------
-- Three Early Blocks
------------------------------------------------------------

/- The first three blocks of a leader. -/
def lenientLeader : BCL :=
  let sign (height id : Int32) : LeaderAction :=
    .receive
      ⟨height, intToBytes height, ⟨id, List.replicate 64 0⟩⟩
  (leader lenientConfig).drive (fun _ _ => true) BCL.new
    [.propose [1] 0, sign 0 2, sign 0 3,
      .propose [2] 0, sign 1 3, sign 1 4,
      .propose [3] 0]

/- The blocks that the leader has sent. -/
def lenientChain : List BCBlock :=
  lenientLeader.sent

/- They are a valid chain. -/
theorem lenientChain_valid :
    ValidChain lenientConfig lenientChain :=
  (led (Machine.reachable_drive _ _)).validChain
    (fun _ => rfl) (by decide +kernel)

/- Block 2 comes early and is found after block 1. -/
def earlyBlock : List BCBlock :=
  [0, 2, 1].filterMap fun i : Nat => lenientChain[i]?

/- The order does not matter there. -/
theorem order_insensitive_iff_early :
    SameAsInOrder lenientConfig 1 lenientChain earlyBlock ∧
      ComesAgain lenientConfig 1 earlyBlock := by
  have hSame :
      SameAsInOrder lenientConfig 1 lenientChain
        earlyBlock := by
    rcases process_in_order 1 lenientChain_valid rfl
      with ⟨inOrder, hInOrder, _⟩
    have hEnds :
        (BCF.process lenientConfig 1 earlyBlock).map
            (fun bcf => (bcf.output, bcf.height)) =
          (BCF.process lenientConfig 1 lenientChain).map
            fun bcf => (bcf.output, bcf.height) := by
      decide +kernel
    rw [hInOrder] at hEnds
    rcases Option.map_eq_some_iff.mp hEnds with
      ⟨last, hLast, hEq⟩
    injection hEq with hOutput hHeight
    exact
      ⟨last, inOrder, hLast, hInOrder, hOutput, hHeight⟩
  exact
    ⟨hSame,
      (order_insensitive_iff lenientChain_valid rfl
        (by decide +kernel) (by decide +kernel)).mp hSame⟩

/- Block 1 is put below block 2 and not found any more. -/
theorem order_matters :
    (leader lenientConfig).Reachable lenientLeader ∧
      ValidChain lenientConfig lenientLeader.sent ∧
        ∃ arrivals, arrivals.Perm lenientLeader.sent ∧
          ¬ SameAsInOrder lenientConfig 1 lenientLeader.sent
            arrivals := by
  refine
    ⟨Machine.reachable_drive _ _, lenientChain_valid,
      lenientChain.reverse, List.reverse_perm _, ?_⟩
  rintro ⟨bcf, bcf', hProcess, hInOrder, _, hHeight⟩
  have hStuck :
      (BCF.process lenientConfig 1 lenientChain.reverse).map
        (·.height) = some 1 := by
    decide +kernel
  have hFull :
      (BCF.process lenientConfig 1 lenientLeader.sent).map
        (·.height) = some 3 := by
    decide +kernel
  rw [hProcess] at hStuck
  rw [hInOrder] at hFull
  injection hStuck with hStuck
  injection hFull with hFull
  dsimp only at hStuck hFull
  omega

end CertifiedBroadcast

end Jumbo
