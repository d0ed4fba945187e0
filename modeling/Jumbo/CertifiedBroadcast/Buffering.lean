import Jumbo.CertifiedBroadcast.Basic

/-
  The future buffer of a follower over its operations.

  A block put below the first one becomes the first one, but
  the cached lowest height stays: the loop compares with the
  buffer it has just rebuilt. A block at a height that is
  taken is dropped.

  Main declarations:
    * `Buffering.perform`
    * `Buffering.Kept`
    * `Buffering.Fits`
    * `Buffering.kept_iff`
-/

------------------------------------------------------------
-- Operations
------------------------------------------------------------

namespace Jumbo

namespace CertifiedBroadcast

open Protocol
open Struct

/- What the follower does with its buffer. -/
inductive BufferOp where
| put (block : BCBlock)
| getlowwest

/-
  `waiting` are the blocks that have been put and not taken,
  whether the buffer stores them or not.
-/
structure Buffering where
  futurebuffer : FutureBuffer
  waiting : List BCBlock

namespace Buffering

open FutureBuffer (height)

/- The buffer is empty. -/
def start : Buffering :=
  ⟨⟨-1, []⟩, []⟩

/- What an operation does, and which blocks should wait. -/
def perform (b : Buffering) : BufferOp → Buffering
| .put block =>
    ⟨b.futurebuffer.put block, b.waiting ++ [block]⟩
| .getlowwest =>
    let (taken, futurebuffer) := b.futurebuffer.getlowwest
    ⟨futurebuffer,
      b.waiting.filter fun block => some block ≠ taken⟩

/- Operations one after another. -/
def run (ops : List BufferOp) : Buffering :=
  ops.foldl perform start

/- One operation more. -/
theorem run_append (ops : List BufferOp) (op : BufferOp) :
    run (ops ++ [op]) = (run ops).perform op := by
  unfold run
  rw [List.foldl_append]
  rfl

------------------------------------------------------------
-- The Invariant
------------------------------------------------------------

/-
  All blocks that wait are stored, in order, and the noted
  height is that of the first.
-/
structure Kept (b : Buffering) : Prop where
  sorted : SortedBuffer.Sorted height b.futurebuffer.bcblocks
  cached :
    ∀ first ∈ b.futurebuffer.bcblocks.head?,
      b.futurebuffer.lowwest = height first
  stored :
    ∀ block ∈ b.waiting, block ∈ b.futurebuffer.bcblocks

/-
  Nothing is put in front of what is stored, and nothing at
  the height of another block.
-/
def Fits (b : Buffering) : BufferOp → Prop
| .put block =>
    (∀ first ∈ b.futurebuffer.bcblocks.head?,
      height first ≤ height block) ∧
      ∀ other ∈ b.futurebuffer.bcblocks,
        height other = height block → other = block
| .getlowwest => True

theorem kept_start : Kept start where
  sorted := List.Pairwise.nil
  cached := by
    intro first hFirst
    cases hFirst
  stored := List.forall_mem_nil _

section Perform

variable {b : Buffering} {block : BCBlock}

/- The first block sets the noted height. -/
theorem perform_put_nil
    (hNil : b.futurebuffer.bcblocks = []) :
    b.perform (.put block) =
      ⟨⟨height block, [block]⟩, b.waiting ++ [block]⟩ := by
  unfold perform FutureBuffer.put
  rw [hNil]

/- A further block leaves the noted height as it is. -/
theorem perform_put
    (hSorted :
      SortedBuffer.Sorted height b.futurebuffer.bcblocks)
    (hNe : b.futurebuffer.bcblocks ≠ []) :
    b.perform (.put block) =
      ⟨⟨b.futurebuffer.lowwest,
          SortedBuffer.insertNew height block
            b.futurebuffer.bcblocks⟩,
        b.waiting ++ [block]⟩ := by
  unfold perform
  dsimp only
  rw [FutureBuffer.put_eq hSorted hNe]

/- The order of the buffer is kept by every operation. -/
theorem perform_sorted
    (hSorted :
      SortedBuffer.Sorted height b.futurebuffer.bcblocks)
    (op : BufferOp) :
    SortedBuffer.Sorted height
      (b.perform op).futurebuffer.bcblocks := by
  cases op with
  | put block =>
      by_cases hNil : b.futurebuffer.bcblocks = []
      · rw [perform_put_nil hNil]
        exact List.pairwise_singleton _ _
      · rw [perform_put hSorted hNil]
        exact SortedBuffer.insertNew_sorted hSorted
  | getlowwest =>
      rcases b with ⟨⟨lowwest, bcblocks⟩, waiting⟩
      cases bcblocks with
      | nil => exact List.Pairwise.nil
      | cons first rest =>
          exact (List.pairwise_cons.mp hSorted).2

/- Taking the first block out refreshes the cache. -/
theorem Kept.getlowwest
    (hKept : Kept b) :
    Kept (b.perform .getlowwest) := by
  refine ⟨perform_sorted hKept.sorted _, ?_, ?_⟩
  · rcases b with ⟨⟨lowwest, bcblocks⟩, waiting⟩
    intro next hNext
    cases bcblocks with
    | nil => cases hNext
    | cons first rest =>
        cases rest with
        | nil => cases hNext
        | cons second rest =>
            cases hNext
            rfl
  · rcases b with ⟨⟨lowwest, bcblocks⟩, waiting⟩
    intro block hWaits
    rcases List.mem_filter.mp hWaits with ⟨hOld, hOther⟩
    have hIn := hKept.stored block hOld
    cases bcblocks with
    | nil => cases hIn
    | cons first rest =>
        rcases List.mem_cons.mp hIn with rfl | hRest
        · exact absurd rfl (of_decide_eq_true hOther)
        · exact hRest

/- A block that fits leaves the first one in its place. -/
theorem Kept.put
    (hKept : Kept b) (hFits : Fits b (.put block)) :
    Kept (b.perform (.put block)) := by
  refine ⟨perform_sorted hKept.sorted _, ?_, ?_⟩
  · cases hBlocks : b.futurebuffer.bcblocks with
    | nil =>
        rw [perform_put_nil hBlocks]
        intro first hFirst
        cases hFirst
        rfl
    | cons old rest =>
        have hOld := hFits.1 old (by rw [hBlocks]; rfl)
        rw [perform_put hKept.sorted
          (by rw [hBlocks]; exact List.cons_ne_nil _ _)]
        rw [hBlocks]
        unfold SortedBuffer.insertNew
        rw [if_neg (not_lt_of_ge hOld)]
        intro first hFirst
        have hFirst : first = old := by
          split at hFirst <;> cases hFirst <;> rfl
        rw [hFirst]
        exact hKept.cached old (by rw [hBlocks]; rfl)
  · intro other hWaits
    by_cases hNil : b.futurebuffer.bcblocks = []
    · rw [perform_put_nil hNil] at hWaits ⊢
      rcases List.mem_append.mp hWaits with hOld | hNew
      · have hIn := hKept.stored other hOld
        rw [hNil] at hIn
        cases hIn
      · exact hNew
    · rw [perform_put hKept.sorted hNil] at hWaits ⊢
      rcases List.mem_append.mp hWaits with hOld | hNew
      · exact
          SortedBuffer.mem_insertNew_of_mem
            (hKept.stored other hOld)
      · cases List.mem_singleton.mp hNew
        rcases SortedBuffer.mem_insertNew_self_key height
          block b.futurebuffer.bcblocks with
          ⟨same, hMem, hKey⟩
        rcases SortedBuffer.mem_of_mem_insertNew hMem with
          rfl | hIn
        · exact hMem
        · rw [hFits.2 same hIn hKey] at hMem
          exact hMem

/- What is kept after a block was put shows that it fitted. -/
theorem Kept.fits_of_put
    (hKept : Kept b)
    (hAfter : Kept (b.perform (.put block))) :
    Fits b (.put block) := by
  constructor
  · intro first hFirst
    rcases List.head?_eq_some_iff.mp hFirst with
      ⟨rest, hBlocks⟩
    have hNe : b.futurebuffer.bcblocks ≠ [] := by
      rw [hBlocks]
      exact List.cons_ne_nil _ _
    by_contra hFront
    have hCached := hAfter.cached block
    rw [perform_put hKept.sorted hNe, hBlocks] at hCached
    unfold SortedBuffer.insertNew at hCached
    rw [if_pos (lt_of_not_ge hFront)] at hCached
    have hLow : b.futurebuffer.lowwest = height block :=
      hCached rfl
    rw [hKept.cached first hFirst] at hLow
    exact hFront hLow.le
  · intro other hMem hHeight
    have hNe := List.ne_nil_of_mem hMem
    have hStored :=
      hAfter.stored block
        (List.mem_append_right _ (List.mem_singleton_self _))
    rw [perform_put hKept.sorted hNe] at hStored
    dsimp only at hStored
    rw [SortedBuffer.insertNew_of_key_mem hKept.sorted
      ⟨other, hMem, hHeight⟩] at hStored
    exact hKept.sorted.eq_of_key_eq hMem hStored hHeight

end Perform

------------------------------------------------------------
-- Runs
------------------------------------------------------------

/- The stored blocks are in order after any operations. -/
theorem run_sorted (ops : List BufferOp) :
    SortedBuffer.Sorted height
      (run ops).futurebuffer.bcblocks := by
  induction ops using List.reverseRecOn with
  | nil => exact List.Pairwise.nil
  | append_singleton ops op ih =>
      rw [run_append]
      exact perform_sorted ih op

/- The buffer is kept as long as every operation fits. -/
theorem kept_of_fits
    {ops : List BufferOp}
    (hFits :
      ∀ done op, done ++ [op] <+: ops → Fits (run done) op) :
    Kept (run ops) := by
  induction ops using List.reverseRecOn with
  | nil => exact kept_start
  | append_singleton ops op ih =>
      have hBefore :=
        ih fun done op hPrefix =>
          hFits done op
            (hPrefix.trans (List.prefix_append ops _))
      have hOp := hFits ops op (List.prefix_refl _)
      rw [run_append]
      cases op with
      | put block => exact hBefore.put hOp
      | getlowwest => exact hBefore.getlowwest

/-
  The order is kept by every run. All of the invariant is
  kept at every moment exactly when every block that is put
  fits.
-/
theorem kept_iff (ops : List BufferOp) :
    SortedBuffer.Sorted height
        (run ops).futurebuffer.bcblocks ∧
      ((∀ done, done <+: ops → Kept (run done)) ↔
        ∀ done op, done ++ [op] <+: ops →
          Fits (run done) op) := by
  refine ⟨run_sorted ops, ?_, ?_⟩
  · intro hKept done op hPrefix
    have hBefore :=
      hKept done ((List.prefix_append done [op]).trans hPrefix)
    have hAfter := hKept (done ++ [op]) hPrefix
    rw [run_append] at hAfter
    cases op with
    | put block => exact hBefore.fits_of_put hAfter
    | getlowwest => trivial
  · intro hFits done hPrefix
    exact
      kept_of_fits fun done' op hPrefix' =>
        hFits done' op (hPrefix'.trans hPrefix)

/- A block that has a height and nothing else. -/
def blockOf (h : Int32) : BCBlock where
  rawBC := ⟨[], h, [], 0, 0, 0, 0⟩
  sign := none
  batchSigns := none

/- The second block is the first one stored. -/
theorem not_kept :
    ¬ ∀ ops : List BufferOp, Kept (run ops) := by
  intro hAll
  have hCached :=
    (hAll [.put (blockOf 5), .put (blockOf 3)]).cached
      (blockOf 3)
  have hStale :
      (run [.put (blockOf 5), .put (blockOf 3)]).futurebuffer =
        ⟨5, [blockOf 3, blockOf 5]⟩ :=
    rfl
  rw [hStale] at hCached
  exact absurd (hCached rfl) (by decide)

end Buffering

end CertifiedBroadcast

end Jumbo
