import Jumbo.Lib.Machine
import Jumbo.CertifiedBroadcast.Basic

/-
  What one follower accepts and puts out.

  A step of the follower only moves blocks in its buffer or
  accepts one block: the next one of the chain, signed by
  the leader and with a certificate for the last one. What
  is put out is the chain accepted so far, less the blocks
  whose successor has no root.

  Main declarations:
    * `follower`
    * `Acceptable`
    * `BCF.Step`
    * `exec_step`
    * `Chained`
    * `output_contiguous_certified`
-/

------------------------------------------------------------
-- Steps
------------------------------------------------------------

namespace Jumbo

namespace CertifiedBroadcast

open Protocol
open Struct

/- What the main loop of the follower can do next. -/
inductive FollowerAction where
| next
| receive (block : BCBlock)
| called (i : Nat)

variable {n : Nat}

/- One step of the follower. -/
def BCF.exec
    (cfg : Config n) (nid : Fin n) (bcf : BCF) :
    FollowerAction → Option BCF
| .next => bcf.next cfg nid
| .receive block => bcf.receive cfg nid block
| .called i => bcf.called i

/- One follower that gets any messages at all. -/
def follower (cfg : Config n) (nid : Fin n) :
    Machine BCF FollowerAction where
  init := BCF.new
  exec := BCF.exec cfg nid

/- What is checked before a block is buffered. -/
structure Legal (cfg : Config n) (block : BCBlock) : Prop where
  leader : block.rawBC.leader = cfg.leader
  k : block.rawBC.k = cfg.sid
  signed : BCF.checkleadersign cfg block = true
  certified : BCF.checkcomsigns cfg block = true

/- What is known of a block when it is accepted. -/
structure Acceptable
    (cfg : Config n) (bcf : BCF) (block : BCBlock) : Prop
    extends Legal cfg block where
  height : block.rawBC.height = bcf.int32height
  linked : bcf.checkblockid block = true

/- Blocks in the hands of the follower are legal. -/
structure Buffered (cfg : Config n) (bcf : BCF) : Prop where
  buffer :
    ∀ block ∈ bcf.futurebuffer.bcblocks, Legal cfg block
  calling : ∀ block ∈ bcf.calling, Legal cfg block

/- The block that an iteration is about. -/
def BCF.handled (bcf : BCF) :
    FollowerAction → Option BCBlock
| .next => bcf.clean.futurebuffer.getlowwest.1
| .receive block => some block
| .called _ => none

/- The two kinds of steps, with the block handled. -/
inductive BCF.Step
    (cfg : Config n) (nid : Fin n) (bcf : BCF) :
    Option BCBlock → BCF → Prop
| keep
    (handled : Option BCBlock)
    (futurebuffer : FutureBuffer) (calling : List BCBlock) :
    Step cfg nid bcf handled
      { bcf with
        futurebuffer := futurebuffer
        calling := calling }
| accept
    (futurebuffer : FutureBuffer) (block : BCBlock)
    (hAccept : Acceptable cfg bcf block) :
    Step cfg nid bcf (some block)
      (({ bcf with futurebuffer := futurebuffer } :
          BCF).generatepayback cfg nid block)

section Buffer

/- Cleaning adds no block. -/
theorem mem_of_mem_clean
    {bound : Nat} {lowwest : Int} {bcblocks : List BCBlock}
    {block : BCBlock}
    (hMem :
      block ∈
        (FutureBuffer.clean bound lowwest bcblocks).bcblocks) :
    block ∈ bcblocks := by
  induction bcblocks generalizing lowwest with
  | nil =>
      unfold FutureBuffer.clean at hMem
      split at hMem <;> exact hMem
  | cons first bcblocks ih =>
      unfold FutureBuffer.clean at hMem
      split at hMem
      · exact List.mem_cons_of_mem _ (ih hMem)
      · exact hMem

/- Only the new block is added. -/
theorem mem_of_mem_put
    {fb : FutureBuffer} {block block' : BCBlock}
    (hMem : block' ∈ (fb.put block).bcblocks) :
    block' = block ∨ block' ∈ fb.bcblocks := by
  unfold FutureBuffer.put at hMem
  split at hMem
  · exact .inl (List.mem_singleton.mp hMem)
  · have hLoop :
        block' ∈
          SortedBuffer.insertLoop FutureBuffer.height block
            false [] fb.bcblocks := by
      dsimp only at hMem
      split at hMem
      · exact hMem
      · exact hMem
    rcases SortedBuffer.mem_of_mem_insertLoop hLoop with
      h | h | h
    · exact .inl h
    · cases h
    · exact .inr h

/- The block taken out was in the buffer. -/
theorem getlowwest_eq_some
    {fb fb' : FutureBuffer} {block : BCBlock}
    (hGet : fb.getlowwest = (some block, fb')) :
    fb.bcblocks = block :: fb'.bcblocks := by
  unfold FutureBuffer.getlowwest at hGet
  split at hGet
  · cases hGet
  · rename_i hEq
    cases hGet
    exact hEq

end Buffer

section Steps

variable {cfg : Config n} {nid : Fin n} {bcf bcf' : BCF}
variable {block : BCBlock}

/- The blocks that remain have been checked. -/
theorem Buffered.clean
    (hBuffered : Buffered cfg bcf) :
    Buffered cfg bcf.clean :=
  ⟨fun block hMem =>
    hBuffered.buffer block (mem_of_mem_clean hMem),
    hBuffered.calling⟩

/- Accepting a block leaves the buffer alone. -/
theorem Buffered.generatepayback
    (hBuffered : Buffered cfg bcf) :
    Buffered cfg (bcf.generatepayback cfg nid block) := by
  constructor
  · rw [BCF.generatepayback_futurebuffer]
    exact hBuffered.buffer
  · rw [BCF.generatepayback_calling]
    exact hBuffered.calling

/- A block that was checked may be stored. -/
theorem Buffered.put
    {calling : List BCBlock}
    (hBuffered : Buffered cfg bcf)
    (hLegal : Legal cfg block)
    (hCalling : ∀ block ∈ calling, block ∈ bcf.calling) :
    Buffered cfg
      { bcf with
        calling := calling
        futurebuffer := bcf.futurebuffer.put block } := by
  refine ⟨?_, fun block hMem =>
    hBuffered.calling block (hCalling block hMem)⟩
  intro block' hMem
  rcases mem_of_mem_put hMem with rfl | hMem
  · exact hLegal
  · exact hBuffered.buffer block' hMem

/- The checks of the fresh path are those of a legal block. -/
theorem acceptable_of_check
    (hHeight : block.rawBC.height = bcf.int32height)
    (hLeader : block.rawBC.leader = cfg.leader)
    (hSid : block.rawBC.k = cfg.sid)
    (hCheck : bcf.check_bcblock cfg nid block = some bcf') :
    Acceptable cfg bcf block ∧
      bcf' = bcf.generatepayback cfg nid block := by
  unfold BCF.check_bcblock at hCheck
  rcases Option.ite_none_right_eq_some.mp hCheck with
    ⟨hPass, hEq⟩
  cases hEq
  simp only [Bool.and_eq_true, Bool.or_eq_true,
    decide_eq_true_eq] at hPass
  rcases hPass with ⟨hCase, hSigned⟩
  refine ⟨⟨⟨hLeader, hSid, hSigned, ?_⟩, hHeight, ?_⟩, rfl⟩
  · unfold BCF.checkcomsigns
    rcases hCase with hZero | ⟨hLink, hBatch⟩
    · simp [hZero]
    · rw [← hLink, hBatch, Bool.or_true]
  · unfold BCF.checkblockid
    rcases hCase with hZero | ⟨hLink, _⟩
    · simp [hZero]
    · simp [hLink]

/- What handling a block does. -/
theorem handle_step
    {isfuture : Bool}
    (hBuffered : Buffered cfg bcf)
    (hLeader : block.rawBC.leader = cfg.leader)
    (hSid : block.rawBC.k = cfg.sid)
    (hFuture : isfuture = true → Legal cfg block)
    (hHandle :
      bcf.handle cfg nid isfuture block = some bcf') :
    BCF.Step cfg nid bcf (some block) bcf' ∧
      Buffered cfg bcf' := by
  unfold BCF.handle at hHandle
  split at hHandle
  · cases hHandle
    exact
      ⟨.keep _ bcf.futurebuffer bcf.calling, hBuffered⟩
  split at hHandle
  · rename_i hHeight
    split at hHandle
    · rename_i hIs
      rcases Option.ite_none_right_eq_some.mp hHandle with
        ⟨hLinked, hEq⟩
      cases hEq
      exact
        ⟨.accept bcf.futurebuffer block
          ⟨hFuture hIs, hHeight, hLinked⟩,
          hBuffered.generatepayback⟩
    · rcases acceptable_of_check hHeight hLeader hSid
        hHandle with ⟨hAccept, rfl⟩
      exact
        ⟨.accept bcf.futurebuffer block hAccept,
          hBuffered.generatepayback⟩
  · rcases Option.ite_none_right_eq_some.mp hHandle with
      ⟨hPass, hEq⟩
    simp only [Bool.and_eq_true] at hPass
    have hLegal : Legal cfg block :=
      ⟨hLeader, hSid, hPass.1, hPass.2⟩
    split at hEq
    · cases hEq
      exact
        ⟨.keep _ (bcf.futurebuffer.put block) bcf.calling,
          hBuffered.put hLegal fun _ h => h⟩
    · cases hEq
      refine
        ⟨.keep _ bcf.futurebuffer (bcf.calling ++ [block]),
          ⟨hBuffered.buffer, ?_⟩⟩
      intro block' hMem
      rcases List.mem_append.mp hMem with hMem | hMem
      · exact hBuffered.calling block' hMem
      · cases List.mem_singleton.mp hMem
        exact hLegal

/- A step after the loop at the head of an iteration. -/
theorem BCF.Step.of_buffer
    {futurebuffer : FutureBuffer}
    {handled : Option BCBlock}
    (hStep :
      BCF.Step cfg nid
        { bcf with futurebuffer := futurebuffer }
        handled bcf') :
    BCF.Step cfg nid bcf handled bcf' := by
  cases hStep with
  | keep _ futurebuffer calling =>
      exact .keep _ futurebuffer calling
  | accept futurebuffer block hAccept =>
      exact
        .accept futurebuffer block
          { hAccept with
            height := hAccept.height
            linked := hAccept.linked }

/- A step accepts the next block or only changes what waits. -/
theorem exec_step
    {a : FollowerAction}
    (hBuffered : Buffered cfg bcf)
    (hExec : bcf.exec cfg nid a = some bcf') :
    BCF.Step cfg nid bcf (bcf.handled a) bcf' ∧
      Buffered cfg bcf' := by
  cases a with
  | next =>
      change bcf.next cfg nid = some bcf' at hExec
      unfold BCF.next at hExec
      rcases Option.ite_none_right_eq_some.mp hExec with
        ⟨_, hMatch⟩
      split at hMatch
      · rename_i block futurebuffer hGet
        have hClean := hBuffered.clean
        have hBlocks := getlowwest_eq_some hGet
        have hLegal : Legal cfg block := by
          apply hClean.buffer
          rw [hBlocks]
          exact List.mem_cons_self
        have hRest :
            Buffered cfg
              { bcf.clean with
                futurebuffer := futurebuffer } := by
          refine ⟨?_, hClean.calling⟩
          intro block' hMem
          apply hClean.buffer
          rw [hBlocks]
          exact List.mem_cons_of_mem _ hMem
        rcases handle_step hRest hLegal.leader hLegal.k
          (fun _ => hLegal) hMatch with ⟨hStep, hAfter⟩
        have hHandled : bcf.handled .next = some block := by
          unfold BCF.handled
          rw [hGet]
        rw [hHandled]
        exact ⟨hStep.of_buffer.of_buffer, hAfter⟩
      · cases hMatch
  | receive block =>
      change bcf.receive cfg nid block = some bcf' at hExec
      unfold BCF.receive at hExec
      dsimp only at hExec
      split at hExec
      · cases hExec
      · split at hExec
        · rename_i hNamed
          rcases handle_step hBuffered.clean hNamed.1
            hNamed.2 (fun h => Bool.noConfusion h) hExec with
            ⟨hStep, hAfter⟩
          exact ⟨hStep.of_buffer, hAfter⟩
        · cases hExec
          exact ⟨.keep _ _ bcf.calling, hBuffered.clean⟩
  | called i =>
      change bcf.called i = some bcf' at hExec
      unfold BCF.called at hExec
      split at hExec
      · rename_i block hBlock
        cases hExec
        refine ⟨.keep _ _ _, hBuffered.put ?_ ?_⟩
        · exact hBuffered.calling block
            (List.mem_of_getElem? hBlock)
        · exact fun _ hMem => List.mem_of_mem_eraseIdx hMem
      · cases hExec

/- In every run what waits has been checked. -/
theorem buffered
    {ok : BCF → FollowerAction → Prop}
    (hReach : (follower cfg nid).ReachableBy ok bcf) :
    Buffered cfg bcf := by
  refine hReach.invariant (Buffered cfg) ?_ ?_
  · constructor <;> simp [follower, BCF.new]
  · intro s a s' _ hBuffered _ hExec
    exact (exec_step hBuffered hExec).2

end Steps

end CertifiedBroadcast

end Jumbo

------------------------------------------------------------
-- The Chain Accepted
------------------------------------------------------------

namespace Jumbo

namespace CertifiedBroadcast

open Protocol
open Struct

variable {n : Nat}

/- Each block with its successor. -/
def successions (blocks : List BCBlock) :
    List (BCBlock × BCBlock) :=
  blocks.zip blocks.tail

/- One more block follows the last. -/
theorem successions_append
    {blocks : List BCBlock} {last block : BCBlock}
    (hLast : blocks.getLast? = some last) :
    successions (blocks ++ [block]) =
      successions blocks ++ [(last, block)] := by
  induction blocks with
  | nil => cases hLast
  | cons first blocks ih =>
      cases blocks with
      | nil =>
          cases hLast
          rfl
      | cons second blocks =>
          rw [List.getLast?_cons_cons] at hLast
          have hRest := ih hLast
          unfold successions at hRest ⊢
          simp only [List.cons_append, List.tail_cons,
            List.zip_cons_cons] at hRest ⊢
          rw [hRest]

/- Every block but the last is followed. -/
theorem map_fst_successions (blocks : List BCBlock) :
    (successions blocks).map Prod.fst = blocks.dropLast := by
  induction blocks with
  | nil => rfl
  | cons first blocks ih =>
      cases blocks with
      | nil => rfl
      | cons second blocks =>
          unfold successions at ih ⊢
          simp only [List.tail_cons, List.zip_cons_cons,
            List.map_cons, List.dropLast_cons_cons] at ih ⊢
          rw [ih]

/- What makes a block the successor of another one. -/
structure Succeeds
    (cfg : Config n) (block next : BCBlock) : Prop where
  height : next.rawBC.height = block.rawBC.height + 1
  certified :
    next.rawBC.height ≠ 0 →
      ∃ batch, next.batchSigns = some batch ∧
        cfg.verifies
          (cfg.signbyte (cfg.hash block.rawBC)
            block.rawBC.height) batch = true

/- The follower against the chain it has accepted. -/
structure Chained (cfg : Config n) (bcf : BCF) : Prop where
  heights :
    bcf.accepted.map (·.rawBC.height) =
      (List.range bcf.height).map Int32.ofNat
  last : bcf.lastblock = bcf.accepted.getLast?
  lastblkID :
    ∀ block, bcf.lastblock = some block →
      bcf.lastblkID = cfg.hash block.rawBC
  legal : ∀ block ∈ bcf.accepted, Legal cfg block
  succeeds :
    ∀ p ∈ successions bcf.accepted, Succeeds cfg p.1 p.2
  output :
    bcf.output =
      ((successions bcf.accepted).filter
        (·.2.rawBC.root ≠ [])).map
        fun p => BCF.backBlock cfg p.1 p.2

section Chained

variable {cfg : Config n} {nid : Fin n} {bcf bcf' : BCF}

/- As many blocks are accepted as the height says. -/
theorem Chained.length
    (hChained : Chained cfg bcf) :
    bcf.accepted.length = bcf.height := by
  simpa using congrArg List.length hChained.heights

/- The last block is that of the height before. -/
theorem Chained.lastblock
    (hChained : Chained cfg bcf) :
    (bcf.lastblock = none ∧ bcf.height = 0) ∨
      ∃ last, bcf.lastblock = some last ∧
        0 < bcf.height ∧
          last.rawBC.height + 1 = bcf.int32height := by
  have hLength := hChained.length
  have hLast := hChained.last
  cases hBlocks : bcf.lastblock with
  | none =>
      rw [hBlocks] at hLast
      have hNil := List.getLast?_eq_none_iff.mp hLast.symm
      rw [hNil] at hLength
      exact .inl ⟨rfl, hLength.symm⟩
  | some last =>
      rw [hBlocks] at hLast
      have hNe : bcf.accepted ≠ [] := by
        intro hNil
        rw [hNil] at hLast
        cases hLast
      have hPos : 0 < bcf.height := by
        rw [← hLength]
        exact List.length_pos_of_ne_nil hNe
      refine .inr ⟨last, rfl, hPos, ?_⟩
      have hHeight :=
        congrArg List.getLast? hChained.heights
      rw [List.getLast?_map, ← hLast, List.getLast?_map,
        List.getLast?_range, if_neg (by omega)] at hHeight
      injection hHeight with hHeight
      change last.rawBC.height = _ at hHeight
      rw [hHeight]
      unfold BCF.int32height
      have hSplit : bcf.height = bcf.height - 1 + 1 := by omega
      rw [hSplit, Int32.ofNat_add, Nat.add_sub_cancel]
      rfl

/- The certificate in a block is for the last one. -/
theorem Acceptable.succeeds
    {last block : BCBlock}
    (hAccept : Acceptable cfg bcf block)
    (hChained : Chained cfg bcf)
    (hLast : bcf.lastblock = some last)
    (hNext : last.rawBC.height + 1 = bcf.int32height) :
    Succeeds cfg last block := by
  have hHeight :
      block.rawBC.height = last.rawBC.height + 1 := by
    rw [hAccept.height, hNext]
  refine ⟨hHeight, ?_⟩
  intro hNe
  have hLinked := hAccept.linked
  have hCertified := hAccept.certified
  unfold BCF.checkblockid at hLinked
  unfold BCF.checkcomsigns at hCertified
  simp only [Bool.or_eq_true, decide_eq_true_eq, hNe,
    false_or] at hLinked hCertified
  rcases (Option.any_eq_true _ _).mp hCertified with
    ⟨batch, hBatch, hVerify⟩
  refine ⟨batch, hBatch, ?_⟩
  have hMinus : block.rawBC.height - 1 = last.rawBC.height := by
    rw [hHeight, Int32.add_sub_cancel]
  rwa [← hLinked, hChained.lastblkID last hLast,
    hMinus] at hVerify

/- Accepting a block extends the chain. -/
theorem Chained.accept
    {block : BCBlock}
    (hChained : Chained cfg bcf)
    (hAccept : Acceptable cfg bcf block) :
    Chained cfg (bcf.generatepayback cfg nid block) := by
  have hHeights :
      (bcf.accepted ++ [block]).map (·.rawBC.height) =
        (List.range (bcf.height + 1)).map Int32.ofNat := by
    rw [List.map_append, hChained.heights, List.range_succ,
      List.map_append]
    simp only [List.map_cons, List.map_nil]
    rw [hAccept.height]
    rfl
  have hLegal :
      ∀ b ∈ bcf.accepted ++ [block], Legal cfg b := by
    intro b hMem
    rcases List.mem_append.mp hMem with hMem | hMem
    · exact hChained.legal b hMem
    · cases List.mem_singleton.mp hMem
      exact hAccept.toLegal
  have hSuccessions :
      (∀ p ∈ successions (bcf.accepted ++ [block]),
        Succeeds cfg p.1 p.2) ∧
      (bcf.generatepayback cfg nid block).output =
        ((successions (bcf.accepted ++ [block])).filter
          (·.2.rawBC.root ≠ [])).map
          fun p => BCF.backBlock cfg p.1 p.2 := by
    rw [BCF.generatepayback_output]
    rcases hChained.lastblock with
      ⟨hNone, hZero⟩ | ⟨last, hSome, hPos, hNext⟩
    · have hNil : bcf.accepted = [] := by
        apply List.eq_nil_of_length_eq_zero
        rw [hChained.length, hZero]
      have hOutput := hChained.output
      rw [if_pos (.inr hZero), hOutput, hNil]
      constructor
      · intro p hMem
        cases hMem
      · rfl
    · have hLast := hChained.last
      rw [hSome] at hLast
      rw [successions_append hLast.symm]
      constructor
      · intro p hMem
        rcases List.mem_append.mp hMem with hMem | hMem
        · exact hChained.succeeds p hMem
        · cases List.mem_singleton.mp hMem
          exact hAccept.succeeds hChained hSome hNext
      · rw [List.filter_append, List.map_append,
          ← hChained.output]
        by_cases hRoot : block.rawBC.root = []
        · simp [hRoot]
        · simp [hRoot, hSome, Nat.ne_of_gt hPos]
  constructor
  · rw [BCF.generatepayback_accepted,
      BCF.generatepayback_height]
    exact hHeights
  · simp
  · intro b hEq
    rw [BCF.generatepayback_lastblock] at hEq
    cases hEq
    rfl
  · rw [BCF.generatepayback_accepted]
    exact hLegal
  · rw [BCF.generatepayback_accepted]
    exact hSuccessions.1
  · rw [BCF.generatepayback_accepted]
    exact hSuccessions.2

/- In every run the accepted blocks are a chain. -/
theorem chained
    {ok : BCF → FollowerAction → Prop}
    (hReach : (follower cfg nid).ReachableBy ok bcf) :
    Chained cfg bcf := by
  refine hReach.invariant (Chained cfg) ?_ ?_
  · constructor <;>
      simp [follower, BCF.new, successions]
  intro s a s' hBefore hChained _ hExec
  rcases exec_step (buffered hBefore) hExec with ⟨hStep, _⟩
  generalize s.handled a = handled at hStep
  cases hStep with
  | keep => exact { hChained with }
  | accept futurebuffer block hAccept =>
      have hSame :
          Chained cfg
            { s with futurebuffer := futurebuffer } :=
        { hChained with }
      exact
        hSame.accept
          { hAccept with
            height := hAccept.height
            linked := hAccept.linked }

end Chained

end CertifiedBroadcast

end Jumbo

------------------------------------------------------------
-- Contiguous and Certified Output
------------------------------------------------------------

namespace Jumbo

namespace CertifiedBroadcast

open Protocol
open Struct

variable {n : Nat}

/-
  A block about to follow another one has a root, and its
  height has not come round to zero again.
-/
def BCF.rooted
    (cfg : Config n) (bcf : BCF) (a : FollowerAction) : Bool :=
  (bcf.handled a).all fun block =>
    block.rawBC.leader ≠ cfg.leader ||
      block.rawBC.k ≠ cfg.sid ||
        block.rawBC.height ≠ bcf.int32height ||
          bcf.height = 0 ||
            (block.rawBC.root ≠ [] && bcf.int32height ≠ 0)

/- The heights put out are 0, 1, 2 and so on. -/
def Contiguous (bcf : BCF) : Prop :=
  bcf.output.map (·.rawBC.height) =
    (List.range bcf.output.length).map Int32.ofNat

/- Every block put out carries a certificate for itself. -/
def Certified (cfg : Config n) (bcf : BCF) : Prop :=
  ∀ block ∈ bcf.output, ∃ batch,
    block.batchSigns = some batch ∧ cfg.Certifies block batch

section Output

variable {cfg : Config n} {nid : Fin n} {bcf bcf' : BCF}

/- In a run of blocks with roots all have roots. -/
theorem rooted_successions
    (hReach :
      (follower cfg nid).ReachableBy
        (fun bcf a => bcf.rooted cfg a = true) bcf) :
    ∀ p ∈ successions bcf.accepted,
      p.2.rawBC.root ≠ [] ∧ p.2.rawBC.height ≠ 0 := by
  refine hReach.invariant
    (fun bcf => ∀ p ∈ successions bcf.accepted,
      p.2.rawBC.root ≠ [] ∧ p.2.rawBC.height ≠ 0) ?_ ?_
  · intro p hMem
    cases hMem
  intro s a s' hBefore hRooted hOk hExec
  have hChained := chained hBefore
  rcases exec_step (buffered hBefore) hExec with ⟨hStep, _⟩
  unfold BCF.rooted at hOk
  generalize s.handled a = handled at hStep hOk
  cases hStep with
  | keep => exact hRooted
  | accept futurebuffer block hAccept =>
      rw [BCF.generatepayback_accepted]
      have hLast := hChained.last
      rcases hChained.lastblock with
        ⟨_, hZero⟩ | ⟨last, hSome, hPos, _⟩
      · have hNil : s.accepted = [] := by
          apply List.eq_nil_of_length_eq_zero
          rw [hChained.length, hZero]
        intro p hMem
        rw [hNil] at hMem
        cases hMem
      · rw [hSome] at hLast
        rw [successions_append hLast.symm]
        intro p hMem
        rcases List.mem_append.mp hMem with hMem | hMem
        · exact hRooted p hMem
        · cases List.mem_singleton.mp hMem
          simp only [Option.all_some, hAccept.leader,
            hAccept.k, hAccept.height, ne_eq,
            not_true_eq_false, decide_false,
            Nat.ne_of_gt hPos, Bool.false_or,
            Bool.and_eq_true, decide_eq_true_eq] at hOk
          rw [hAccept.height]
          exact hOk

/- With every successor rooted the whole chain is put out. -/
theorem Chained.output_eq
    (hChained : Chained cfg bcf)
    (hRooted :
      ∀ p ∈ successions bcf.accepted,
        p.2.rawBC.root ≠ [] ∧ p.2.rawBC.height ≠ 0) :
    bcf.output =
      (successions bcf.accepted).map
        fun p => BCF.backBlock cfg p.1 p.2 := by
  rw [hChained.output, List.filter_eq_self.mpr]
  intro p hMem
  simpa using (hRooted p hMem).1

/- A block that is followed was accepted. -/
theorem mem_of_mem_successions
    {blocks : List BCBlock} {p : BCBlock × BCBlock}
    (hMem : p ∈ successions blocks) :
    p.1 ∈ blocks :=
  (List.of_mem_zip hMem).1

/- Then every block but the last is put out. -/
theorem Chained.contiguous
    (hChained : Chained cfg bcf)
    (hRooted :
      ∀ p ∈ successions bcf.accepted,
        p.2.rawBC.root ≠ [] ∧ p.2.rawBC.height ≠ 0) :
    Contiguous bcf := by
  have hOutput := hChained.output_eq hRooted
  have hHeights :
      bcf.output.map (·.rawBC.height) =
        (bcf.accepted.dropLast).map (·.rawBC.height) := by
    rw [hOutput, ← map_fst_successions, List.map_map,
      List.map_map]
    rfl
  have hLength : bcf.output.length = bcf.height - 1 := by
    have hSame := congrArg List.length hHeights
    simpa [hChained.length] using hSame
  unfold Contiguous
  rw [hHeights, hLength, List.map_dropLast, hChained.heights,
    ← List.map_dropLast, List.dropLast_eq_take,
    List.length_range, List.take_range,
    Nat.min_eq_left (Nat.sub_le _ _)]

/- Then what is put out has its certificate checked. -/
theorem Chained.certified
    (hChained : Chained cfg bcf)
    (hRooted :
      ∀ p ∈ successions bcf.accepted,
        p.2.rawBC.root ≠ [] ∧ p.2.rawBC.height ≠ 0) :
    Certified cfg bcf := by
  intro block hMem
  rw [hChained.output_eq hRooted] at hMem
  rcases List.mem_map.mp hMem with ⟨p, hPair, rfl⟩
  have hSucceeds := hChained.succeeds p hPair
  rcases hSucceeds.certified (hRooted p hPair).2 with
    ⟨batch, hBatch, hVerify⟩
  have hLegal :=
    hChained.legal p.1 (mem_of_mem_successions hPair)
  refine ⟨batch, hBatch, ?_⟩
  have hSame :
      (BCF.backBlock cfg p.1 p.2).rawBC = p.1.rawBC := by
    unfold BCF.backBlock
    rw [← hLegal.k]
  unfold Config.Certifies
  rw [hSame, hLegal.leader, hLegal.k]
  exact hVerify

/-
  In every run in which blocks that follow another one have
  roots, the output is contiguous and certified.
-/
theorem output_contiguous_certified
    (hReach :
      (follower cfg nid).ReachableBy
        (fun bcf a => bcf.rooted cfg a = true) bcf) :
    Contiguous bcf ∧ Certified cfg bcf :=
  ⟨(chained hReach).contiguous (rooted_successions hReach),
    (chained hReach).certified (rooted_successions hReach)⟩

end Output

------------------------------------------------------------
-- A Block without a Root
------------------------------------------------------------

/- Signatures that are never wrong, hashes by height. -/
def lenientPrimitives : Crypto.Primitives 4 where
  verify := fun _ _ _ => true
  aggregateSign := fun _ _ _ => none
  aggregateVerify := fun _ _ _ => false
  blsVerify := fun _ _ _ => none
  blsAggregate := fun _ => none
  fastAggregateVerify := fun _ _ _ => none
  verifyAggregateHashes := fun _ _ _ => none

/- Every signature is `[0]` and is accepted. -/
def lenientConfig : Config 4 where
  prim := lenientPrimitives
  type := .schnorr
  sign := fun _ _ => [0]
  hash := fun rawBC => intToBytes rawBC.height
  sha256 := fun _ => [0]
  lid := 0
  sid := 1
  testmode := true

/- The block of a height in this configuration. -/
def lenientBlock (height : Int32) (root : Crypto.Bytes) :
    BCBlock where
  rawBC :=
    ⟨intToBytes (height - 1), height, root, 1, 1, 0, 0⟩
  sign := some ⟨1, [0]⟩
  batchSigns := some ⟨[], []⟩

/- Blocks with roots come, one of them early. -/
def rootedRun : List FollowerAction :=
  [.receive (lenientBlock 0 [7]),
    .receive (lenientBlock 2 [7]),
    .receive (lenientBlock 1 [7]), .next]

/- Where that run ends. -/
def rootedState : BCF :=
  (follower lenientConfig 1).drive
    (BCF.rooted lenientConfig)
    (follower lenientConfig 1).init rootedRun

/- Two of the three blocks are put out, without a gap. -/
theorem output_contiguous_certified_rooted :
    rootedState.output.length = 2 ∧ Contiguous rootedState ∧
      Certified lenientConfig rootedState :=
  ⟨by decide +kernel,
    @output_contiguous_certified 4 lenientConfig 1 _
      (Machine.ReachableBy.drive .init rootedRun)⟩

/- Block 2 has no root, so block 1 is never put out. -/
def rootlessRun : List FollowerAction :=
  [.receive (lenientBlock 0 [7]),
    .receive (lenientBlock 1 [7]),
    .receive (lenientBlock 2 []),
    .receive (lenientBlock 3 [7])]

/- A follower that has accepted a block without root. -/
def rootlessState : BCF :=
  (follower lenientConfig 1).drive (fun _ _ => true)
    (follower lenientConfig 1).init rootlessRun

/- The block before it is never put out. -/
theorem output_gap :
    (follower lenientConfig 1).Reachable rootlessState ∧
      ¬ Contiguous rootlessState := by
  refine ⟨Machine.reachable_drive _ rootlessRun, ?_⟩
  intro hContiguous
  have hHeights :
      rootlessState.output.map (·.rawBC.height) = [0, 2] := by
    decide +kernel
  have hLength : rootlessState.output.length = 2 := by
    decide +kernel
  unfold Contiguous at hContiguous
  rw [hHeights, hLength] at hContiguous
  revert hContiguous
  decide

end CertifiedBroadcast

end Jumbo
