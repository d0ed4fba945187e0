import Jumbo.TxPool.Basic

/-
  What the pool has emitted against what it has received.

  The first batcher emits every transaction once and in
  order. The second one never empties its slice: from its
  second block on it starts over with the transactions that
  have gone out. While a signal waits for its block to fill
  up, a transaction that the select takes is lost.

  Main declarations:
    * `Balanced` and `balanced`
    * `due`
    * `Fits`
    * `emitted_in_order`
-/

------------------------------------------------------------
-- The First Batcher
------------------------------------------------------------

namespace Jumbo

namespace TxPool

open Protocol
open Crypto (Bytes)

variable {cfg : Config} {s s' : State}

/- Emitted, collected, or not yet read. -/
def Balanced (s : State) : Prop :=
  s.received =
    s.msgOut.flatten ++ s.flex.txBlk ++ s.clientMsgCH

/- Sending a batch loses no transaction. -/
theorem Balanced.flexSend
    (hBalanced : Balanced s) : Balanced (flexSend s) := by
  unfold Balanced TxPool.flexSend
  rw [List.flatten_append, List.flatten_singleton,
    List.append_nil]
  exact hBalanced

/- Nor does filling it. -/
theorem Balanced.flexFill
    (hBalanced : Balanced s) : Balanced (flexFill cfg s) := by
  unfold TxPool.flexFill
  split
  · exact hBalanced
  · exact hBalanced.flexSend

/- A transaction is moved from the channel to the slice. -/
theorem Balanced.receive
    {tx : Bytes} {txs : List Bytes} {flex : Flex}
    (hBalanced : Balanced s)
    (hRead : s.clientMsgCH = tx :: txs)
    (hBlk : flex.txBlk = s.flex.txBlk ++ [tx]) :
    Balanced { s with clientMsgCH := txs, flex := flex } := by
  unfold Balanced at hBalanced ⊢
  rw [hRead] at hBalanced
  dsimp only
  rw [hBlk, hBalanced]
  simp

/- A transaction is moved into the batch. -/
theorem Balanced.flexAppend
    {tx : Bytes} {txs : List Bytes}
    (hBalanced : Balanced s)
    (hRead : s.clientMsgCH = tx :: txs) :
    Balanced
      (flexAppend cfg { s with clientMsgCH := txs } tx) := by
  unfold TxPool.flexAppend
  dsimp only
  split
  · exact (hBalanced.receive hRead rfl).flexSend
  · split
    · exact (hBalanced.receive hRead rfl).flexSend
    · exact hBalanced.receive hRead rfl

/- Every step of the flexible batcher keeps the balance. -/
theorem Balanced.flexStep
    {event : Event}
    (hBalanced : Balanced s)
    (hStep : flexStep cfg s s.flex.pc event = some s') :
    Balanced s' := by
  unfold TxPool.flexStep at hStep
  split at hStep
  · split at hStep
    · cases hStep
      exact hBalanced
    · cases hStep
      exact Balanced.flexFill hBalanced
  · split at hStep
    · cases hStep
    · cases hStep
      exact Balanced.flexFill hBalanced
  · split at hStep
    · cases hStep
    · rename_i hRead
      cases hStep
      exact hBalanced.flexAppend hRead
  · split at hStep
    · cases hStep
    · rename_i hRead
      cases hStep
      exact (hBalanced.receive hRead rfl).flexFill
  · cases hStep

/- In every run of it no transaction is lost or doubled. -/
theorem balanced
    (hFlex : cfg.modifyTXpool = false)
    (hReach : (machine cfg).Reachable s) :
    Balanced s := by
  have hInit : Balanced (machine cfg).init := rfl
  refine hReach.invariant Balanced hInit ?_
  intro s a s' _ hBalanced hExec
  cases a with
  | clientMsg tx =>
      cases hExec
      unfold Balanced at hBalanced ⊢
      dsimp only
      rw [hBalanced, List.append_assoc]
  | signalMsg =>
      cases hExec
      exact hBalanced
  | flex event =>
      change
        (if cfg.modifyTXpool then none
          else flexStep cfg s s.flex.pc event) = some s'
        at hExec
      rw [hFlex, if_neg Bool.false_ne_true] at hExec
      exact hBalanced.flexStep hExec
  | batch event =>
      change
        (if cfg.modifyTXpool then
            batchStep cfg s s.batch.pc event
          else none) = some s' at hExec
      rw [hFlex, if_neg Bool.false_ne_true] at hExec
      cases hExec
  | flexM event =>
      change
        (if cfg.modifyTXpool then flexMStep s s.flexM event
          else none) = some s' at hExec
      rw [hFlex, if_neg Bool.false_ne_true] at hExec
      cases hExec

------------------------------------------------------------
-- The Second Batcher
------------------------------------------------------------

/- Everything that `batch_block` has cut, in order. -/
def State.cuts (s : State) : List Bytes :=
  (s.msgOut ++ s.batchblockCH).flatten

/- How many transactions are cut when one more is appended. -/
def due (cfg : Config) (batch : Batch) : Nat :=
  if batch.firsttime ∧
      cfg.minBatchSize ≤ batch.txBlk.length + 1 then
    cfg.minBatchSize
  else if batch.issignal then
    if cfg.minBatchSize ≤ batch.txcount + 1 then
      batch.txcount + 1
    else 0
  else if cfg.batchSize ≤ batch.txcount + 1 then cfg.batchSize
  else 0

/-
  No transaction is read by the select while a signal waits,
  and nothing is cut after a block with transactions.
-/
def Fits (cfg : Config) (s : State) : Action → Prop
| .batch .data =>
    ¬ (s.batch.pc = .inner ∧ s.batch.issignal = true) ∧
      (due cfg s.batch = 0 ∨ s.cuts = [])
| _ => True

instance (a : Action) : Decidable (Fits cfg s a) := by
  unfold Fits
  split <;> infer_instance

/- Nothing is lost, and what is cut is cut from the start. -/
structure Sound (s : State) : Prop where
  kept : s.received = s.batch.txBlk ++ s.clientMsgCH
  cuts : s.cuts <+: s.batch.txBlk

/- What is cut begins the batch, also with one more. -/
theorem take_prefix_append
    {cuts txBlk : List Bytes} {tx : Bytes} {count : Nat}
    (hCuts : cuts <+: txBlk)
    (hDue : count = 0 ∨ cuts = []) :
    cuts ++ (txBlk ++ [tx]).take count <+: txBlk ++ [tx] := by
  rcases hDue with rfl | rfl
  · rw [List.take_zero, List.append_nil]
    exact hCuts.trans (List.prefix_append _ _)
  · exact List.take_prefix _ _

/- What an append leaves in the slice and in the channels. -/
theorem batchAppend_eq
    (cfg : Config) (s : State) (tx : Bytes) :
    (batchAppend cfg s tx).received = s.received ∧
      (batchAppend cfg s tx).clientMsgCH = s.clientMsgCH ∧
      (batchAppend cfg s tx).batch.txBlk =
        s.batch.txBlk ++ [tx] ∧
      (batchAppend cfg s tx).cuts =
        s.cuts ++
          (s.batch.txBlk ++ [tx]).take (due cfg s.batch) := by
  unfold batchAppend due State.cuts
  dsimp only
  rw [List.length_append, List.length_singleton]
  split
  · refine ⟨rfl, rfl, rfl, ?_⟩
    simp
  · split
    · split
      · refine ⟨rfl, rfl, rfl, ?_⟩
        simp
      · refine ⟨rfl, rfl, rfl, ?_⟩
        simp
    · split
      · refine ⟨rfl, rfl, rfl, ?_⟩
        simp
      · refine ⟨rfl, rfl, rfl, ?_⟩
        simp

/- A transaction is moved into the batch. -/
theorem Sound.batchAppend
    {tx : Bytes} {txs : List Bytes}
    (hSound : Sound s)
    (hRead : s.clientMsgCH = tx :: txs)
    (hDue : due cfg s.batch = 0 ∨ s.cuts = []) :
    Sound
      (batchAppend cfg { s with clientMsgCH := txs } tx) := by
  rcases batchAppend_eq cfg { s with clientMsgCH := txs } tx
    with ⟨hReceived, hClient, hBlk, hCuts⟩
  constructor
  · rw [hReceived, hClient, hBlk]
    have hKept := hSound.kept
    rw [hRead] at hKept
    dsimp only
    rw [hKept]
    simp
  · rw [hCuts, hBlk]
    exact take_prefix_append hSound.cuts hDue

/- A fitting step of the batcher loses nothing. -/
theorem Sound.batchStep
    {event : Event}
    (hSound : Sound s)
    (hFits : Fits cfg s (.batch event))
    (hStep : batchStep cfg s s.batch.pc event = some s') :
    Sound s' := by
  unfold TxPool.batchStep at hStep
  split at hStep
  · split at hStep
    · cases hStep
      exact ⟨hSound.kept, hSound.cuts⟩
    · cases hStep
      exact ⟨hSound.kept, hSound.cuts⟩
  · split at hStep
    · cases hStep
    · cases hStep
      exact ⟨hSound.kept, hSound.cuts⟩
  · rename_i hPc
    split at hStep
    · cases hStep
    · rename_i hRead
      split at hStep
      · rename_i hSignal
        exact absurd ⟨hPc, hSignal⟩ hFits.1
      · cases hStep
        exact hSound.batchAppend hRead hFits.2
  · split at hStep
    · cases hStep
    · rename_i hRead
      cases hStep
      exact hSound.batchAppend hRead hFits.2
  · cases hStep

/- Nor does a step of the one that sends. -/
theorem Sound.flexMStep
    {event : Event}
    (hSound : Sound s)
    (hStep : flexMStep s s.flexM event = some s') :
    Sound s' := by
  have hSend
      {txblk : List Bytes} {rest : List (List Bytes)}
      (hBlocks : s.batchblockCH = txblk :: rest) :
      Sound (flexMSend s txblk rest) := by
    refine ⟨hSound.kept, ?_⟩
    have hCuts := hSound.cuts
    unfold State.cuts at hCuts ⊢
    rw [hBlocks] at hCuts
    unfold flexMSend
    rw [List.append_assoc]
    exact hCuts
  unfold TxPool.flexMStep at hStep
  split at hStep
  · split at hStep
    · cases hStep
      exact ⟨hSound.kept, hSound.cuts⟩
    · cases hStep
      exact ⟨hSound.kept, hSound.cuts⟩
  · split at hStep
    · cases hStep
    · cases hStep
      exact ⟨hSound.kept, hSound.cuts⟩
  · split at hStep
    · cases hStep
    · rename_i hBlocks
      cases hStep
      exact hSend hBlocks
  · split at hStep
    · cases hStep
    · rename_i hBlocks
      cases hStep
      exact hSend hBlocks
  · cases hStep

/- In every such run no transaction is lost. -/
theorem sound
    (hModify : cfg.modifyTXpool = true)
    (hReach : (machine cfg).ReachableBy (Fits cfg) s) :
    Sound s := by
  refine
    hReach.invariant Sound ⟨rfl, List.prefix_refl _⟩ ?_
  intro s a s' _ hSound hFits hExec
  cases a with
  | clientMsg tx =>
      cases hExec
      refine ⟨?_, hSound.cuts⟩
      dsimp only
      rw [hSound.kept, List.append_assoc]
  | signalMsg =>
      cases hExec
      exact ⟨hSound.kept, hSound.cuts⟩
  | flex event =>
      change
        (if cfg.modifyTXpool then none
          else flexStep cfg s s.flex.pc event) = some s'
        at hExec
      rw [hModify, if_pos rfl] at hExec
      cases hExec
  | batch event =>
      change
        (if cfg.modifyTXpool then
            batchStep cfg s s.batch.pc event
          else none) = some s' at hExec
      rw [hModify, if_pos rfl] at hExec
      exact hSound.batchStep hFits hExec
  | flexM event =>
      change
        (if cfg.modifyTXpool then flexMStep s s.flexM event
          else none) = some s' at hExec
      rw [hModify, if_pos rfl] at hExec
      exact hSound.flexMStep hExec

------------------------------------------------------------
-- Emitted Blocks
------------------------------------------------------------

/-
  In every run of the first batcher, and in every run of the
  second one whose steps fit, what is emitted is a prefix of
  what has been received.
-/
theorem emitted_in_order (cfg : Config) (s : State) :
    (cfg.modifyTXpool = false →
      (machine cfg).Reachable s →
        s.msgOut.flatten <+: s.received) ∧
      ((machine cfg).ReachableBy (Fits cfg) s →
        s.msgOut.flatten <+: s.received) := by
  have hFirst
      (hFlex : cfg.modifyTXpool = false)
      (hReach : (machine cfg).Reachable s) :
      s.msgOut.flatten <+: s.received := by
    have hBalanced := balanced hFlex hReach
    unfold Balanced at hBalanced
    rw [hBalanced, List.append_assoc]
    exact List.prefix_append _ _
  refine ⟨hFirst, fun hReach => ?_⟩
  cases hModify : cfg.modifyTXpool with
  | false => exact hFirst hModify hReach.reachable
  | true =>
      have hSound := sound hModify hReach
      have hOut : s.msgOut.flatten <+: s.cuts := by
        unfold State.cuts
        rw [List.flatten_append]
        exact List.prefix_append _ _
      rw [hSound.kept]
      exact
        (hOut.trans hSound.cuts).trans
          (List.prefix_append _ _)

/- The other batcher, with these sizes. -/
def modified (minBatchSize batchSize : Nat) : Config :=
  ⟨minBatchSize, batchSize, true⟩

/- One block, and one that starts over. -/
def repeatingRun : List Action :=
  [.clientMsg [1], .clientMsg [2], .batch .poll, .batch .data,
    .batch .poll, .batch .data, .flexM .poll, .flexM .data,
    .flexM .poll, .flexM .data]

/- A signal before the first block, and a lost transaction. -/
def losingRun : List Action :=
  [.clientMsg [1], .clientMsg [2], .clientMsg [3],
    .signalMsg, .flexM .poll, .batch .poll, .batch .data,
    .batch .poll, .batch .data, .batch .data, .flexM .data]

/- Transactions are repeated, and transactions are lost. -/
theorem not_emitted_in_order :
    (¬ ∀ s, (machine (modified 1 1)).Reachable s →
      s.msgOut.flatten <+: s.received) ∧
      ¬ ∀ s, (machine (modified 2 2)).Reachable s →
        s.msgOut.flatten <+: s.received := by
  constructor
  · intro hAll
    have hRun :=
      hAll _
        (Machine.reachable_drive (machine (modified 1 1))
          repeatingRun)
    revert hRun
    decide
  · intro hAll
    have hRun :=
      hAll _
        (Machine.reachable_drive (machine (modified 2 2))
          losingRun)
    revert hRun
    decide

/- The first block of the second batcher. -/
theorem emitted_in_order_first :
    ∃ s, (machine (modified 1 1)).ReachableBy
        (Fits (modified 1 1)) s ∧
      s.msgOut = [[[1]]] ∧ s.msgOut.flatten <+: s.received := by
  let run : List Action :=
    [.clientMsg [1], .clientMsg [2], .batch .poll,
      .batch .data, .flexM .poll, .flexM .data]
  let ok (s : State) (a : Action) : Bool :=
    decide (Fits (modified 1 1) s a)
  have hReach :
      (machine (modified 1 1)).ReachableBy
        (Fits (modified 1 1))
        ((machine (modified 1 1)).drive ok State.init run) :=
    (Machine.ReachableBy.drive .init run).mono fun _ _ hOk =>
      of_decide_eq_true hOk
  exact ⟨_, hReach, rfl, (emitted_in_order _ _).2 hReach⟩

end TxPool

end Jumbo
