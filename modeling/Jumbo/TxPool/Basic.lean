import Jumbo.Crypto.Signature
import Jumbo.Lib.Machine

/-
  The transaction pool, with both batchers.

  Without `ModifyTXpool` one goroutine collects and emits,
  with it `batch_block` collects and `handle_clientMsg_flex_m`
  emits. Each looks for a signal first and then waits for a
  signal or for data. A full channel only delays its sender,
  so channels have no bound here, and a block is emitted when
  it is put into `msgOut`.

  Main declarations:
    * `State`
    * `flexStep`
    * `batchStep`
    * `flexMStep`
    * `machine`
-/

------------------------------------------------------------
-- States
------------------------------------------------------------

namespace Jumbo

namespace TxPool

open Protocol
open Crypto (Bytes)

/- The sizes of batches and which batcher runs. -/
structure Config where
  minBatchSize : Nat
  batchSize : Nat
  modifyTXpool : Bool

/-
  Where a batcher stands: before the outer select, in the
  inner select, or receiving after a signal.
-/
inductive Pc where
| outer
| inner
| receive
deriving DecidableEq

/- The outer select, or what a receive comes back with. -/
inductive Event where
| poll
| signal
| data

/- The variables of `handle_clientMsg_flex`. -/
structure Flex where
  pc : Pc
  txBlk : List Bytes
  txCount : Nat
  firsttime : Bool

/- The variables of `batch_block`. -/
structure Batch where
  pc : Pc
  txBlk : List Bytes
  firsttime : Bool
  issignal : Bool
  txcount : Nat

/- `received` are all transactions that clients have sent. -/
structure State where
  received : List Bytes
  clientMsgCH : List Bytes
  signalMsgCH : Nat
  batchsignal : Nat
  batchblockCH : List (List Bytes)
  msgOut : List (List Bytes)
  flex : Flex
  batch : Batch
  flexM : Pc

namespace State

/- No transaction has come. -/
def init : State where
  received := []
  clientMsgCH := []
  signalMsgCH := 0
  batchsignal := 0
  batchblockCH := []
  msgOut := []
  flex := ⟨.outer, [], 0, true⟩
  batch := ⟨.outer, [], true, false, 0⟩
  flexM := .outer

end State

------------------------------------------------------------
-- The First Batcher
------------------------------------------------------------

variable (cfg : Config)

/- The block goes out and the slice is emptied. -/
def flexSend (s : State) : State :=
  { s with
    msgOut := s.msgOut ++ [s.flex.txBlk]
    flex :=
      { s.flex with pc := .outer, txBlk := [], txCount := 0 } }

/- After a signal the block is filled up before it goes. -/
def flexFill (s : State) : State :=
  if s.flex.txBlk.length < cfg.minBatchSize then
    { s with flex := { s.flex with pc := .receive } }
  else flexSend s

/- The flexible batcher takes a transaction. -/
def flexAppend (s : State) (tx : Bytes) : State :=
  let flex : Flex :=
    { s.flex with
      pc := .outer
      txBlk := s.flex.txBlk ++ [tx]
      txCount := s.flex.txCount + 1 }
  if flex.firsttime ∧ cfg.minBatchSize ≤ flex.txCount then
    flexSend { s with flex := { flex with firsttime := false } }
  else if cfg.batchSize ≤ flex.txCount then
    flexSend { s with flex := flex }
  else { s with flex := flex }

/- `handle_clientMsg_flex`. -/
def flexStep (s : State) : Pc → Event → Option State
| .outer, .poll =>
    match s.signalMsgCH with
    | 0 => some { s with flex := { s.flex with pc := .inner } }
    | k + 1 => some (flexFill cfg { s with signalMsgCH := k })
| .inner, .signal =>
    match s.signalMsgCH with
    | 0 => none
    | k + 1 => some (flexFill cfg { s with signalMsgCH := k })
| .inner, .data =>
    match s.clientMsgCH with
    | [] => none
    | tx :: txs =>
        some (flexAppend cfg { s with clientMsgCH := txs } tx)
| .receive, .data =>
    match s.clientMsgCH with
    | [] => none
    | tx :: txs =>
        some
          (flexFill cfg
            { s with
              clientMsgCH := txs
              flex :=
                { s.flex with
                  txBlk := s.flex.txBlk ++ [tx] } })
| _, _ => none

------------------------------------------------------------
-- The Second Batcher
------------------------------------------------------------

/- `txBlk = txBlk[:]` empties nothing. -/
def batchAppend (s : State) (tx : Bytes) : State :=
  let batch : Batch :=
    { s.batch with
      pc := .outer
      txBlk := s.batch.txBlk ++ [tx]
      txcount := s.batch.txcount + 1 }
  if batch.firsttime ∧
      cfg.minBatchSize ≤ batch.txBlk.length then
    { s with
      batchblockCH :=
        s.batchblockCH ++ [batch.txBlk.take cfg.minBatchSize]
      batch := { batch with txcount := 0, firsttime := false } }
  else if batch.issignal then
    if cfg.minBatchSize ≤ batch.txcount then
      { s with
        batchblockCH :=
          s.batchblockCH ++ [batch.txBlk.take batch.txcount]
        batch :=
          { batch with txcount := 0, issignal := false } }
    else { s with batch := batch }
  else if cfg.batchSize ≤ batch.txcount then
    { s with
      batchblockCH :=
        s.batchblockCH ++ [batch.txBlk.take cfg.batchSize]
      batch := { batch with txcount := 0 } }
  else { s with batch := batch }

/- A signal stays until its block is full. -/
def batchSignal (s : State) (k : Nat) : State :=
  { s with
    batchsignal := k
    batch :=
      { s.batch with pc := .receive, issignal := true } }

/- `batch_block`. -/
def batchStep (s : State) : Pc → Event → Option State
| .outer, .poll =>
    match s.batchsignal with
    | 0 =>
        some { s with batch := { s.batch with pc := .inner } }
    | k + 1 => some (batchSignal s k)
| .inner, .signal =>
    match s.batchsignal with
    | 0 => none
    | k + 1 => some (batchSignal s k)
| .inner, .data =>
    match s.clientMsgCH with
    | [] => none
    | tx :: txs =>
        if s.batch.issignal then
          -- `tx` is overwritten by the next receive
          some
            { s with
              clientMsgCH := txs
              batch := { s.batch with pc := .receive } }
        else
          some
            (batchAppend cfg { s with clientMsgCH := txs } tx)
| .receive, .data =>
    match s.clientMsgCH with
    | [] => none
    | tx :: txs =>
        some (batchAppend cfg { s with clientMsgCH := txs } tx)
| _, _ => none

/- A batch is handed on and sent out. -/
def flexMSend
    (s : State) (txblk : List Bytes)
    (batchblockCH : List (List Bytes)) : State :=
  { s with
    batchblockCH := batchblockCH
    msgOut := s.msgOut ++ [txblk]
    flexM := .outer }

/- The signal is passed on and the next block waited for. -/
def flexMSignal (s : State) (k : Nat) : State :=
  { s with
    signalMsgCH := k
    batchsignal := s.batchsignal + 1
    flexM := .receive }

/- `handle_clientMsg_flex_m`. -/
def flexMStep (s : State) : Pc → Event → Option State
| .outer, .poll =>
    match s.signalMsgCH with
    | 0 => some { s with flexM := .inner }
    | k + 1 => some (flexMSignal s k)
| .inner, .signal =>
    match s.signalMsgCH with
    | 0 => none
    | k + 1 => some (flexMSignal s k)
| .inner, .data | .receive, .data =>
    match s.batchblockCH with
    | [] => none
    | txblk :: rest => some (flexMSend s txblk rest)
| _, _ => none

------------------------------------------------------------
-- Runs
------------------------------------------------------------

/- A client or a signal comes, or a batcher steps. -/
inductive Action where
| clientMsg (tx : Bytes)
| signalMsg
| flex (event : Event)
| batch (event : Event)
| flexM (event : Event)

/- A step of the pool. -/
def exec (s : State) : Action → Option State
| .clientMsg tx =>
    some
      { s with
        received := s.received ++ [tx]
        clientMsgCH := s.clientMsgCH ++ [tx] }
| .signalMsg => some { s with signalMsgCH := s.signalMsgCH + 1 }
| .flex event =>
    if cfg.modifyTXpool then none
    else flexStep cfg s s.flex.pc event
| .batch event =>
    if cfg.modifyTXpool then
      batchStep cfg s s.batch.pc event
    else none
| .flexM event =>
    if cfg.modifyTXpool then flexMStep s s.flexM event
    else none

/- The pool as a machine. -/
def machine : Machine State Action where
  init := State.init
  exec := exec cfg

end TxPool

end Jumbo
