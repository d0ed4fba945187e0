import Jumbo.Lib.Machine
import Jumbo.SpeedingMVBA.Basic

/-
  The goroutines of one loop, access by access.

  Here a step reads or writes one field that goroutines share,
  or reads one channel, so that the goroutines of a party
  interleave as they do in the code. A goroutine that returns
  makes no further step. The lock around `Pi_count` is left
  out, which only adds runs. Every party runs the loop, and
  any message may be handed to it.

  Main declarations:
    * `Loop`
    * `pbcStep`, `mineStep` and `piStep`
    * `sendStep`, `shareStep` and `finishStep`
    * `receive`
    * `machine`
-/

------------------------------------------------------------
-- State
------------------------------------------------------------

namespace Jumbo

namespace SpeedingMVBA

namespace Goroutines

open Crypto (Bytes)
open Struct

/- Where `handle_PBC` is. -/
inductive PbcAt where
| wait1
| store1 (values : Bytes)
| check2 (hash : Bytes)
| send2 (hash : Bytes)
| wait3 (hash : Bytes)
| store3 (hash : Bytes) (batch : BatchSignature)
| check4 (hash : Bytes)
| send4 (hash : Bytes)
| done

/- Where `handle_mine_PBC` is. -/
inductive MineAt where
| start
| wait2 (signs : List Signature)
| store (batch : BatchSignature)
| check3 (batch : BatchSignature)
| send3 (batch : BatchSignature)
| wait4 (signs : List Signature)
| ok (batch : BatchSignature)
| count (batch : BatchSignature)
| test (batch : BatchSignature)
| push (batch okBatch : BatchSignature)
| close (batch : BatchSignature)
| pi (batch : BatchSignature)
| check5 (batch : BatchSignature) (values : Bytes)
| send5 (batch : BatchSignature) (values : Bytes)
| done

/- Where `handle_pi` is. -/
inductive PiAt (n : Nat) where
| wait
| input (leader : Fin n) (values : Bytes)
    (batch : BatchSignature) (okSign : Signature)
| pis (leader : Fin n)
    (batch : BatchSignature) (okSign : Signature)
| ok (okSign : Signature)
| count
| test
| push (okBatch : BatchSignature)
| close
| done

/- Where `send_share` is. -/
inductive SendAt where
| wait
| check (batch : BatchSignature)
| mine (batch : BatchSignature)
| send (batch : BatchSignature)
| done

/- Where `handle_share` is, with `share_count`. -/
inductive ShareAt where
| wait (count : Nat) (shareReady : Bool)
| append (count : Nat) (shareReady : Bool)
    (share : Signature) (ss : BatchSignature)
| push (count : Nat) (ss : BatchSignature)
| close (count : Nat)
| test (count : Nat)
| coin
| done

/-
  Where `handle_finish` is, up to its prevote; a prevote yes
  has the values that have been read for it.
-/
inductive FinishAt (n : Nat) where
| coin
| pis (coin : Fin n)
| halt (coin : Fin n)
| sigmas (coin : Fin n)
| values (coin : Fin n)
| check (coin : Fin n) (prev : Option Bytes)
| send (coin : Fin n) (prev : Option Bytes)
| after (coin : Fin n)
| done

/- `mineHash` is the variable `PBC1msgHash` of the own PBC. -/
structure Loop (n : Nat) where
  inputs : Fin n → Bytes
  sigmas : Fin n → BatchSignature
  pis : Fin n → BatchSignature
  ok : List Signature
  piCount : Nat
  shareReady : List BatchSignature
  shareMine : List Msg
  shares : List Signature
  shareBatch : BatchSignature
  pbcDone : Bool
  mvbaDone : Bool
  coinReady : List (Fin n)
  pbc : Fin n → PbcAt
  mine : MineAt
  mineHash : Bytes
  pi : PiAt n
  send : SendAt
  share : ShareAt
  finish : FinishAt n
  sent : List (Packet n)

variable {n : Nat}

namespace Loop

/- A loop before its goroutines have started. -/
def new (id : Fin n) (input : Bytes) : Loop n where
  inputs := Function.update (fun _ => []) id input
  sigmas := fun _ => ⟨[], []⟩
  pis := fun _ => ⟨[], []⟩
  ok := []
  piCount := 0
  shareReady := []
  shareMine := []
  shares := []
  shareBatch := ⟨[], []⟩
  pbcDone := false
  mvbaDone := false
  coinReady := []
  pbc := Function.update (fun _ => .wait1) id .done
  mine := .start
  mineHash := []
  pi := .wait
  send := .wait
  share := .wait 0 true
  finish := .coin
  sent := []

/- Where the broadcast of a leader is. -/
def setPbc
    (s : Loop n) (leader : Fin n) (pc : PbcAt) : Loop n :=
  { s with pbc := Function.update s.pbc leader pc }

/- What is sent goes to the parties it is for. -/
def post (s : Loop n) (packet : Packet n) : Loop n :=
  { s with sent := s.sent ++ [packet] }

end Loop

end Goroutines

end SpeedingMVBA

end Jumbo

------------------------------------------------------------
-- Own Steps
------------------------------------------------------------

namespace Jumbo

namespace SpeedingMVBA

namespace Goroutines

open Crypto (Bytes)
open Struct

variable {n : Nat}
variable (cfg : Config n) (l : Nat) (id : Fin n) (s : Loop n)

/- `handle_PBC`: the certificate is stored, then looked past. -/
def pbcStep (leader : Fin n) : Option (Loop n) :=
  match s.pbc leader with
  | .store1 values =>
      some
        { s.setPbc leader (.check2 (cfg.sha values)) with
          inputs := Function.update s.inputs leader values }
  | .check2 hash =>
      some
        (s.setPbc leader
          (if s.pbcDone || s.mvbaDone then .done
          else .send2 hash))
  | .send2 hash =>
      let rawMsg := cfg.rawMsg .pbc2 leader hash l
      some
        ((s.setPbc leader (.wait3 hash)).post
          (SpeedingMVBA.send id leader
            { rawMsg := rawMsg
              sign := some (sign cfg id (cfg.marshal rawMsg)) }))
  | .store3 hash batch =>
      some
        { s.setPbc leader (.check4 hash) with
          sigmas := Function.update s.sigmas leader batch }
  | .check4 hash =>
      some
        (s.setPbc leader
          (if s.pbcDone || s.mvbaDone then .done
          else .send4 hash))
  | .send4 hash =>
      let rawMsg := cfg.rawMsg .pbc4 leader hash l
      some
        ((s.setPbc leader .done).post
          (SpeedingMVBA.send id leader
            { rawMsg := rawMsg
              sign := some (sign cfg id (cfg.marshal rawMsg)) }))
  | _ => none

/- `handle_mine_PBC` between its two collections. -/
def mineStep : Option (Loop n) :=
  let okBytes := cfg.tagged l .ok
  let stops := s.pbcDone || s.mvbaDone
  match s.mine with
  | .start =>
      some
        { s with
          mineHash := cfg.sha (s.inputs id)
          mine := .wait2 [] }
  | .store batch =>
      some
        { s with
          sigmas := Function.update s.sigmas id batch
          mine := .check3 batch }
  | .check3 batch =>
      some
        { s with mine := if stops then .done else .send3 batch }
  | .send3 batch =>
      some
        ({ s with mine := .wait4 [] }.post
          (broadcast id
            { rawMsg := cfg.rawMsg .pbc3 id s.mineHash l
              ss := some batch }))
  | .ok batch =>
      some
        { s with
          ok := s.ok ++ [sign cfg id okBytes]
          mine := .count batch }
  | .count batch =>
      some
        { s with piCount := s.piCount + 1, mine := .test batch }
  | .test batch =>
      if maxCount n < s.piCount then
        (batchSign cfg okBytes s.ok).map fun okBatch =>
          { s with mine := .push batch okBatch }
      else some { s with mine := .pi batch }
  | .push batch okBatch =>
      some
        { s with
          shareReady := s.shareReady ++ [okBatch]
          mine := .close batch }
  | .close batch =>
      some { s with pbcDone := true, mine := .pi batch }
  | .pi batch =>
      some { s with mine := .check5 batch (s.inputs id) }
  | .check5 batch values =>
      some
        { s with
          mine :=
            if s.mvbaDone then .done else .send5 batch values }
  | .send5 batch values =>
      some
        ({ s with mine := .done }.post
          (broadcast id
            { rawMsg := cfg.rawMsg .pi id values l
              sign := some (sign cfg id okBytes)
              ss := some batch }))
  | _ => none

/- `handle_pi`, with a message that has been checked. -/
def piStep : Option (Loop n) :=
  match s.pi with
  | .input leader values batch okSign =>
      some
        { s with
          inputs := Function.update s.inputs leader values
          pi := .pis leader batch okSign }
  | .pis leader batch okSign =>
      some
        { s with
          pis := Function.update s.pis leader batch
          pi := .ok okSign }
  | .ok okSign =>
      some { s with ok := s.ok ++ [okSign], pi := .count }
  | .count =>
      some { s with piCount := s.piCount + 1, pi := .test }
  | .test =>
      if maxCount n < s.piCount then
        (batchSign cfg (cfg.tagged l .ok) s.ok).map
          fun okBatch => { s with pi := .push okBatch }
      else some { s with pi := .wait }
  | .push okBatch =>
      some
        { s with
          shareReady := s.shareReady ++ [okBatch]
          pi := .close }
  | .close => some { s with pbcDone := true, pi := .done }
  | _ => none

/- The share of the party with its certificate. -/
def shareMsg (batch : BatchSignature) : Msg where
  rawMsg := cfg.rawMsg .share id [] l
  sign := some (sign cfg id (cfg.share l))
  ss := some batch

/- `send_share`. -/
def sendStep : Option (Loop n) :=
  match s.send with
  | .wait =>
      match s.shareReady with
      | [] => none
      | batch :: rest =>
          some { s with shareReady := rest, send := .check batch }
  | .check batch =>
      some
        { s with
          send := if s.mvbaDone then .done else .mine batch }
  | .mine batch =>
      some
        { s with
          shareMine := s.shareMine ++ [shareMsg cfg l id batch]
          send := .send batch }
  | .send batch =>
      some
        ({ s with send := .done }.post
          (broadcast id (shareMsg cfg l id batch)))
  | .done => none

/- `handle_share`; the first share closes `PBC_done`. -/
def shareStep : Option (Loop n) :=
  match s.share with
  | .wait count shareReady =>
      match s.shareMine with
      | [] => none
      | msg :: rest => do
          let share ← msg.sign
          let ss ← msg.ss
          some
            { s with
              shareMine := rest
              share := .append (count + 1) shareReady share ss }
  | .append count shareReady share ss =>
      some
        { s with
          shares := s.shares ++ [share]
          share :=
            if shareReady then .push count ss else .test count }
  | .push count ss =>
      some
        { s with
          shareReady := s.shareReady ++ [ss]
          share := .close count }
  | .close count =>
      some { s with pbcDone := true, share := .test count }
  | .test count =>
      if maxCount n < count then
        (batchSign cfg (cfg.share l) s.shares).map fun batch =>
          { s with shareBatch := batch, share := .coin }
      else some { s with share := .wait count false }
  | .coin =>
      some
        { s with
          coinReady := s.coinReady ++ [cfg.coin l]
          share := .done }
  | .done => none

/-
  `handle_finish`, up to its prevote. The certificate of a
  prevote yes is a pointer that is followed when it is sent.
-/
def finishStep (oldProof : List Proof) : Option (Loop n) :=
  match s.finish with
  | .coin =>
      match s.coinReady with
      | [] => none
      | coin :: rest =>
          some { s with coinReady := rest, finish := .pis coin }
  | .pis coin =>
      some
        { s with
          finish :=
            if maxCount n ≤ (s.pis coin).mems.length then
              .halt coin
            else .sigmas coin }
  | .halt coin =>
      if s.mvbaDone then some { s with finish := .done }
      else
        some
          ({ s with mvbaDone := true, finish := .done }.post
            (broadcast id
              { rawMsg :=
                  cfg.rawMsg .halt coin (s.inputs coin) l
                ss := some (s.pis coin)
                ss2 := some s.shareBatch }))
  | .sigmas coin =>
      some
        { s with
          finish :=
            if maxCount n ≤ (s.sigmas coin).mems.length then
              .values coin
            else .check coin none }
  | .values coin =>
      some
        { s with finish := .check coin (some (s.inputs coin)) }
  | .check coin prev =>
      some
        { s with
          finish := if s.mvbaDone then .done else .send coin prev }
  | .send coin prev =>
      let msg : Msg :=
        match prev with
        | some values =>
            { rawMsg := cfg.rawMsg .prevYes id values l
              ss := some (s.sigmas coin)
              oldProof := oldProof }
        | none =>
            { rawMsg := cfg.rawMsg .prevNo id [] l
              sign := some (sign cfg id (cfg.tagged l .prevno))
              oldProof := oldProof }
      some
        ({ s with finish := .after coin }.post
          (broadcast id msg))
  | _ => none

/-
  The rest of `handle_finish` stores values and certificates
  for the coin; here any of them.
-/
def voteStep
    (values : Bytes) (batch : BatchSignature) :
    Option (Loop n) :=
  match s.finish with
  | .after coin =>
      some
        { s with
          inputs := Function.update s.inputs coin values
          sigmas := Function.update s.sigmas coin batch }
  | _ => none

------------------------------------------------------------
-- Messages
------------------------------------------------------------

/- `handle_PBC` reads an input and checks it. -/
def receivePBC1
    (oldCoins : List (Fin n)) (leader : Fin n) (msg : Msg) :
    Option (Loop n) :=
  match s.pbc leader with
  | .wait1 =>
      if cfg.checkInput msg.rawMsg.values then
        (checkValues cfg oldCoins l msg).map fun _ =>
          s.setPbc leader (.store1 msg.rawMsg.values)
      else if cfg.rbc then some (s.setPbc leader .done)
      else none
  | _ => none

/- `handle_PBC` reads a combined signature and checks it. -/
def receivePBC3 (leader : Fin n) (msg : Msg) :
    Option (Loop n) :=
  match s.pbc leader with
  | .wait3 hash =>
      if hash = msg.rawMsg.values then
        (accept cfg
          (cfg.marshal (cfg.rawMsg .pbc2 leader hash l))
          msg.ss).map fun cert =>
            s.setPbc leader (.store3 hash cert.2)
      else none
  | _ => none

/- An answer to the own first message. -/
def receivePBC2 (msg : Msg) : Option (Loop n) :=
  match s.mine with
  | .wait2 signs =>
      if s.mineHash = msg.rawMsg.values then do
        let bytes :=
          cfg.marshal (cfg.rawMsg .pbc2 id s.mineHash l)
        let got ← acceptSign cfg bytes msg.sign
        let signs := signs ++ [got]
        if maxCount n ≤ signs.length then
          (batchSign cfg bytes
            (signs ++ [sign cfg id bytes])).map fun batch =>
              { s with mine := .store batch }
        else some { s with mine := .wait2 signs }
      else none
  | _ => none

/- An answer to the own third message. -/
def receivePBC4 (msg : Msg) : Option (Loop n) :=
  match s.mine with
  | .wait4 signs =>
      if s.mineHash = msg.rawMsg.values then do
        let bytes :=
          cfg.marshal (cfg.rawMsg .pbc4 id s.mineHash l)
        let got ← acceptSign cfg bytes msg.sign
        let signs := signs ++ [got]
        if maxCount n ≤ signs.length then
          (batchSign cfg bytes
            (signs ++ [sign cfg id bytes])).map fun batch =>
              { s with mine := .ok batch }
        else some { s with mine := .wait4 signs }
      else none
  | _ => none

/- A proof of some leader. -/
def receivePi (msg : Msg) : Option (Loop n) :=
  match s.pi with
  | .wait => do
      let leader ← index n msg.rawMsg.id
      let cert ← accept cfg
        (cfg.marshal
          (cfg.rawMsg .pbc4 leader (cfg.sha msg.rawMsg.values)
            l))
        msg.ss
      let okSign ← acceptSign cfg (cfg.tagged l .ok) msg.sign
      some
        { s with
          pi :=
            .input leader msg.rawMsg.values cert.2 okSign }
  | _ => none

/- A share of the coin. -/
def receiveShare (msg : Msg) : Option (Loop n) :=
  match s.share with
  | .wait count shareReady => do
      let cert ← accept cfg (cfg.tagged l .ok) msg.ss
      let share ← acceptSign cfg (cfg.share l) msg.sign
      some
        { s with
          share :=
            .append (count + 1) shareReady share cert.2 }
  | _ => none

/-
  A message of the loop, for the goroutine it is for. Those
  for the votes come after the prevote.
-/
def receive (oldCoins : List (Fin n)) (msg : Msg) :
    Option (Loop n) :=
  if msg.rawMsg.round = cfg.round ∧ msg.rawMsg.loop = l then
    match msg.rawMsg.type with
    | .pbc1 =>
        (index n msg.rawMsg.id).bind fun leader =>
          receivePBC1 cfg l s oldCoins leader msg
    | .pbc2 => receivePBC2 cfg l id s msg
    | .pbc3 =>
        (index n msg.rawMsg.id).bind fun leader =>
          receivePBC3 cfg l s leader msg
    | .pbc4 => receivePBC4 cfg l id s msg
    | .pi => receivePi cfg l s msg
    | .share => receiveShare cfg l s msg
    | _ => none
  else none

------------------------------------------------------------
-- Runs
------------------------------------------------------------

/-
  `oldCoins` and `oldProof` are of earlier loops, and any
  other goroutine of the round may close `MVBA_done`.
-/
inductive Action (n : Nat) where
| pbc (leader : Fin n)
| mine
| pi
| send
| share
| finish (oldProof : List Proof)
| vote (values : Bytes) (batch : BatchSignature)
| receive (oldCoins : List (Fin n)) (msg : Msg)
| halt

/- A statement of one of the goroutines. -/
def step : Action n → Option (Loop n)
| .pbc leader => pbcStep cfg l id s leader
| .mine => mineStep cfg l id s
| .pi => piStep cfg l s
| .send => sendStep cfg l id s
| .share => shareStep cfg l s
| .finish oldProof => finishStep cfg l id s oldProof
| .vote values batch => voteStep s values batch
| .receive oldCoins msg => receive cfg l id s oldCoins msg
| .halt => some { s with mvbaDone := true }

/- The loop `l` at every party, each with its own input. -/
def machine (input : Fin n → Bytes) :
    Protocol.Machine (Fin n → Loop n) (Fin n × Action n) where
  init := fun id => Loop.new id (input id)
  exec := fun s (id, a) =>
    (step cfg l id (s id) a).map (Function.update s id)

end Goroutines

end SpeedingMVBA

end Jumbo
