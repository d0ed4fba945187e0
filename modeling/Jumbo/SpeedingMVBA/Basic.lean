import Mathlib.Data.List.FinRange
import Jumbo.Struct

/-
  One party of the speeding MVBA.

  A loop has a goroutine for the first broadcast of every
  leader, one for the own broadcast, and one each for pi,
  for the own share, for shares and to finish. Where each of
  them waits is part of the state of the loop. A handler runs
  from one message to the next; where the first broadcast
  looks at `PBC_done` before it sends, that is a step of its
  own, and so is storing the coin after it has been sent.
  `handle_halt` stores the coin of a halt in one step and
  adopts the halt in another. A step that panics has no
  result.

  Loops and rounds are counted without a bound, and so are
  the numbers of parties in messages. Marshalling and the
  check of an input from outside are parameters.

  Main declarations:
    * `Msg` and `Config`
    * `LoopInfo` and `MVBA`
    * `checkValues`
    * `handlePBC`, `handleMinePBC`, `handlePi`
    * `sendShare` and `handleShare`
    * `handleCoin`, `countPrev` and `countVotes`
    * `handleHalt` and `adoptHalt`
    * `receive` and `partyStep`
-/

------------------------------------------------------------
-- Messages
------------------------------------------------------------

namespace Jumbo

namespace SpeedingMVBA

open Crypto (Bytes)
open Struct

/- Types 1 to 11; any other type panics in the router. -/
inductive MsgType where
| pbc1
| pbc2
| pbc3
| pbc4
| pi
| share
| prevYes
| prevNo
| voteYes
| voteNo
| halt
deriving DecidableEq, Repr

/- The part of a message that is signed. -/
structure RawMsg where
  id : Int
  round : Nat
  type : MsgType
  values : Bytes
  loop : Nat
deriving DecidableEq

/- What a party shows for its input in the next loop. -/
structure Proof where
  type : Bool
  batchSigns : Option BatchSignature
deriving DecidableEq

/- A field that is not set is nil. -/
structure Msg where
  rawMsg : RawMsg
  sign : Option Signature := none
  ss : Option BatchSignature := none
  ss2 : Option BatchSignature := none
  oldProof : List Proof := []
deriving DecidableEq

/- A message and the parties it is sent to. -/
structure Packet (n : Nat) where
  src : Fin n
  msg : Msg
  dest : Fin n → Bool

/-
  The signatures, the hash, the round, the coins and the
  validator.
-/
structure Config (n : Nat) where
  pos : 0 < n
  prim : Crypto.Primitives n
  type : Crypto.SignatureType
  sign : Fin n → Bytes → Bytes
  sha : Bytes → Bytes
  marshal : RawMsg → Bytes
  round : Nat
  mvbaRound : Nat
  -- RBC and WRBC; with the other types a wrong input panics
  rbc : Bool
  checkInput : Bytes → Bool

variable {n : Nat}

/- `Node_num * 2 / 3`. -/
def maxCount (n : Nat) : Nat :=
  n * 2 / 3

/- The party with a number, where an index is in range. -/
def index (n : Nat) (id : Int) : Option (Fin n) :=
  if hRange : 1 ≤ id ∧ id ≤ n then
    some ⟨(id - 1).toNat, by omega⟩
  else none

/- The four strings that are signed in a loop. -/
inductive Tag where
| ok
| share
| prevno
| voteno
deriving DecidableEq, Repr

/- The tags as the source has them. -/
def Tag.bytes : Tag → Bytes
| .ok => [111, 107]
| .share => [115, 104, 97, 114, 101]
| .prevno => [112, 114, 101, 118, 110, 111]
| .voteno => [118, 111, 116, 101, 110, 111]

/- `%d` of a number. -/
def digits (k : Nat) : Bytes :=
  (Nat.toDigits 10 k).map fun c => UInt8.ofNat c.toNat

namespace Config

variable (cfg : Config n)

/- `%d%d%d%s` of round, loop, MVBA round and tag. -/
def tagged (l : Nat) (tag : Tag) : Bytes :=
  digits cfg.round ++ digits l ++ digits cfg.mvbaRound ++
    tag.bytes

/- The string that a share of the coin signs. -/
def share (l : Nat) : Bytes :=
  cfg.sha (cfg.tagged l .share)

/- The share as a number, modulo the number of parties. -/
def coin (l : Nat) : Fin n :=
  ⟨(cfg.share l).foldl (fun acc b => acc * 256 + b.toNat) 0 %
      n,
    Nat.mod_lt _ cfg.pos⟩

/- A message of this round. -/
def rawMsg
    (type : MsgType) (id : Fin n) (values : Bytes)
    (l : Nat) : RawMsg where
  id := id.val + 1
  round := cfg.round
  type := type
  values := values
  loop := l

end Config

end SpeedingMVBA

end Jumbo

------------------------------------------------------------
-- Signatures
------------------------------------------------------------

namespace Jumbo

namespace SpeedingMVBA

open Crypto (Bytes)
open Struct

variable {n : Nat} (cfg : Config n)

/- `sign` and `signRaw`. -/
def sign (id : Fin n) (msg : Bytes) : Signature :=
  ⟨Int32.ofNat (id.val + 1), cfg.sign id msg⟩

/- `batchSign` and `batchSignRaw`. -/
def batchSign
    (msg : Bytes) (signs : List Signature) :
    Option BatchSignature :=
  let mems := signs.map (·.id)
  (Crypto.batchSignature cfg.prim cfg.type
    (signs.map (·.content)) msg mems).map fun signs =>
      ⟨signs, mems⟩

/- `verifySign` and `verifySign_RawMsg`. -/
def verifySign
    (msg : Bytes) (sign : Signature) : Option Bool :=
  (Crypto.key n sign.id).bind fun id =>
    Crypto.verify cfg.prim cfg.type id sign.content msg

/- `verifySigns` and `verifySigns_RawMsg`. -/
def verifySigns
    (msg : Bytes) (batch : BatchSignature) : Option Bool :=
  Crypto.batchSignatureVerify cfg.prim cfg.type batch.signs
    msg batch.mems

/- A certificate with what it is for. -/
abbrev Cert :=
  Bytes × BatchSignature

/- The certificate of a message, when it verifies. -/
def accept (msg : Bytes) (ss : Option BatchSignature) :
    Option Cert :=
  ss.bind fun batch =>
    if verifySigns cfg msg batch = some true then
      some (msg, batch)
    else none

/- The signature of a message, when it verifies. -/
def acceptSign (msg : Bytes) (sign : Option Signature) :
    Option Signature :=
  sign.bind fun sign =>
    if verifySign cfg msg sign = some true then some sign
    else none

/- The certificates for voting no from loop `l` on. -/
def noCerts (l : Nat) :
    List Proof → Option (List Cert)
| [] => some []
| proof :: rest =>
    if proof.type then none
    else do
      let cert ← accept cfg (cfg.tagged l .voteno)
        proof.batchSigns
      let certs ← noCerts (l + 1) rest
      some (cert :: certs)

/-
  `check_values`, with the certificates that it has checked.
  Where it returns false its caller panics.
-/
def checkValues
    (oldCoins : List (Fin n)) (l : Nat) (msg : Msg) :
    Option (List Cert) :=
  if l = 0 then some []
  else
    match msg.oldProof with
    | [] => none
    | proof :: rest =>
        if proof.type then
          if msg.oldProof.length ≤ l then do
            let oldloop := l - msg.oldProof.length
            let oldcoin ← oldCoins[oldloop]?
            let cert ← accept cfg
              (cfg.marshal
                (cfg.rawMsg .pbc2 oldcoin
                  (cfg.sha msg.rawMsg.values) oldloop))
              proof.batchSigns
            let certs ← noCerts cfg (oldloop + 1) rest
            some (cert :: certs)
          else none
        else if msg.oldProof.length = l then
          noCerts cfg 0 msg.oldProof
        else none

end SpeedingMVBA

end Jumbo

------------------------------------------------------------
-- State
------------------------------------------------------------

namespace Jumbo

namespace SpeedingMVBA

open Crypto (Bytes)
open Struct

/- Where `handle_PBC` is, with `PBC1msgHash`. -/
inductive PBC where
| wait1
| send2 (hash : Bytes)
| wait3 (hash : Bytes)
| send4 (hash : Bytes)
| done
deriving DecidableEq

/- Where `handle_mine_PBC` is, with the signatures so far. -/
inductive MinePBC where
| wait2 (hash : Bytes) (signs : List Signature)
| send3 (hash : Bytes) (batch : BatchSignature)
| wait4 (hash : Bytes) (signs : List Signature)
| done
deriving DecidableEq

/-
  Where `handle_finish` is. A loop that is left for the next
  one is at `next`, one that is not at `done`.
-/
inductive Finish (n : Nat) where
| coin
| prev (coin : Fin n) (yesFlag : Bool)
    (noCombins : List Signature) (prevCount : Nat)
| vote (coin : Fin n)
    (voteYesCombine voteNoCombine : List Signature)
| next
| done
deriving DecidableEq

/-
  `loopInfo` and its goroutines. A certificate that has not
  been stored has no members.
-/
structure LoopInfo (n : Nat) where
  inputs : Fin n → Bytes
  sigmas : Fin n → BatchSignature
  pis : Fin n → BatchSignature
  ok : List Signature
  shares : List Signature
  shareBatch : BatchSignature
  pbcDone : Bool
  coinReady : Option (Fin n)
  piCount : Nat
  shareReady : List BatchSignature
  shareMine : Option Msg
  lastinput : Bytes
  pbc : Fin n → PBC
  mine : MinePBC
  handlesPi : Bool
  sendsShare : Bool
  handlesShare : Bool
  -- `handle_share` has sent the coin and not yet stored it
  storesCoin : Bool
  -- `share_ready` of `handle_share`
  firstShare : Bool
  finish : Finish n

/-
  An entry of `OldProofs`: a pointer to the combined
  signature that a loop holds for a party, or a batch.
-/
inductive OldProof (n : Nat) where
| sigma (l : Nat) (coin : Fin n)
| no (batch : BatchSignature)
deriving DecidableEq

/-
  Where `handle_halt` is. It stores the coin of a halt before
  it looks at the rest of it.
-/
inductive HaltAt where
| waits
| stored (msg : Msg)
| done
deriving DecidableEq

/- A party with its loops and with what it keeps over them. -/
structure MVBA (n : Nat) where
  loop : Nat
  -- how many loops `Launch` has started
  started : Nat
  loops : Nat → LoopInfo n
  oldProofs : List (OldProof n)
  oldCoins : List (Fin n)
  mvbaDone : Bool
  halt : HaltAt
  outputs : List Msg
  -- all goroutines have returned
  returned : Bool

/-
  What a step leaves and sends. `accepted` and `assembled`
  only record certificates.
-/
structure Effect (n : Nat) where
  mvba : MVBA n
  sent : List (Packet n) := []
  accepted : List Cert := []
  assembled : List Cert := []

variable {n : Nat}

namespace LoopInfo

/- A loop of the party `id` with its input. -/
def new (cfg : Config n) (id : Fin n) (input : Bytes) :
    LoopInfo n where
  inputs := Function.update (fun _ => []) id input
  sigmas := fun _ => ⟨[], []⟩
  pis := fun _ => ⟨[], []⟩
  ok := []
  shares := []
  shareBatch := ⟨[], []⟩
  pbcDone := false
  coinReady := none
  piCount := 0
  shareReady := []
  shareMine := none
  lastinput := input
  pbc := Function.update (fun _ => .wait1) id .done
  mine := .wait2 (cfg.sha input) []
  handlesPi := true
  sendsShare := true
  handlesShare := true
  storesCoin := false
  firstShare := true
  finish := .coin

end LoopInfo

namespace MVBA

/- A party that has not started. -/
def new (cfg : Config n) (id : Fin n) : MVBA n where
  loop := 0
  started := 0
  loops := fun _ => LoopInfo.new cfg id []
  oldProofs := []
  oldCoins := []
  mvbaDone := false
  halt := .waits
  outputs := []
  returned := false

/- What a goroutine of a loop has changed. -/
def setLoop (m : MVBA n) (l : Nat) (li : LoopInfo n) :
    MVBA n :=
  { m with loops := Function.update m.loops l li }

/- What an entry of `OldProofs` is when it is sent. -/
def proof (m : MVBA n) : OldProof n → Proof
| .sigma l coin => ⟨true, some ((m.loops l).sigmas coin)⟩
| .no batch => ⟨false, some batch⟩

/- A step of a loop that accepts and assembles nothing. -/
def leave
    (m : MVBA n) (l : Nat) (li : LoopInfo n)
    (sent : List (Packet n)) : Effect n :=
  ⟨m.setLoop l li, sent, [], []⟩

end MVBA

/- `send` to one party. -/
def send (id dst : Fin n) (msg : Msg) : Packet n :=
  ⟨id, msg, fun q => q = dst⟩

/- `broadcast` to all parties but oneself. -/
def broadcast (id : Fin n) (msg : Msg) : Packet n :=
  ⟨id, msg, fun q => q ≠ id⟩

end SpeedingMVBA

end Jumbo

------------------------------------------------------------
-- The First Broadcast
------------------------------------------------------------

namespace Jumbo

namespace SpeedingMVBA

open Crypto (Bytes)
open Struct

variable {n : Nat}
variable (cfg : Config n) (id : Fin n) (m : MVBA n)
variable (l : Nat)

section PBC

variable (leader : Fin n)

/- `handle_PBC` takes the input of its leader. -/
def handlePBC1 (msg : Msg) : Option (Effect n) :=
  let li := m.loops l
  if li.pbc leader ≠ .wait1 then none
  else if cfg.checkInput msg.rawMsg.values then
    (checkValues cfg m.oldCoins l msg).map fun certs =>
      { mvba :=
          m.setLoop l
            { li with
              inputs :=
                Function.update li.inputs leader
                  msg.rawMsg.values
              pbc :=
                Function.update li.pbc leader
                  (.send2 (cfg.sha msg.rawMsg.values)) }
        accepted := certs }
  else if cfg.rbc then
    some
      (m.leave l
        { li with
          pbc := Function.update li.pbc leader .done } [])
  else none

/- The answer to the first message of a leader. -/
def sendPBC2 : Option (Effect n) :=
  let li := m.loops l
  match li.pbc leader with
  | .send2 hash =>
      if li.pbcDone || m.mvbaDone then
        some
          (m.leave l
            { li with
              pbc := Function.update li.pbc leader .done } [])
      else
        let rawMsg := cfg.rawMsg .pbc2 leader hash l
        some
          (m.leave l
            { li with
              pbc :=
                Function.update li.pbc leader (.wait3 hash) }
            [send id leader
              { rawMsg := rawMsg
                sign := some (sign cfg id (cfg.marshal rawMsg)) }])
  | _ => none

/- The combined signature is stored before it is answered. -/
def handlePBC3 (msg : Msg) : Option (Effect n) :=
  let li := m.loops l
  match li.pbc leader with
  | .wait3 hash =>
      if hash = msg.rawMsg.values then
        (accept cfg
          (cfg.marshal (cfg.rawMsg .pbc2 leader hash l))
          msg.ss).map fun cert =>
            { mvba :=
                m.setLoop l
                  { li with
                    sigmas :=
                      Function.update li.sigmas leader cert.2
                    pbc :=
                      Function.update li.pbc leader
                        (.send4 hash) }
              accepted := [cert] }
      else none
  | _ => none

/- The answer to its third message. -/
def sendPBC4 : Option (Effect n) :=
  let li := m.loops l
  match li.pbc leader with
  | .send4 hash =>
      let li' : LoopInfo n :=
        { li with pbc := Function.update li.pbc leader .done }
      if li.pbcDone || m.mvbaDone then
        some (m.leave l li' [])
      else
        let rawMsg := cfg.rawMsg .pbc4 leader hash l
        some
          (m.leave l li'
            [send id leader
              { rawMsg := rawMsg
                sign := some (sign cfg id (cfg.marshal rawMsg)) }])
  | _ => none

/- `handle_PBC` waits, and `PBC_done` is closed. -/
def returnPBC : Option (Effect n) :=
  let li := m.loops l
  let returns : Option (Effect n) :=
    if li.pbcDone then
      some
        (m.leave l
          { li with
            pbc := Function.update li.pbc leader .done } [])
    else none
  match li.pbc leader with
  | .wait1 => returns
  | .wait3 _ => returns
  | _ => none

end PBC

section MinePBC

/- `handle_mine_PBC` collects signatures on its input. -/
def handleMinePBC2 (msg : Msg) : Option (Effect n) :=
  let li := m.loops l
  match li.mine with
  | .wait2 hash signs =>
      if hash = msg.rawMsg.values then do
        let bytes :=
          cfg.marshal (cfg.rawMsg .pbc2 id hash l)
        let got ← acceptSign cfg bytes msg.sign
        let signs := signs ++ [got]
        if maxCount n ≤ signs.length then
          let batch ←
            batchSign cfg bytes (signs ++ [sign cfg id bytes])
          some
            { mvba :=
                m.setLoop l
                  { li with
                    sigmas :=
                      Function.update li.sigmas id batch
                    mine := .send3 hash batch }
              assembled := [(bytes, batch)] }
        else
          some
            (m.leave l { li with mine := .wait2 hash signs } [])
      else none
  | _ => none

/- The party sends its third message. -/
def sendPBC3 : Option (Effect n) :=
  let li := m.loops l
  match li.mine with
  | .send3 hash batch =>
      if li.pbcDone || m.mvbaDone then
        some (m.leave l { li with mine := .done } [])
      else
        some
          (m.leave l { li with mine := .wait4 hash [] }
            [broadcast id
              { rawMsg := cfg.rawMsg .pbc3 id hash l
                ss := some batch }])
  | _ => none

/- Another OK; enough of them are batched for the share. -/
def countPi (li : LoopInfo n) (okSign : Signature) :
    Option (LoopInfo n × List Cert) :=
  let li : LoopInfo n :=
    { li with
      ok := li.ok ++ [okSign]
      piCount := li.piCount + 1 }
  if maxCount n < li.piCount then
    (batchSign cfg (cfg.tagged l .ok) li.ok).map fun batch =>
      ({ li with
          shareReady := li.shareReady ++ [batch]
          pbcDone := true },
        [(cfg.tagged l .ok, batch)])
  else some (li, [])

/- With enough shares of pi the input is sent with them. -/
def handleMinePBC4 (msg : Msg) : Option (Effect n) :=
  let li := m.loops l
  match li.mine with
  | .wait4 hash signs =>
      if hash = msg.rawMsg.values then do
        let bytes :=
          cfg.marshal (cfg.rawMsg .pbc4 id hash l)
        let got ← acceptSign cfg bytes msg.sign
        let signs := signs ++ [got]
        if maxCount n ≤ signs.length then
          let batch ←
            batchSign cfg bytes (signs ++ [sign cfg id bytes])
          let okSign := sign cfg id (cfg.tagged l .ok)
          let (li, certs) ←
            countPi cfg l { li with mine := .done } okSign
          some
            { mvba := m.setLoop l li
              sent :=
                if m.mvbaDone then []
                else
                  [broadcast id
                    { rawMsg :=
                        cfg.rawMsg .pi id (li.inputs id) l
                      sign := some okSign
                      ss := some batch }]
              assembled := (bytes, batch) :: certs }
        else
          some
            (m.leave l { li with mine := .wait4 hash signs } [])
      else none
  | _ => none

/- `handle_mine_PBC` waits, and `PBC_done` is closed. -/
def returnMinePBC : Option (Effect n) :=
  let li := m.loops l
  let returns : Option (Effect n) :=
    if li.pbcDone then
      some (m.leave l { li with mine := .done } [])
    else none
  match li.mine with
  | .wait2 _ _ => returns
  | .wait4 _ _ => returns
  | _ => none

end MinePBC

end SpeedingMVBA

end Jumbo

------------------------------------------------------------
-- Pi and Shares
------------------------------------------------------------

namespace Jumbo

namespace SpeedingMVBA

open Crypto (Bytes)
open Struct

variable {n : Nat}
variable (cfg : Config n) (id : Fin n) (m : MVBA n)
variable (l : Nat)

/-
  `handle_pi` stores the values and the certificate for the
  party named, whatever is held for it.
-/
def handlePi (msg : Msg) : Option (Effect n) :=
  let li := m.loops l
  if li.handlesPi then do
    let leader ← index n msg.rawMsg.id
    let cert ← accept cfg
      (cfg.marshal
        (cfg.rawMsg .pbc4 leader (cfg.sha msg.rawMsg.values)
          l))
      msg.ss
    let okSign ← acceptSign cfg (cfg.tagged l .ok) msg.sign
    let (li, certs) ← countPi cfg l
      { li with
        inputs :=
          Function.update li.inputs leader msg.rawMsg.values
        pis := Function.update li.pis leader cert.2 }
      okSign
    some
      { mvba :=
          m.setLoop l
            { li with
              handlesPi := !decide (maxCount n < li.piCount) }
        accepted := [cert]
        assembled := certs }
  else none

/- `send_share` takes the first batch that is ready. -/
def sendShare : Option (Effect n) :=
  let li := m.loops l
  match li.sendsShare, li.shareReady with
  | true, batch :: rest =>
      if m.mvbaDone then
        some
          (m.leave l
            { li with sendsShare := false, shareReady := rest }
            [])
      else
        let msg : Msg :=
          { rawMsg := cfg.rawMsg .share id [] l
            sign := some (sign cfg id (cfg.share l))
            ss := some batch }
        some
          (m.leave l
            { li with
              sendsShare := false
              shareReady := rest
              shareMine := some msg }
            [broadcast id msg])
  | _, _ => none

/- A share is counted, and enough of them are the coin. -/
def countShare
    (share : Signature) (ss : BatchSignature)
    (certs : List Cert) : Option (Effect n) :=
  let li := m.loops l
  let li : LoopInfo n :=
    { li with
      shares := li.shares ++ [share]
      shareReady :=
        if li.firstShare then li.shareReady ++ [ss]
        else li.shareReady
      pbcDone := li.pbcDone || li.firstShare
      firstShare := false }
  if maxCount n < li.shares.length then
    (batchSign cfg (cfg.share l) li.shares).map fun batch =>
      { mvba :=
          m.setLoop l
            { li with
              shareBatch := batch
              coinReady := some (cfg.coin l)
              handlesShare := false
              storesCoin := true }
        accepted := certs
        assembled := [(cfg.share l, batch)] }
  else
    some
      { mvba := m.setLoop l li
        accepted := certs }

/- A share of another party is read. -/
def handleShare (msg : Msg) : Option (Effect n) :=
  if (m.loops l).handlesShare then do
    let cert ← accept cfg (cfg.tagged l .ok) msg.ss
    let share ← acceptSign cfg (cfg.share l) msg.sign
    countShare cfg m l share cert.2 [cert]
  else none

/- `handle_share` stores the coin that it has sent. -/
def storeCoin : Option (Effect n) :=
  let li := m.loops l
  if li.storesCoin then
    some
      { mvba :=
          { m.setLoop l { li with storesCoin := false } with
            oldCoins :=
              if m.oldCoins.length ≤ l then
                m.oldCoins ++ [cfg.coin l]
              else m.oldCoins } }
  else none

/- The own share is counted without a check. -/
def handleShareMine : Option (Effect n) :=
  let li := m.loops l
  if li.handlesShare then do
    let msg ← li.shareMine
    let share ← msg.sign
    let ss ← msg.ss
    countShare cfg
      (m.setLoop l { li with shareMine := none }) l share ss []
  else none

end SpeedingMVBA

end Jumbo

------------------------------------------------------------
-- Votes
------------------------------------------------------------

namespace Jumbo

namespace SpeedingMVBA

open Crypto (Bytes)
open Struct

variable {n : Nat}
variable (cfg : Config n) (id : Fin n) (m : MVBA n)
variable (l : Nat)

/- `handle_finish` halts, unless the round has halted. -/
def haltWith
    (li : LoopInfo n) (coin : Fin n) (ss : BatchSignature)
    (accepted assembled : List Cert) : Effect n :=
  let msg : Msg :=
    { rawMsg := cfg.rawMsg .halt coin (li.inputs coin) l
      ss := some ss
      ss2 := some li.shareBatch }
  if m.mvbaDone then
    { mvba := m.setLoop l { li with finish := .done }
      accepted := accepted
      assembled := assembled }
  else
    { mvba :=
        { m.setLoop l { li with finish := .done } with
          mvbaDone := true
          outputs := m.outputs ++ [msg] }
      sent := [broadcast id msg]
      accepted := accepted
      assembled := assembled }

/-
  With the coin: halt with the certificate of the party that
  it names, or tell whether its combined signature is held.
-/
def handleCoin : Option (Effect n) :=
  let li := m.loops l
  match li.finish, li.coinReady with
  | .coin, some coin =>
      if maxCount n ≤ (li.pis coin).mems.length then
        some
          (haltWith cfg id m l { li with coinReady := none }
            coin (li.pis coin) [] [])
      else
        let yesFlag :=
          decide (maxCount n ≤ (li.sigmas coin).mems.length)
        let noSign := sign cfg id (cfg.tagged l .prevno)
        let msg : Msg :=
          if yesFlag then
            { rawMsg :=
                cfg.rawMsg .prevYes id (li.inputs coin) l
              ss := some (li.sigmas coin)
              oldProof := m.oldProofs.map m.proof }
          else
            { rawMsg := cfg.rawMsg .prevNo id [] l
              sign := some noSign
              oldProof := m.oldProofs.map m.proof }
        if m.mvbaDone then
          some
            (m.leave l
              { li with coinReady := none, finish := .done } [])
        else
          some
            (m.leave l
              { li with
                coinReady := none
                finish :=
                  .prev coin yesFlag
                    (if yesFlag then [] else [noSign]) 0 }
              [broadcast id msg])
  | _, _ => none

/- The vote, when enough others have told. -/
def castVote
    (li : LoopInfo n) (coin : Fin n) (yesFlag : Bool)
    (noCombins : List Signature) (accepted : List Cert) :
    Option (Effect n) :=
  if yesFlag then
    let voteSign :=
      sign cfg id
        (cfg.marshal
          (cfg.rawMsg .pbc4 coin (cfg.sha (li.inputs coin)) l))
    some
      (if m.mvbaDone then
        { mvba := m.setLoop l { li with finish := .done }
          accepted := accepted }
      else
        { mvba :=
            m.setLoop l
              { li with finish := .vote coin [voteSign] [] }
          sent :=
            [broadcast id
              { rawMsg :=
                  cfg.rawMsg .voteYes coin (li.inputs coin) l
                sign := some voteSign
                ss := some (li.sigmas coin) }]
          accepted := accepted })
  else
    let bytes := cfg.tagged l .prevno
    let voteSign := sign cfg id (cfg.tagged l .voteno)
    (batchSign cfg bytes noCombins).map fun batch =>
      if m.mvbaDone then
        { mvba := m.setLoop l { li with finish := .done }
          accepted := accepted
          assembled := [(bytes, batch)] }
      else
        { mvba :=
            m.setLoop l
              { li with finish := .vote coin [] [voteSign] }
          sent :=
            [broadcast id
              { rawMsg := cfg.rawMsg .voteNo coin [] l
                sign := some voteSign
                ss := some batch }]
          accepted := accepted
          assembled := [(bytes, batch)] }

/- A party has told; the vote is cast when enough have. -/
def countPrev
    (li : LoopInfo n) (coin : Fin n) (yesFlag : Bool)
    (noCombins : List Signature) (prevCount : Nat)
    (accepted : List Cert) : Option (Effect n) :=
  if maxCount n ≤ prevCount then
    castVote cfg id m l li coin yesFlag noCombins accepted
  else
    some
      { mvba :=
          m.setLoop l
            { li with
              finish :=
                .prev coin yesFlag noCombins prevCount }
        accepted := accepted }

/- A combined signature that does not verify is passed over. -/
def handlePrevYes (msg : Msg) : Option (Effect n) :=
  let li := m.loops l
  match li.finish with
  | .prev coin yesFlag noCombins prevCount =>
      if yesFlag then
        countPrev cfg id m l li coin true noCombins
          (prevCount + 1) []
      else
        let bytes :=
          cfg.marshal
            (cfg.rawMsg .pbc2 coin (cfg.sha msg.rawMsg.values)
              l)
        msg.ss.bind fun batch =>
          (verifySigns cfg bytes batch).bind fun res =>
            if res then
              countPrev cfg id m l
                { li with
                  inputs :=
                    Function.update li.inputs coin
                      msg.rawMsg.values
                  sigmas :=
                    Function.update li.sigmas coin batch }
                coin true noCombins (prevCount + 1)
                [(bytes, batch)]
            else
              countPrev cfg id m l li coin false noCombins
                prevCount []
  | _ => none

/- A prevote against the coin is read. -/
def handlePrevNo (msg : Msg) : Option (Effect n) :=
  let li := m.loops l
  match li.finish with
  | .prev coin yesFlag noCombins prevCount =>
      if yesFlag then
        countPrev cfg id m l li coin true noCombins
          (prevCount + 1) []
      else
        (acceptSign cfg (cfg.tagged l .prevno)
          msg.sign).bind fun got =>
            countPrev cfg id m l li coin false
              (noCombins ++ [got]) (prevCount + 1) []
  | _ => none

/- `Loop++`, unless the round has halted. -/
def nextLoop
    (li : LoopInfo n) (proofs : List (OldProof n))
    (input : Bytes) (accepted assembled : List Cert) :
    Effect n :=
  let msg : Msg :=
    { rawMsg := cfg.rawMsg .pbc1 id input (l + 1)
      oldProof := proofs.map (m.setLoop l li).proof }
  { mvba :=
      if m.mvbaDone then
        { m.setLoop l { li with finish := .done } with
          oldProofs := proofs }
      else
        { m.setLoop l
            { li with lastinput := input, finish := .next } with
          oldProofs := proofs
          loop := m.loop + 1 }
    sent := [broadcast id msg]
    accepted := accepted
    assembled := assembled }

/-
  With enough votes: halt, keep the own input, or take the
  input that the coin names. `values` are those of the last
  vote.
-/
def countVotes
    (li : LoopInfo n) (coin : Fin n)
    (yes no : List Signature) (values : Bytes)
    (accepted : List Cert) : Option (Effect n) :=
  if maxCount n < yes.length + no.length then
    if maxCount n < yes.length then
      if 0 < (li.pis coin).mems.length then
        some
          (haltWith cfg id m l li coin (li.pis coin) accepted
            [])
      else
        let bytes :=
          cfg.marshal
            (cfg.rawMsg .pbc4 coin (cfg.sha values) l)
        (batchSign cfg bytes yes).map fun batch =>
          haltWith cfg id m l li coin batch accepted
            [(bytes, batch)]
    else if maxCount n < no.length then
      let bytes := cfg.tagged l .voteno
      (batchSign cfg bytes no).map fun batch =>
        nextLoop cfg id m l li
          (m.oldProofs ++ [.no batch])
          (li.inputs id) accepted [(bytes, batch)]
    else
      some
        (nextLoop cfg id m l li
          [.sigma l coin] (li.inputs coin) accepted [])
  else
    some
      { mvba :=
          m.setLoop l { li with finish := .vote coin yes no }
        accepted := accepted }

/- A vote for the coin is read. -/
def handleVoteYes (msg : Msg) : Option (Effect n) :=
  let li := m.loops l
  match li.finish with
  | .vote coin yes no => do
      let hash := cfg.sha msg.rawMsg.values
      let cert ← accept cfg
        (cfg.marshal (cfg.rawMsg .pbc2 coin hash l)) msg.ss
      let got ← acceptSign cfg
        (cfg.marshal (cfg.rawMsg .pbc4 coin hash l)) msg.sign
      countVotes cfg id m l
        { li with
          sigmas := Function.update li.sigmas coin cert.2
          inputs :=
            if (li.inputs coin).length = 0 then
              Function.update li.inputs coin msg.rawMsg.values
            else li.inputs }
        coin (yes ++ [got]) no msg.rawMsg.values [cert]
  | _ => none

/- A vote against the coin is read. -/
def handleVoteNo (msg : Msg) : Option (Effect n) :=
  let li := m.loops l
  match li.finish with
  | .vote coin yes no => do
      let cert ← accept cfg (cfg.tagged l .prevno) msg.ss
      let got ← acceptSign cfg (cfg.tagged l .voteno) msg.sign
      countVotes cfg id m l li coin yes (no ++ [got])
        msg.rawMsg.values [cert]
  | _ => none

/-
  `handle_halt` takes a halt message. The coin of the loop of
  the message goes where the party's own loop looks it up.
-/
def handleHalt (msg : Msg) : Option (Effect n) :=
  if m.halt = .waits then
    (accept cfg (cfg.share msg.rawMsg.loop) msg.ss2).map
      fun cert2 =>
        { mvba :=
            { m with
              oldCoins :=
                if m.oldCoins.length ≤ m.loop then
                  m.oldCoins ++ [cfg.coin msg.rawMsg.loop]
                else m.oldCoins
              halt := .stored msg }
          accepted := [cert2] }
  else none

/- It adopts the halt and passes it on, unless it is late. -/
def adoptHalt : Option (Effect n) :=
  match m.halt with
  | .stored msg =>
      let coin := cfg.coin msg.rawMsg.loop
      if msg.rawMsg.id = coin.val + 1 then
        (accept cfg
          (cfg.marshal
            (cfg.rawMsg .pbc4 coin (cfg.sha msg.rawMsg.values)
              msg.rawMsg.loop))
          msg.ss).map fun cert =>
            if m.mvbaDone then
              { mvba := { m with halt := .done }
                accepted := [cert] }
            else
              { mvba :=
                  { m with
                    halt := .done
                    mvbaDone := true
                    outputs := m.outputs ++ [msg] }
                sent := [broadcast id msg]
                accepted := [cert] }
      else none
  | _ => none

end SpeedingMVBA

end Jumbo

------------------------------------------------------------
-- Steps
------------------------------------------------------------

namespace Jumbo

namespace SpeedingMVBA

open Crypto (Bytes)
open Struct

/- `receive` hands a message to the goroutine it is for. -/
inductive PartyAction (n : Nat) where
| launch (input : Bytes)
| startLoop
| receive (msg : Msg)
| sendPBC2 (l : Nat) (leader : Fin n)
| sendPBC4 (l : Nat) (leader : Fin n)
| returnPBC (l : Nat) (leader : Fin n)
| sendPBC3 (l : Nat)
| returnMinePBC (l : Nat)
| sendShare (l : Nat)
| shareMine (l : Nat)
| storeCoin (l : Nat)
| coin (l : Nat)
| adoptHalt
| returnAll

variable {n : Nat}
variable (cfg : Config n) (id : Fin n) (m : MVBA n)

/- The input is sent, and the first loop is started. -/
def launch (input : Bytes) : Option (Effect n) :=
  if m.started = 0 then
    some
      { mvba :=
          { m.setLoop 0 (LoopInfo.new cfg id input) with
            started := 1 }
        sent :=
          [broadcast id
            { rawMsg := cfg.rawMsg .pbc1 id input 0 }] }
  else none

/- The loop of `Launch`, after `handle_finish`. -/
def startLoop : Option (Effect n) :=
  if 0 < m.started ∧ m.loop = m.started ∧ ¬ m.mvbaDone then
    some
      { mvba :=
          { m.setLoop m.started
              (LoopInfo.new cfg id
                (m.loops (m.started - 1)).lastinput) with
            started := m.started + 1 } }
  else none

/- A message for a goroutine of a loop that is started. -/
def receiveLoop (msg : Msg) : Option (Effect n) :=
  let l := msg.rawMsg.loop
  match msg.rawMsg.type with
  | .pbc1 =>
      (index n msg.rawMsg.id).bind fun leader =>
        handlePBC1 cfg m l leader msg
  | .pbc2 => handleMinePBC2 cfg id m l msg
  | .pbc3 =>
      (index n msg.rawMsg.id).bind fun leader =>
        handlePBC3 cfg m l leader msg
  | .pbc4 => handleMinePBC4 cfg id m l msg
  | .pi => handlePi cfg m l msg
  | .share => handleShare cfg m l msg
  | .prevYes => handlePrevYes cfg id m l msg
  | .prevNo => handlePrevNo cfg id m l msg
  | .voteYes => handleVoteYes cfg id m l msg
  | .voteNo => handleVoteNo cfg id m l msg
  | .halt => none

/-
  Messages of the round only. A message of a loop that has
  not been started waits in a buffer.
-/
def receive (msg : Msg) : Option (Effect n) :=
  if msg.rawMsg.round ≠ cfg.round ∨ m.started = 0 then none
  else if msg.rawMsg.type = .halt then handleHalt cfg m msg
  else if msg.rawMsg.loop < m.started then
    receiveLoop cfg id m msg
  else none

/- A step of a loop that is started. -/
def inLoop (l : Nat) (effect : Option (Effect n)) :
    Option (Effect n) :=
  if l < m.started then effect else none

/- A step of the goroutines of a party. -/
def partyStep : PartyAction n → Option (Effect n)
| .launch input => launch cfg id m input
| .startLoop => startLoop cfg id m
| .receive msg => receive cfg id m msg
| .sendPBC2 l leader =>
    inLoop m l (sendPBC2 cfg id m l leader)
| .sendPBC4 l leader =>
    inLoop m l (sendPBC4 cfg id m l leader)
| .returnPBC l leader => inLoop m l (returnPBC m l leader)
| .sendPBC3 l => inLoop m l (sendPBC3 cfg id m l)
| .returnMinePBC l => inLoop m l (returnMinePBC m l)
| .sendShare l => inLoop m l (sendShare cfg id m l)
| .shareMine l => inLoop m l (handleShareMine cfg m l)
| .storeCoin l => inLoop m l (storeCoin cfg m l)
| .coin l => inLoop m l (handleCoin cfg id m l)
| .adoptHalt => adoptHalt cfg id m
| .returnAll =>
    if m.mvbaDone then
      some ⟨{ m with returned := true }, [], [], []⟩
    else none

/- Nothing happens any more once all have returned. -/
def step (a : PartyAction n) : Option (Effect n) :=
  if m.returned then none else partyStep cfg id m a

end SpeedingMVBA

end Jumbo
