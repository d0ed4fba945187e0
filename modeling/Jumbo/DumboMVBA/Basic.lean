import Mathlib.Data.List.FinRange
import Jumbo.Lib.MerkleTree
import Jumbo.Struct

/-
  The dispersal of proposals and their reconstruction.

  A party that proposes cuts its proposal into shards, sends
  every party its shard with a path to the root of a tree
  over the shards, and collects signatures on the root. What
  has been decided is put together again from shards. A step
  that panics has no result.

  The coding library and the marshalling of what is signed
  are parameters. `hashed` and `signed` only record.

  Main declarations:
    * `verifyPath`
    * `checkInput`
    * `handleMineDispersal` and `handleResponse`
    * `handleDispersal`
    * `handleReconstruct` and `handleShard`
-/

------------------------------------------------------------
-- Messages
------------------------------------------------------------

namespace Jumbo

namespace DumboMVBA

open Crypto (Bytes)
open Protocol
open Struct

/- The fields that are marshalled to be signed. -/
structure SignMsg where
  id : Int32
  round : Int32
  type : Int32
  msglen : Int32
  values : List Bytes
deriving DecidableEq

/- A message with a signature or a certificate. -/
structure DumbomvbaMsg extends SignMsg where
  sign : Option Signature
  ss : Option BatchSignature
deriving DecidableEq

/- The parts that are not in the repository, and the hash. -/
structure Config (n : Nat) where
  prim : Crypto.Primitives n
  type : Crypto.SignatureType
  sign : Fin n → Bytes → Bytes
  sha : Bytes → Bytes
  marshal : SignMsg → Bytes
  -- split and encode into `n` shards
  encode : Bytes → Option (List Bytes)
  -- fill in the shards that are empty, and verify
  recover : List Bytes → Option (List Bytes)

/- The number of shards with data. -/
def threshold (n : Nat) : Nat :=
  (n + 2) / 3

/- What has been decided: `ID`, `root` and `msglen`. -/
structure Decision where
  id : Int32
  root : Bytes
  msglen : Int32
deriving DecidableEq

end DumboMVBA

end Jumbo

------------------------------------------------------------
-- Paths
------------------------------------------------------------

namespace Jumbo

namespace DumboMVBA

open Crypto (Bytes)
open Protocol
open Struct

/-
  The loop of `VerifyPath`: the last element of the path is
  compared with what has been hashed. The index is an `int`,
  and division rounds to zero.
-/
def verifyLoop (sha : Bytes → Bytes) :
    Int → Bytes → List Bytes → Bool
| _, _, [] => false
| _, lasthash, [hash] => lasthash = hash
| k, lasthash, hash :: rest =>
    verifyLoop sha (k.tdiv 2)
      (if k.tmod 2 = 0 then sha (lasthash ++ hash)
        else sha (hash ++ lasthash))
      rest

/- `VerifyPath`; a path must have three parts at least. -/
def verifyPath
    (sha : Bytes → Bytes) (root : Bytes) (path : List Bytes)
    (index : Int) : Bool :=
  if path.length < 3 then false
  else if path.getLast? ≠ some root then false
  else
    match path with
    | [] => false
    | shard :: rest => verifyLoop sha index (sha shard) rest

/- `GetMerklePath`: the shard, the way up and the root. -/
def getMerklePath
    (levels : List (List Bytes)) (root : Bytes)
    (shards : List Bytes) (shard : Bytes) : List Bytes :=
  match shards.findIdx? (· = shard) with
  | none => [shard, root]
  | some i => shard :: (MerkleTree.path levels i ++ [root])

end DumboMVBA

end Jumbo

------------------------------------------------------------
-- The Party in a Round
------------------------------------------------------------

namespace Jumbo

namespace DumboMVBA

open Crypto (Bytes)
open Protocol
open Struct

variable {n : Nat}

/-
  `handled` and `count` are the counters of the loops over
  dispersals and over shards. `input` is what is handed to
  the agreement, `returned` what the reconstruction returns;
  no bytes stand for nil.
-/
structure Dumbomvba (n : Nat) where
  mymsg : Bytes
  mypath : List Bytes
  paths : Fin n → Option (List Bytes)
  shards : Fin n → Bytes
  handled : Nat
  signatures : List Bytes
  mems : List Int32
  input : Option DumbomvbaMsg
  decided : Option Decision
  count : Nat
  returned : Option (Bytes × Bool)
  sent : List (Fin n × DumbomvbaMsg)
  signed : List SignMsg
  hashed : List Bytes

namespace Dumbomvba

/- A round before its first message. -/
def new : Dumbomvba n where
  mymsg := []
  mypath := []
  paths := fun _ => none
  shards := fun _ => []
  handled := 0
  signatures := []
  mems := []
  input := none
  decided := none
  count := 0
  returned := none
  sent := []
  signed := []
  hashed := []

end Dumbomvba

/- The number of a party, as it is sent. -/
def number (id : Fin n) : Int32 :=
  Int32.ofNat (id.val + 1)

/- `Check_input`; a message without certificate panics. -/
def checkInput
    (cfg : Config n) (msg : DumbomvbaMsg) : Option Bool :=
  match msg.ss with
  | none => none
  | some batch =>
      Crypto.batchSignatureVerify cfg.prim cfg.type
        batch.signs (cfg.marshal msg.toSignMsg) batch.mems

/- A message to all other parties. -/
def broadcast
    (id : Fin n) (msg : DumbomvbaMsg) :
    List (Fin n × DumbomvbaMsg) :=
  ((List.finRange n).filter (· ≠ id)).map fun i => (i, msg)

section Mine

variable (cfg : Config n) (id : Fin n) (round : Nat)
variable (dm : Dumbomvba n)

/- The first part of `Handle_Mine_Dispersal`, made once. -/
def handleMineDispersal (msg : Bytes) :
    Option (Dumbomvba n) :=
  if dm.mypath ≠ [] then none
  else do
    let shards ← cfg.encode msg
    let (levels, root) ← MerkleTree.newTree cfg.sha shards
    let paths ←
      (List.finRange n).mapM fun i =>
        shards[i.val]?.map
          (getMerklePath levels root shards)
    let mypath ← paths[id.val]?
    pure
      { dm with
        mymsg := msg
        mypath := mypath
        sent :=
          dm.sent ++
            (((List.finRange n).zip paths).filter
              (·.1 ≠ id)).map fun (i, path) =>
                (i,
                  { id := number id
                    round := Int32.ofNat round
                    type := 20
                    msglen := Int32.ofNat msg.length
                    values := path
                    sign := none
                    ss := none })
        hashed := dm.hashed ++ MerkleTree.hashed shards levels }

/- What the responses to a dispersal sign. -/
def signValue : SignMsg where
  id := number id
  round := Int32.ofNat round
  type := 20
  msglen := Int32.ofNat dm.mymsg.length
  values := dm.mypath.getLast?.toList

/-
  The second part: a response that does not verify panics,
  and the number verified need not be the one recorded.
-/
def handleResponse (msg : DumbomvbaMsg) :
    Option (Dumbomvba n) :=
  if dm.mypath = [] ∨ dm.input ≠ none then none
  else do
    let sender ← Crypto.key n msg.id
    let sign ← msg.sign
    let signByte := cfg.marshal (signValue id round dm)
    let res ←
      Crypto.verify cfg.prim cfg.type sender sign.content
        signByte
    if res then
      let signatures := dm.signatures ++ [sign.content]
      let mems := dm.mems ++ [sign.id]
      if threshold n < signatures.length then
        let batchSig ←
          Crypto.batchSignature cfg.prim cfg.type signatures
            signByte mems
        some
          { dm with
            signatures := signatures
            mems := mems
            input :=
              some
                { signValue id round dm with
                  sign := none
                  ss := some ⟨batchSig, mems⟩ } }
      else
        some { dm with signatures := signatures, mems := mems }
    else none

end Mine

section Dispersal

variable (cfg : Config n) (id : Fin n) (round : Nat)
variable (dm : Dumbomvba n)

/- What is hashed when a path is verified. -/
def hashedPath
    (sha : Bytes → Bytes) (path : List Bytes) (index : Nat) :
    List Bytes :=
  match path with
  | [] => []
  | shard :: rest =>
      shard ::
        MerkleTree.climbed sha index (sha shard) rest.dropLast

/-
  `Handle_Dispersal` of one message. The sender is not
  looked at, and a path held for the number is replaced.
-/
def handleDispersal (msg : DumbomvbaMsg) :
    Option (Dumbomvba n) :=
  if dm.handled ≠ 0 ∧ dm.handled = n - 1 then none
  else
    match msg.values.getLast? with
    | none => none
    | some root =>
        if verifyPath cfg.sha root msg.values id.val then
          (Crypto.key n msg.id).map fun i =>
            let signMsg : SignMsg :=
              { id := msg.id
                round := Int32.ofNat round
                type := 20
                msglen := msg.msglen
                values := [root] }
            { dm with
              paths := Function.update dm.paths i msg.values
              handled := dm.handled + 1
              signed := dm.signed ++ [signMsg]
              hashed :=
                dm.hashed ++
                  hashedPath cfg.sha msg.values id.val
              sent :=
                dm.sent ++
                  [(i,
                    { id := number id
                      round := Int32.ofNat round
                      type := 21
                      msglen := 0
                      values := []
                      sign :=
                        some
                          ⟨number id,
                            cfg.sign id
                              (cfg.marshal signMsg)⟩
                      ss := none })] }
        else none

end Dispersal

section Reconstruct

variable (cfg : Config n) (id : Fin n) (round : Nat)
variable (dm : Dumbomvba n)

/- The message that hands on a shard. -/
def reconstructMsg
    (msglen : Int32) (path : List Bytes) : DumbomvbaMsg where
  id := number id
  round := Int32.ofNat round
  type := 22
  msglen := msglen
  values := path
  sign := none
  ss := none

/-
  `Handle_Reconstruct` up to its loop. A party whose own
  number has been decided returns what it has dispersed.
-/
def handleReconstruct (d : Decision) :
    Option (Dumbomvba n) :=
  if dm.decided ≠ none then none
  else if d.id.toInt = id.val + 1 then
    some
      { dm with
        decided := some d
        returned := some (dm.mymsg, true)
        sent :=
          dm.sent ++
            broadcast id
              (reconstructMsg id round
                (Int32.ofNat dm.mymsg.length) dm.mypath) }
  else
    (Crypto.key n d.id).map fun i =>
      { dm with
        decided := some d
        sent :=
          dm.sent ++
            match dm.paths i with
            | none => []
            | some path =>
                broadcast id
                  (reconstructMsg id round d.msglen path) }

/-
  The loop of `Reconstruct` over the shards, for as many
  bytes as asked for.
-/
def takeOut (msglen : Int) :
    List Bytes → Nat → Bytes → Option Bytes
| [], i, out =>
    if i < msglen then none
    else if out.length < msglen then none
    else some out
| shard :: shards, i, out =>
    if i < msglen then
      let out := out ++ shard.take (msglen.toNat - out.length)
      if msglen ≤ out.length then some out
      else takeOut msglen shards (i + 1) out
    else if out.length < msglen then none
    else some out

/- Enough shards: the end of `Handle_Reconstruct`. -/
def finish (d : Decision) : Option (Dumbomvba n) := do
  let shards ← cfg.recover ((List.finRange n).map dm.shards)
  let input ← takeOut d.msglen.toInt shards 0 []
  let (levels, root) ← MerkleTree.newTree cfg.sha shards
  pure
    { dm with
      returned :=
        some (if root = d.root then (input, true) else ([], false))
      hashed := dm.hashed ++ MerkleTree.hashed shards levels }

/-
  A shard that arrives. Its path has to end at the root; how
  long it is and whether the shard is new is not checked.
-/
def handleShard (msg : DumbomvbaMsg) :
    Option (Dumbomvba n) :=
  match dm.decided, dm.returned with
  | some d, none =>
      if verifyPath cfg.sha d.root msg.values
          (msg.id.toInt - 1) then
        (Crypto.key n msg.id).bind fun i =>
          let dm : Dumbomvba n :=
            { dm with
              shards :=
                Function.update dm.shards i
                  (msg.values.headD [])
              count := dm.count + 1
              hashed :=
                dm.hashed ++
                  hashedPath cfg.sha msg.values i.val }
          if threshold n ≤ dm.count then finish cfg dm d
          else some dm
      else some dm
  | _, _ => none

end Reconstruct

end DumboMVBA

end Jumbo
