import Jumbo.ReliableBroadcast.Basic
import Jumbo.DumboMVBA.Basic

/-
  The handlers of a follower of the coded reliable broadcast.

  The broadcaster sends every party its shard of the payload
  with a path to the root of a tree over the shards. A party
  hands the path on with its ECHO; from enough of them the
  payload is put together again and checked against the root.
  A handler that panics or ends the process has no result.

  Main declarations:
    * `RBCMsg`
    * `HandleVal.read`
    * `HandleEcho.read`
    * `HandleReady.read`
-/

------------------------------------------------------------
-- Messages
------------------------------------------------------------

namespace Jumbo

namespace CodedBroadcast

open Crypto (Bytes)
open ReliableBroadcast (threshold increment ReadyFired)
open DumboMVBA (verifyPath takeOut)
open Protocol

/- A VAL, ECHO or READY message, by the fields it uses. -/
structure RBCMsg where
  id : Int32
  round : Int
  msglen : Int32
  values : List Bytes
  root : Bytes
deriving DecidableEq

/- The hash and the decoder, as far as they are used here. -/
structure Config (n : Nat) where
  sha : Bytes → Bytes
  -- fill in the shards that are empty, and verify
  recover : List Bytes → Option (List Bytes)

/- A payload that has been put together. -/
structure Candidate where
  root : Bytes
  output : Bytes
deriving DecidableEq, Repr

variable {n : Nat}

end CodedBroadcast

end Jumbo

------------------------------------------------------------
-- VAL
------------------------------------------------------------

namespace Jumbo

namespace CodedBroadcast

open Crypto (Bytes)
open DumboMVBA (verifyPath)
open Protocol

variable {n : Nat}

/-
  What `handle_val` does: it keeps messages of later rounds
  and sends an ECHO for each of its own. A VAL is a READY of
  the broadcaster for the round before.
-/
structure HandleVal where
  futurebuf : List RBCMsg
  echoes : List RBCMsg

/- The handler before its first message. -/
def HandleVal.new : HandleVal := ⟨[], []⟩

/- `send_echo`. -/
def echoMsg (nid : Fin n) (height : Int) (msg : RBCMsg) :
    RBCMsg where
  id := DumboMVBA.number nid
  round := height
  msglen := msg.msglen
  values := msg.values
  root := []

/- An ECHO is sent for a VAL whose path is right. -/
def HandleVal.read
    (cfg : Config n) (nid : Fin n) (height : Int)
    (g : HandleVal) (msg : RBCMsg) : Option HandleVal :=
  if msg.round = height - 1 then
    match msg.values.getLast? with
    | none => none
    | some root =>
        if verifyPath cfg.sha root msg.values nid.val then
          some { g with
            echoes := g.echoes ++ [echoMsg nid height msg] }
        else none
  else if height - 1 < msg.round then
    some { g with futurebuf := g.futurebuf ++ [msg] }
  else some g

end CodedBroadcast

end Jumbo

------------------------------------------------------------
-- ECHO
------------------------------------------------------------

namespace Jumbo

namespace CodedBroadcast

open Crypto (Bytes)
open ReliableBroadcast (threshold)
open DumboMVBA (verifyPath takeOut)
open Protocol

variable {n : Nat}

/- What has been received for a root. -/
structure EchoBuf (n : Nat) where
  count : Nat
  shards : Fin n → Bytes
  rootvalid : Bool

/- The local variables of `handle_echo`. -/
structure HandleEcho (n : Nat) where
  echomap : Bytes → Option (EchoBuf n)
  echocount : Nat
  futurebuf : List RBCMsg
  candidates : List Candidate
  readysignal : List Bytes
  returned : Bool

/- The handler before its first message. -/
def HandleEcho.new : HandleEcho n where
  echomap := fun _ => none
  echocount := 0
  futurebuf := []
  candidates := []
  readysignal := []
  returned := false

/- The shards in the order of the parties. -/
def EchoBuf.list (buf : EchoBuf n) : List Bytes :=
  (List.finRange n).map buf.shards

/- Store a shard; the first one of a root makes the entry. -/
def EchoBuf.store
    (buf : Option (EchoBuf n)) (i : Fin n) (shard : Bytes) :
    EchoBuf n :=
  match buf with
  | some buf =>
      { buf with
        count := buf.count + 1
        shards := Function.update buf.shards i shard }
  | none =>
      ⟨1, Function.update (fun _ => []) i shard, false⟩

/-
  With `f + 1` shards the payload is put together, in place,
  and the root is computed again.
-/
def EchoBuf.decode
    (cfg : Config n) (root : Bytes) (msglen : Int32)
    (buf : EchoBuf n) :
    Option (EchoBuf n × List Candidate) :=
  if buf.count = threshold n + 1 then do
    let shards ← cfg.recover buf.list
    let output ← takeOut msglen.toInt shards 0 []
    let (_, computed) ← MerkleTree.newTree cfg.sha shards
    if computed = root then
      some
        ({ buf with
            shards := fun i => shards.getD i.val []
            rootvalid := true },
          [⟨root, output⟩])
    else none
  else some (buf, [])

/- With `2f + 1` of them READY is signalled. -/
def EchoBuf.signal (buf : EchoBuf n) : Option Bool :=
  if buf.count = threshold n * 2 + 1 then
    if buf.rootvalid then some true else none
  else some false

/- An ECHO of the height. -/
def HandleEcho.readOwn
    (cfg : Config n) (g : HandleEcho n) (msg : RBCMsg) :
    Option (HandleEcho n) :=
  match msg.values.getLast? with
  | none => none
  | some root =>
      if verifyPath cfg.sha root msg.values
          (msg.id.toInt - 1) then do
        let i ← Crypto.key n msg.id
        let stored :=
          EchoBuf.store (g.echomap root) i
            (msg.values.headD [])
        let (buf, candidates) ←
          stored.decode cfg root msg.msglen
        let signalled ← buf.signal
        some { g with
          echomap := Function.update g.echomap root (some buf)
          echocount := g.echocount + 1
          candidates := g.candidates ++ candidates
          readysignal :=
            if signalled then g.readysignal ++ [root]
            else g.readysignal
          returned :=
            signalled || decide (g.echocount + 1 = n) }
      else none

/- One message of `handle_echo`. -/
def HandleEcho.read
    (cfg : Config n) (height : Int) (g : HandleEcho n)
    (msg : RBCMsg) : Option (HandleEcho n) :=
  if msg.round = height then g.readOwn cfg msg
  else
    some { g with
      futurebuf :=
        if height < msg.round then g.futurebuf ++ [msg]
        else g.futurebuf
      returned := decide (g.echocount = n) }

end CodedBroadcast

end Jumbo

------------------------------------------------------------
-- READY
------------------------------------------------------------

namespace Jumbo

namespace CodedBroadcast

open Crypto (Bytes)
open ReliableBroadcast (threshold increment)
open Protocol

variable {n : Nat}

/- The local variables of `handle_ready`. -/
structure HandleReady where
  readymap : Bytes → Nat
  futurebuf : List RBCMsg
  readysignal : List Bytes
  outputsignal : List Bytes
  returned : Bool

/- The handler before its first message. -/
def HandleReady.new : HandleReady where
  readymap := fun _ => 0
  futurebuf := []
  readysignal := []
  outputsignal := []
  returned := false

/- Readies are counted for each root on its own. -/
def HandleReady.read
    (n : Nat) (height : Int) (g : HandleReady)
    (msg : RBCMsg) : HandleReady :=
  if height < msg.round then
    { g with futurebuf := g.futurebuf ++ [msg] }
  else if msg.round = height then
    let readymap := increment g.readymap msg.root
    let output :=
      decide (readymap msg.root = threshold n * 2 + 1)
    { g with
      readymap := readymap
      readysignal :=
        if readymap msg.root = threshold n + 1 then
          g.readysignal ++ [msg.root]
        else g.readysignal
      outputsignal :=
        if output then g.outputsignal ++ [msg.root]
        else g.outputsignal
      returned := output }
  else g

end CodedBroadcast

end Jumbo
