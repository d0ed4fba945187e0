import Jumbo.Lib.RelayMessages
import Jumbo.CodedBroadcast.Leader
import Jumbo.DumboMVBA.Reconstruction

/-
  What an output of the coded broadcast rests on.

  A follower outputs what it has put together for a root with
  enough READYs, and it announces one root for a height. The
  broadcaster outputs its own input when enough of the others
  are ready for its root. That a READY is not counted again
  for its sender is a condition on the steps: the handlers
  do not look.

  Main declarations:
    * `Decoding`
    * `FollowerOk`
    * `FollowerOk.exec`
    * `LeaderOk`
    * `LeaderOk.exec`
-/

------------------------------------------------------------
-- Decoding
------------------------------------------------------------

namespace Jumbo

namespace CodedBroadcast

open Crypto (Bytes)
open DumboMVBA (takeOut)
open ReliableBroadcast (threshold)
open Protocol
open Protocol.Relay

variable {n : Nat}

/- What a party has put together from ECHOs, and for whom. -/
structure Decoding where
  height : Nat
  root : Bytes
  msglen : Int32
  shards : List Bytes
deriving DecidableEq

/- The root and the shards, when an ECHO makes it decode. -/
def HandleEcho.decoded
    (cfg : Config n) (g : HandleEcho n) (msg : RBCMsg) :
    Option (Bytes × List Bytes) := do
  let root ← msg.values.getLast?
  let i ← Crypto.key n msg.id
  let stored :=
    EchoBuf.store (g.echomap root) i (msg.values.headD [])
  if stored.count = threshold n + 1 then
    (cfg.recover stored.list).map fun shards => (root, shards)
  else none

/- What a step of a follower puts together. -/
def BCF.decoding (cfg : Config n) (s : BCF n) :
    BCFAction → List Decoding
| .echo i .work =>
    match (s.echo.workers i).pc with
    | .holding msg =>
        if msg.round = i then
          match (s.echo.workers i).state.decoded cfg msg with
          | some (root, shards) =>
              [⟨i, root, msg.msglen, shards⟩]
          | none => []
        else []
    | _ => []
| _ => []

/- The READY that a step of a follower decides to send. -/
def BCF.announces (s : BCF n) : BCFAction → List (Nat × Bytes)
| .start =>
    match s.pc, s.readysignal with
    | .readysignal, root :: _ => [(s.height, root)]
    | _, _ => []
| _ => []

/- The tree over the shards recovered has the root. -/
def Rooted (cfg : Config n) (d : Decoding) : Prop :=
  (∃ given : Fin n → Bytes,
    cfg.recover ((List.finRange n).map given) =
      some d.shards) ∧
    ∃ levels,
      MerkleTree.newTree cfg.sha d.shards =
        some (levels, d.root)

/- What is output for a decoding. -/
def Yields
    (decodings : List Decoding) (height : Nat)
    (root output : Bytes) : Prop :=
  ∃ d ∈ decodings, d.height = height ∧ d.root = root ∧
    takeOut d.msglen.toInt d.shards 0 [] = some output

/- More decodings keep what is put out backed. -/
theorem Yields.mono
    {decodings more : List Decoding} {height : Nat}
    {root output : Bytes}
    (hYields : Yields decodings height root output) :
    Yields (decodings ++ more) height root output := by
  rcases hYields with ⟨d, hMem, hRest⟩
  exact ⟨d, List.mem_append_left _ hMem, hRest⟩

section Read

variable {cfg : Config n} {g g' : HandleEcho n}
variable {msg : RBCMsg}

/- Decoding succeeds only where the root is right. -/
theorem EchoBuf.decode_eq_some
    {buf buf' : EchoBuf n} {root : Bytes} {msglen : Int32}
    {candidates : List Candidate}
    (hDecode :
      buf.decode cfg root msglen = some (buf', candidates)) :
    (buf.count = threshold n + 1 →
      ∃ shards levels output,
        cfg.recover buf.list = some shards ∧
          takeOut msglen.toInt shards 0 [] = some output ∧
            MerkleTree.newTree cfg.sha shards =
                some (levels, root) ∧
              candidates = [⟨root, output⟩]) ∧
      (buf.count ≠ threshold n + 1 → candidates = []) := by
  unfold EchoBuf.decode at hDecode
  split at hDecode
  · rename_i hCount
    refine ⟨fun _ => ?_, fun hNot => absurd hCount hNot⟩
    rcases Option.bind_eq_some_iff.mp hDecode with
      ⟨shards, hRecover, hDecode⟩
    rcases Option.bind_eq_some_iff.mp hDecode with
      ⟨output, hTake, hDecode⟩
    rcases Option.bind_eq_some_iff.mp hDecode with
      ⟨⟨levels, computed⟩, hTree, hDecode⟩
    dsimp only at hDecode
    rcases Option.ite_none_right_eq_some.mp hDecode with
      ⟨hRoot, hEq⟩
    cases hEq
    rw [hRoot] at hTree
    exact ⟨shards, levels, output, hRecover, hTake, hTree, rfl⟩
  · rename_i hCount
    cases hDecode
    exact ⟨fun hNot => absurd hNot hCount, fun _ => rfl⟩

/- What is decoded when an ECHO is read. -/
theorem HandleEcho.decoded_eq
    {root : Bytes} {i : Fin n}
    (hLast : msg.values.getLast? = some root)
    (hKey : Crypto.key n msg.id = some i) :
    g.decoded cfg msg =
      if (EchoBuf.store (g.echomap root) i
          (msg.values.headD [])).count = threshold n + 1 then
        (cfg.recover
            (EchoBuf.store (g.echomap root) i
              (msg.values.headD [])).list).map
          fun shards => (root, shards)
      else none := by
  unfold HandleEcho.decoded
  rw [hLast, hKey]
  rfl

/- What reading an ECHO of the height has to do with it. -/
theorem HandleEcho.readOwn_decoded
    (hRead : g.readOwn cfg msg = some g') :
    (∀ root shards,
      g.decoded cfg msg = some (root, shards) →
        (∃ given : Fin n → Bytes,
          cfg.recover ((List.finRange n).map given) =
            some shards) ∧
          ∃ levels,
            MerkleTree.newTree cfg.sha shards =
              some (levels, root)) ∧
      ∀ cand ∈ g'.candidates,
        cand ∈ g.candidates ∨
          ∃ shards,
            g.decoded cfg msg = some (cand.root, shards) ∧
              takeOut msg.msglen.toInt shards 0 [] =
                some cand.output := by
  unfold HandleEcho.readOwn at hRead
  split at hRead
  · cases hRead
  · rename_i root hLast
    split at hRead
    · rcases Option.bind_eq_some_iff.mp hRead with
        ⟨i, hKey, hRead⟩
      rcases Option.bind_eq_some_iff.mp hRead with
        ⟨⟨buf, candidates⟩, hDecode, hRead⟩
      rcases Option.bind_eq_some_iff.mp hRead with
        ⟨signalled, _, hRead⟩
      cases hRead
      rw [HandleEcho.decoded_eq hLast hKey]
      rcases EchoBuf.decode_eq_some hDecode with ⟨hAt, hNot⟩
      by_cases hCount :
          (EchoBuf.store (g.echomap root) i
            (msg.values.headD [])).count = threshold n + 1
      · rcases hAt hCount with
          ⟨shards, levels, output, hRecover, hTake, hTree,
            hCandidates⟩
        rw [if_pos hCount, hRecover, Option.map_some]
        refine ⟨?_, ?_⟩
        · intro root' shards' hEq
          cases hEq
          exact ⟨⟨_, hRecover⟩, levels, hTree⟩
        · intro cand hMem
          rw [hCandidates] at hMem
          rcases List.mem_append.mp hMem with hOld | hNew
          · exact .inl hOld
          · cases List.mem_singleton.mp hNew
            exact .inr ⟨shards, rfl, hTake⟩
      · rw [if_neg hCount]
        refine ⟨?_, ?_⟩
        · intro root' shards' hEq
          cases hEq
        · intro cand hMem
          rw [hNot hCount, List.append_nil] at hMem
          exact .inl hMem
    · cases hRead

end Read

end CodedBroadcast

end Jumbo

------------------------------------------------------------
-- READYs Counted
------------------------------------------------------------

namespace Jumbo

namespace CodedBroadcast

open Crypto (Bytes)
open ReliableBroadcast (increment threshold)
open Protocol
open Protocol.Relay

variable {n : Nat}

/- The READYs for a root. -/
def readiesFor (root : Bytes) (msgs : List RBCMsg) :
    List RBCMsg :=
  msgs.filter fun msg => decide (msg.root = root)

/- The count of a root, each sender counted once. -/
structure Counted
    (i : Nat) (g : HandleReady) (handled : List RBCMsg) :
    Prop where
  own : ∀ msg ∈ handled, msg.round = i
  count :
    ∀ root, g.readymap root = (readiesFor root handled).length
  once :
    ∀ root, ((readiesFor root handled).map RBCMsg.id).Nodup

/- The message is not the second one of its sender. -/
def firstOf (handled : List RBCMsg) (msg : RBCMsg) : Bool :=
  handled.all fun other =>
    decide (other.root = msg.root → other.id ≠ msg.id)

/-
  The condition on reading a READY: none of its sender with
  its root has been counted for the round.
-/
def countsOnce
    {σ : Type} (ready : Lane RBCMsg σ) (i : Nat) : Bool :=
  match (ready.workers i).pc with
  | .holding msg =>
      decide (msg.round ≠ i) ||
        firstOf (ready.workers i).handled msg
  | _ => true

section Counted

variable {i : Nat} {g : HandleReady} {handled : List RBCMsg}
variable {msg : RBCMsg}

/- With the guard a counted READY is its sender's first. -/
theorem countsOnce_first
    {σ : Type} {ready : Lane RBCMsg σ}
    (hOnce : countsOnce ready i = true)
    (hPc : (ready.workers i).pc = .holding msg)
    (hOwn : msg.round = i) :
    firstOf (ready.workers i).handled msg = true := by
  unfold countsOnce at hOnce
  rw [hPc] at hOnce
  dsimp only at hOnce
  rw [decide_eq_false (not_not_intro hOwn),
    Bool.false_or] at hOnce
  exact hOnce

/- One READY more for a root. -/
theorem readiesFor_append (root : Bytes) :
    readiesFor root (handled ++ [msg]) =
      readiesFor root handled ++
        if msg.root = root then [msg] else [] := by
  unfold readiesFor
  rw [List.filter_append, List.filter_singleton]
  by_cases hRoot : msg.root = root
  · rw [if_pos hRoot, decide_eq_true hRoot]
    rfl
  · rw [if_neg hRoot, decide_eq_false hRoot]
    rfl

theorem counted_new (i : Nat) :
    Counted i HandleReady.new [] where
  own := List.forall_mem_nil _
  count _ := rfl
  once _ := List.nodup_nil

/- A first READY of its sender keeps senders apart. -/
theorem Counted.nodup_append
    (hCounted : Counted i g handled)
    (hFirst : firstOf handled msg = true) (root : Bytes) :
    ((readiesFor root (handled ++ [msg])).map
      RBCMsg.id).Nodup := by
  rw [readiesFor_append]
  split
  · rename_i hRoot
    rw [List.map_append, List.nodup_append]
    refine
      ⟨hCounted.once root, List.nodup_singleton _, ?_⟩
    intro id hMem other hOther hEq
    rcases List.mem_map.mp hMem with ⟨old, hOld, hId⟩
    cases List.mem_singleton.mp hOther
    rcases List.mem_filter.mp hOld with ⟨hHandled, hSame⟩
    have hApart :=
      of_decide_eq_true
        (List.all_eq_true.mp hFirst old hHandled)
    refine hApart ?_ (hId.trans hEq)
    rw [of_decide_eq_true hSame, hRoot]
  · rw [List.append_nil]
    exact hCounted.once root

/- What reading a READY does to the counts. -/
theorem Counted.read
    (hCounted : Counted i g handled)
    (hFirst :
      msg.round = i → firstOf handled msg = true) :
    Counted i (g.read n i msg)
        (if msg.round = i then handled ++ [msg]
          else handled) ∧
      ∀ root ∈ (g.read n i msg).outputsignal,
        root ∈ g.outputsignal ∨
          msg.round = i ∧
            (readiesFor root (handled ++ [msg])).length =
              threshold n * 2 + 1 := by
  unfold HandleReady.read
  split
  · rename_i hLater
    rw [if_neg (by omega)]
    exact
      ⟨⟨hCounted.own, hCounted.count, hCounted.once⟩,
        fun root hMem => .inl hMem⟩
  · split
    · rename_i hOwn
      dsimp only
      have hCount (root : Bytes) :
          increment g.readymap msg.root root =
            (readiesFor root (handled ++ [msg])).length := by
        rw [readiesFor_append, List.length_append,
          ← hCounted.count root,
          ReliableBroadcast.increment_apply]
        split
        · rfl
        · rfl
      refine ⟨⟨?_, hCount, ?_⟩, ?_⟩
      · intro other hMem
        rcases List.mem_append.mp hMem with hOld | hNew
        · exact hCounted.own other hOld
        · cases List.mem_singleton.mp hNew
          exact hOwn
      · exact hCounted.nodup_append (hFirst hOwn)
      · intro root hMem
        split at hMem
        · rename_i hFired
          rcases List.mem_append.mp hMem with hOld | hNew
          · exact .inl hOld
          · cases List.mem_singleton.mp hNew
            refine .inr ⟨hOwn, ?_⟩
            rw [← hCount]
            exact of_decide_eq_true hFired
        · exact .inl hMem
    · exact ⟨hCounted, fun root hMem => .inl hMem⟩

end Counted

end CodedBroadcast

end Jumbo

------------------------------------------------------------
-- A Follower
------------------------------------------------------------

namespace Jumbo

namespace CodedBroadcast

open Crypto (Bytes)
open ReliableBroadcast (threshold)
open DumboMVBA (takeOut)
open Protocol
open Protocol.Relay

variable {n : Nat}

/- READYs of `k` senders make a quorum for their root. -/
def Quorate
    (k : Nat) (auth : RBCMsg → Prop)
    (quorum : Nat → Bytes → Prop) : Prop :=
  ∀ (i : Nat) root (msgs : List RBCMsg),
    (∀ msg ∈ msgs,
      auth msg ∧ msg.round = i ∧ msg.root = root) →
      (msgs.map RBCMsg.id).Nodup →
        msgs.length = k → quorum i root

/- READY of this height has been decided on. -/
def BCF.Announced (s : BCF n) : Prop :=
  match s.pc with
  | .outputsignal => True
  | .candidate _ => True
  | .close => True
  | .next => True
  | _ => False

/-
  What holds of a follower. `auth` says of a message that it
  is genuine, `quorum` of a root that enough are ready.
-/
structure FollowerOk
    (cfg : Config n) (auth : RBCMsg → Prop)
    (quorum : Nat → Bytes → Prop) (s : BCF n)
    (announced : List (Nat × Bytes))
    (decodings : List Decoding) : Prop where
  past :
    ∀ x ∈ announced,
      x.1 < s.height ∨ x.1 = s.height ∧ s.Announced
  once :
    ∀ x ∈ announced, ∀ y ∈ announced, x.1 = y.1 → x = y
  readying : ∀ x ∈ s.readying, x ∈ announced
  genuine : s.ready.All auth
  counted : s.ready.Worked Counted
  signalled : ∀ root ∈ s.outputsignal, quorum s.height root
  candidate :
    ∀ root, s.pc = .candidate root → quorum s.height root
  candidates :
    ∀ cand ∈ s.candidateCH,
      Yields decodings s.height cand.root cand.output
  output :
    ∀ x ∈ s.output, ∃ root, quorum x.1 root ∧
      Yields decodings x.1 root x.2
  rooted : ∀ d ∈ decodings, Rooted cfg d

section Follower

variable {cfg : Config n} {nid : Fin n} {lid : Int32}
variable {auth auth' : RBCMsg → Prop}
variable {quorum quorum' : Nat → Bytes → Prop}
variable {s s' : BCF n} {announced : List (Nat × Bytes)}
variable {decodings : List Decoding}

theorem readyHandler_sendsOn : SendsOn (readyHandler n) := by
  intro stop i g msg reading hRead other hMem
  rw [readyHandler_later hRead] at hMem
  split at hMem
  · exact List.mem_singleton.mp hMem
  · cases hMem

/- A follower that has not started knows nothing. -/
theorem followerOk_init :
    FollowerOk cfg auth quorum (BCF.init cfg nid) [] [] where
  past := List.forall_mem_nil _
  once := List.forall_mem_nil _
  readying := List.forall_mem_nil _
  genuine := Lane.all_init
  counted := Lane.worked_init counted_new
  signalled := List.forall_mem_nil _
  candidate := by
    intro root hPc
    cases hPc
  candidates := List.forall_mem_nil _
  output := List.forall_mem_nil _
  rooted := List.forall_mem_nil _

/- More votes keep what a follower knows backed. -/
theorem FollowerOk.mono
    (hOk : FollowerOk cfg auth quorum s announced decodings)
    (hAuth : ∀ msg, auth msg → auth' msg)
    (hQuorum : ∀ i root, quorum i root → quorum' i root) :
    FollowerOk cfg auth' quorum' s announced decodings :=
  { hOk with
    genuine := hOk.genuine.mono hAuth
    signalled := fun root hMem =>
      hQuorum _ _ (hOk.signalled root hMem)
    candidate := fun root hPc =>
      hQuorum _ _ (hOk.candidate root hPc)
    output := by
      intro x hMem
      rcases hOk.output x hMem with ⟨root, hEnough, hYields⟩
      exact ⟨root, hQuorum _ _ hEnough, hYields⟩ }

/- Messages that come only have to be genuine. -/
theorem FollowerOk.readyIn
    (hOk : FollowerOk cfg auth quorum s announced decodings)
    {msg : RBCMsg} (hMsg : auth msg)
    (hExec : s.exec cfg nid lid (.readyIn msg) = some s') :
    FollowerOk cfg auth quorum s' announced decodings := by
  dsimp only [BCF.exec] at hExec
  split at hExec
  · cases hExec
    exact { hOk with genuine := hOk.genuine.arrive hMsg }
  · cases hExec
    exact hOk

/- An ECHO that comes is not counted yet. -/
theorem FollowerOk.echoIn
    (hOk : FollowerOk cfg auth quorum s announced decodings)
    {msg : RBCMsg}
    (hExec : s.exec cfg nid lid (.echoIn msg) = some s') :
    FollowerOk cfg auth quorum s' announced decodings := by
  dsimp only [BCF.exec] at hExec
  split at hExec
  · cases hExec
    exact { hOk with }
  · cases hExec
    exact hOk

/- The own READY is announced before it is sent. -/
theorem FollowerOk.sendReady
    (hOk : FollowerOk cfg auth quorum s announced decodings)
    (hOwn :
      ∀ x ∈ announced, auth (readyMsg nid x.1 x.2))
    {k : Nat}
    (hExec : s.exec cfg nid lid (.sendReady k) = some s') :
    FollowerOk cfg auth quorum s' announced decodings := by
  rcases Option.bind_eq_some_iff.mp hExec with
    ⟨⟨height, root⟩, hAt, hEq⟩
  cases hEq
  have hMem := hOk.readying _ (List.mem_of_getElem? hAt)
  refine
    { hOk with
      readying := ?_
      genuine := hOk.genuine.arrive (hOwn _ hMem) }
  intro x hx
  exact hOk.readying x (List.mem_of_mem_eraseIdx hx)

/- A VAL announces nothing. -/
theorem FollowerOk.val
    (hOk : FollowerOk cfg auth quorum s announced decodings)
    {i : Nat} {act : Act}
    (hExec : s.exec cfg nid lid (.val i act) = some s') :
    FollowerOk cfg auth quorum s' announced decodings := by
  rcases Option.bind_eq_some_iff.mp hExec with
    ⟨val, _, hEq⟩
  cases hEq
  exact { hOk with }

/- Where nothing is announced for a height yet. -/
theorem FollowerOk.before
    (hOk : FollowerOk cfg auth quorum s announced decodings)
    (hNot : ¬ s.Announced) :
    ∀ x ∈ announced, x.1 < s.height := by
  intro x hMem
  rcases hOk.past x hMem with hLt | ⟨_, hAnnounced⟩
  · exact hLt
  · exact absurd hAnnounced hNot

/- The first signal of a height is announced. -/
theorem FollowerOk.announce
    (hOk : FollowerOk cfg auth quorum s announced decodings)
    (hPc : s.pc = .readysignal)
    {root : Bytes} {rest : List Bytes} :
    FollowerOk cfg auth quorum
      { s with
        readysignal := rest
        readying := s.readying ++ [(s.height, root)]
        pc := .outputsignal }
      (announced ++ [(s.height, root)]) decodings := by
  have hBefore := hOk.before (by
    unfold BCF.Announced
    rw [hPc]
    exact not_false)
  refine
    { hOk with
      past := ?_
      once :=
        once_append hOk.once fun x hMem =>
          Nat.ne_of_lt (hBefore x hMem)
      readying := ?_
      candidate := fun other hAt => by cases hAt }
  · intro x hMem
    rcases List.mem_append.mp hMem with hOld | hNew
    · exact .inl (hBefore x hOld)
    · cases List.mem_singleton.mp hNew
      exact .inr ⟨rfl, trivial⟩
  · intro x hx
    rcases List.mem_append.mp hx with hOld | hNew
    · exact List.mem_append_left _ (hOk.readying x hOld)
    · exact List.mem_append_right _ hNew

/- A root that is signalled has a quorum. -/
theorem FollowerOk.decide
    (hOk : FollowerOk cfg auth quorum s announced decodings)
    {root : Bytes} {rest : List Bytes}
    (hSignal : s.outputsignal = root :: rest) :
    FollowerOk cfg auth quorum
      { s with
        outputsignal := rest
        pc := .candidate root }
      announced decodings := by
  have hEnough := hOk.signalled
  rw [hSignal] at hEnough
  refine
    { hOk with
      past := ?_
      signalled := fun other hMem =>
        hEnough other (List.mem_cons_of_mem _ hMem)
      candidate := ?_ }
  · intro x hMem
    exact (hOk.past x hMem).imp_right fun h => ⟨h.1, trivial⟩
  · intro other hAt
    cases hAt
    exact hEnough root List.mem_cons_self

/- The candidate with the root decided is put out. -/
theorem FollowerOk.deliver
    (hOk : FollowerOk cfg auth quorum s announced decodings)
    {cand : Candidate} {rest : List Candidate}
    (hPc : s.pc = .candidate cand.root)
    (hCandidates : s.candidateCH = cand :: rest) :
    FollowerOk cfg auth quorum
      { s with
        candidateCH := rest
        output := s.output ++ [(s.height, cand.output)]
        pc := .close }
      announced decodings := by
  have hYields := hOk.candidates
  rw [hCandidates] at hYields
  refine
    { hOk with
      past := ?_
      candidate := fun other hAt => by cases hAt
      candidates := fun other hMem =>
        hYields other (List.mem_cons_of_mem _ hMem)
      output := ?_ }
  · intro x hMem
    exact (hOk.past x hMem).imp_right fun h => ⟨h.1, trivial⟩
  · intro x hMem
    rcases List.mem_append.mp hMem with hOld | hNew
    · exact hOk.output x hOld
    · cases List.mem_singleton.mp hNew
      exact
        ⟨cand.root, hOk.candidate cand.root hPc,
          hYields cand List.mem_cons_self⟩

/- Before an announcement only the lanes are prepared. -/
theorem FollowerOk.prepare
    (hOk : FollowerOk cfg auth quorum s announced decodings)
    (hNot : ¬ s.Announced) (val : Lane RBCMsg HandleVal)
    (echo : Lane RBCMsg (HandleEcho n))
    {ready : Lane RBCMsg HandleReady}
    (hGenuine : ready.All auth)
    (hCounted : ready.Worked Counted)
    {pc : Pc} (hPc : ∀ root, pc ≠ .candidate root) :
    FollowerOk cfg auth quorum
      { s with
        val := val
        echo := echo
        ready := ready
        pc := pc }
      announced decodings :=
  { hOk with
    past := fun x hMem => .inl (hOk.before hNot x hMem)
    genuine := hGenuine
    counted := hCounted
    candidate := fun root hAt => absurd hAt (hPc root) }

/- The main loop announces a root it has a signal for. -/
theorem FollowerOk.start
    (hOk : FollowerOk cfg auth quorum s announced decodings)
    (hExec : s.start cfg nid = some s') :
    FollowerOk cfg auth quorum s'
      (announced ++ s.announces .start) decodings := by
  have hNot :
      s.pc = .val ∨ s.pc = .echo ∨ s.pc = .ready →
        ¬ s.Announced := by
    unfold BCF.Announced
    rintro (hPc | hPc | hPc)
    all_goals
      rw [hPc]
      exact not_false
  unfold BCF.announces
  unfold BCF.start at hExec
  split at hExec
  · rename_i hPc
    rcases Option.bind_eq_some_iff.mp hExec with
      ⟨val, _, hEq⟩
    cases hEq
    rw [hPc]
    dsimp only
    rw [List.append_nil]
    refine
      hOk.prepare (hNot (.inl hPc)) val s.echo hOk.genuine
        hOk.counted ?_
    split
    · nofun
    · nofun
  · rename_i hPc
    rcases Option.bind_eq_some_iff.mp hExec with
      ⟨echo, _, hEq⟩
    cases hEq
    rw [hPc]
    dsimp only
    rw [List.append_nil]
    refine
      hOk.prepare (hNot (.inr (.inl hPc))) s.val echo
        hOk.genuine hOk.counted ?_
    split
    · nofun
    · nofun
  · rename_i hPc
    rcases Option.bind_eq_some_iff.mp hExec with
      ⟨ready, hReady, hEq⟩
    cases hEq
    rw [hPc]
    dsimp only
    rw [List.append_nil]
    refine
      hOk.prepare (hNot (.inr (.inr hPc))) s.val s.echo
        (hOk.genuine.prepare hReady)
        (hOk.counted.prepare counted_new hReady) ?_
    split
    · nofun
    · nofun
  · rename_i hPc
    split at hExec
    · cases hExec
    · rename_i root rest hSignal
      cases hExec
      rw [hPc, hSignal]
      exact hOk.announce hPc
  · rename_i hPc
    split at hExec
    · cases hExec
    · rename_i root rest hSignal
      cases hExec
      rw [hPc]
      dsimp only
      rw [List.append_nil]
      exact hOk.decide hSignal
  · rename_i outroot hPc
    split at hExec
    · cases hExec
    · rename_i cand rest hCandidates
      split at hExec
      · rename_i hRoot
        cases hExec
        subst hRoot
        rw [hPc]
        dsimp only
        rw [List.append_nil]
        exact hOk.deliver hPc hCandidates
      · cases hExec
  · rename_i hPc
    rcases Option.bind_eq_some_iff.mp hExec with
      ⟨val, _, hRest⟩
    rcases Option.bind_eq_some_iff.mp hRest with
      ⟨echo, _, hRest⟩
    rcases Option.bind_eq_some_iff.mp hRest with
      ⟨ready, hReady, hEq⟩
    cases hEq
    rw [hPc]
    dsimp only
    rw [List.append_nil]
    refine
      { hOk with
        past := ?_
        genuine := hOk.genuine.close hReady
        counted :=
          hOk.counted.same (Lane.close_workers hReady)
        candidate := fun root hAt => by cases hAt }
    intro x hMem
    exact (hOk.past x hMem).imp_right fun h => ⟨h.1, trivial⟩
  · rename_i hPc
    rcases Option.bind_eq_some_iff.mp hExec with
      ⟨val, _, hRest⟩
    rcases Option.bind_eq_some_iff.mp hRest with
      ⟨echo, _, hRest⟩
    rcases Option.bind_eq_some_iff.mp hRest with
      ⟨ready, hReady, hEq⟩
    cases hEq
    rw [hPc]
    dsimp only
    rw [List.append_nil]
    refine
      { hOk with
        past := ?_
        genuine := hOk.genuine.next hReady
        counted :=
          hOk.counted.same (Lane.next_workers hReady)
        signalled := List.forall_mem_nil _
        candidate := fun root hAt => by cases hAt
        candidates := List.forall_mem_nil _ }
    intro x hMem
    rcases hOk.past x hMem with hLt | ⟨hEq, _⟩
    · exact .inl (Nat.lt_succ_of_lt hLt)
    · exact .inl (Nat.lt_succ_of_le (Nat.le_of_eq hEq))

/- What a step of the ECHO handler puts together. -/
theorem echo_work
    {i : Nat} {echo : Lane RBCMsg (HandleEcho n)}
    (hExec :
      s.echo.act (echoHandler cfg) i .work = some echo) :
    (∀ cand ∈ (echo.workers i).state.candidates,
      Yields (s.decoding cfg (.echo i .work)) i cand.root
        cand.output) ∧
      ∀ d ∈ s.decoding cfg (.echo i .work), Rooted cfg d := by
  dsimp only [Lane.act] at hExec
  split at hExec
  · rename_i msg hPc
    rcases Option.map_eq_some_iff.mp hExec with
      ⟨reading, hRead, hEq⟩
    rcases Option.map_eq_some_iff.mp hRead with
      ⟨g', hEcho, hReading⟩
    have hState : (echo.workers i).state = g' := by
      rw [← hEq, ← hReading]
      dsimp only
      rw [Function.update_self]
    rw [hState]
    dsimp only [BCF.decoding]
    rw [hPc]
    dsimp only
    unfold HandleEcho.read at hEcho
    by_cases hOwn : msg.round = i
    · rw [if_pos hOwn] at hEcho
      rw [if_pos hOwn]
      rcases HandleEcho.readOwn_decoded hEcho with
        ⟨hRooted, hCandidates⟩
      have hSame :
          (s.echo.workers i).state.decoded cfg msg =
            HandleEcho.decoded cfg
              { (s.echo.workers i).state with
                futurebuf := []
                candidates := []
                readysignal := [] }
              msg := rfl
      rw [hSame]
      refine ⟨?_, ?_⟩
      · intro cand hMem
        rcases hCandidates cand hMem with
          hOld | ⟨shards, hDecoded, hTake⟩
        · cases hOld
        · rw [hDecoded]
          exact
            ⟨_, List.mem_singleton_self _, rfl, rfl, hTake⟩
      · intro d hMem
        split at hMem
        · rename_i root shards hDecoded
          cases List.mem_singleton.mp hMem
          exact hRooted root shards hDecoded
        · cases hMem
    · rw [if_neg hOwn] at hEcho
      rw [if_neg hOwn]
      cases hEcho
      exact ⟨List.forall_mem_nil _, List.forall_mem_nil _⟩
  · cases hExec

/- What an ECHO puts together is noted. -/
theorem FollowerOk.echo
    (hOk : FollowerOk cfg auth quorum s announced decodings)
    {i : Nat} {act : Act}
    (hExec : s.exec cfg nid lid (.echo i act) = some s') :
    FollowerOk cfg auth quorum s' announced
      (decodings ++ s.decoding cfg (.echo i act)) := by
  rcases Option.bind_eq_some_iff.mp hExec with
    ⟨echo, hEcho, hEq⟩
  have hEq := Option.some.inj hEq
  rw [← hEq]
  have hOutput :
      ∀ x ∈ s.output, ∃ root, quorum x.1 root ∧
        Yields (decodings ++ s.decoding cfg (.echo i act))
          x.1 root x.2 := by
    intro x hMem
    rcases hOk.output x hMem with ⟨root, hEnough, hYields⟩
    exact ⟨root, hEnough, hYields.mono⟩
  have hRooted :
      ∀ d ∈ decodings ++ s.decoding cfg (.echo i act),
        Rooted cfg d := by
    intro d hMem
    rcases List.mem_append.mp hMem with hOld | hNew
    · exact hOk.rooted d hOld
    · cases act with
      | work => exact (echo_work hEcho).2 d hNew
      | check => cases hNew
      | stop => cases hNew
      | receive source => cases hNew
  unfold BCF.signalled
  split
  · rename_i hAt
    rcases hAt with ⟨rfl, hHeight⟩
    refine
      { hOk with
        signalled := ?_
        candidates := ?_
        output := hOutput
        rooted := hRooted }
    · intro root hMem
      rw [List.append_nil] at hMem
      exact hOk.signalled root hMem
    · intro cand hMem
      rcases List.mem_append.mp hMem with hOld | hNew
      · exact (hOk.candidates cand hOld).mono
      · rcases (echo_work hEcho).1 cand hNew with
          ⟨d, hDecoding, hRest⟩
        rw [hHeight] at hRest
        exact ⟨d, List.mem_append_right _ hDecoding, hRest⟩
  · exact
      { hOk with
        candidates := fun cand hMem =>
          (hOk.candidates cand hMem).mono
        output := hOutput
        rooted := hRooted }

/- What a step of the READY handler may signal. -/
theorem FollowerOk.ready
    (hQuorate : Quorate (threshold n * 2 + 1) auth quorum)
    (hOk : FollowerOk cfg auth quorum s announced decodings)
    {i : Nat} {act : Act}
    (hOnce : act = .work → countsOnce s.ready i = true)
    (hExec : s.exec cfg nid lid (.ready i act) = some s') :
    FollowerOk cfg auth quorum s' announced decodings := by
  rcases Option.bind_eq_some_iff.mp hExec with
    ⟨ready, hReady, hEq⟩
  have hEq := Option.some.inj hEq
  rw [← hEq]
  have hGenuine := hOk.genuine.act readyHandler_sendsOn hReady
  -- what one message does to the counts
  have hRead (msg : RBCMsg)
      (reading : Reading RBCMsg HandleReady)
      (hWork : act = .work)
      (hPc : (s.ready.workers i).pc = .holding msg)
      (hReading :
        (readyHandler n).read (s.ready.ended i) i
            (s.ready.workers i).state msg =
          some reading) :
      Counted i reading.state
          (if msg.round = i then
            (s.ready.workers i).handled ++ [msg]
          else (s.ready.workers i).handled) ∧
        ∀ root ∈ reading.state.outputsignal,
          msg.round = i ∧
            (readiesFor root
              ((s.ready.workers i).handled ++ [msg])).length =
                threshold n * 2 + 1 := by
    have hOld := hOk.counted i
    have hCleared :
        Counted i
          { (s.ready.workers i).state with
            futurebuf := []
            readysignal := []
            outputsignal := [] }
          (s.ready.workers i).handled :=
      ⟨hOld.own, hOld.count, hOld.once⟩
    rcases @Counted.read n _ _ _ _ hCleared
        (countsOnce_first (hOnce hWork) hPc) with
      ⟨hCounted, hFired⟩
    have hSame := Option.some.inj hReading
    rw [← hSame]
    refine ⟨hCounted, fun root hMem => ?_⟩
    rcases hFired root hMem with hNil | hFired
    · cases hNil
    · exact hFired
  have hCounted : ready.Worked Counted :=
    hOk.counted.act
      (fun msg reading hWork hPc hReading =>
        (hRead msg reading hWork hPc hReading).1)
      hReady
  unfold BCF.signalled
  split
  · rename_i hAt
    rcases hAt with ⟨rfl, hHeight⟩
    refine
      { hOk with
        genuine := hGenuine
        counted := hCounted
        signalled := ?_
        candidates := ?_ }
    · intro root hMem
      rcases List.mem_append.mp hMem with hOld | hNew
      · exact hOk.signalled root hOld
      · rw [← hHeight]
        dsimp only [Lane.act] at hReady
        split at hReady
        · rename_i msg hPc
          rcases Option.map_eq_some_iff.mp hReady with
            ⟨reading, hReading, hSame⟩
          rcases hRead msg reading rfl hPc hReading with
            ⟨hCounts, hFired⟩
          rw [← hSame] at hNew hGenuine
          dsimp only at hNew
          rw [Function.update_self] at hNew
          rcases hFired root hNew with ⟨hOwn, hLength⟩
          rw [if_pos hOwn] at hCounts
          have hHandled := hGenuine.handled i
          dsimp only at hHandled
          rw [Function.update_self] at hHandled
          have hOwn' : (readyHandler n).round msg = i := hOwn
          dsimp only at hHandled
          rw [if_pos hOwn'] at hHandled
          refine
            hQuorate i root _ ?_ (hCounts.once root) hLength
          intro other hMem
          rcases List.mem_filter.mp hMem with ⟨hIn, hRoot⟩
          exact
            ⟨hHandled other hIn, hCounts.own other hIn,
              of_decide_eq_true hRoot⟩
        · cases hReady
    · intro cand hMem
      rw [List.append_nil] at hMem
      exact hOk.candidates cand hMem
  · exact
      { hOk with genuine := hGenuine, counted := hCounted }

/- Every step keeps what a follower knows backed. -/
theorem FollowerOk.exec
    (hQuorate : Quorate (threshold n * 2 + 1) auth quorum)
    (hOk : FollowerOk cfg auth quorum s announced decodings)
    (hOwn : ∀ x ∈ announced, auth (readyMsg nid x.1 x.2))
    {action : BCFAction}
    (hMsg : ∀ msg, action = .readyIn msg → auth msg)
    (hOnce :
      ∀ i, action = .ready i .work →
        countsOnce s.ready i = true)
    (hExec : s.exec cfg nid lid action = some s') :
    FollowerOk cfg auth quorum s'
      (announced ++ s.announces action)
      (decodings ++ s.decoding cfg action) := by
  cases action with
  | readyIn msg =>
      dsimp only [BCF.announces, BCF.decoding]
      rw [List.append_nil, List.append_nil]
      exact hOk.readyIn (hMsg msg rfl) hExec
  | echoIn msg =>
      dsimp only [BCF.announces, BCF.decoding]
      rw [List.append_nil, List.append_nil]
      exact hOk.echoIn hExec
  | sendReady k =>
      dsimp only [BCF.announces, BCF.decoding]
      rw [List.append_nil, List.append_nil]
      exact hOk.sendReady hOwn hExec
  | start =>
      dsimp only [BCF.decoding]
      rw [List.append_nil]
      exact hOk.start hExec
  | val i act =>
      dsimp only [BCF.announces, BCF.decoding]
      rw [List.append_nil, List.append_nil]
      exact hOk.val hExec
  | echo i act =>
      dsimp only [BCF.announces]
      rw [List.append_nil]
      exact hOk.echo hExec
  | ready i act =>
      dsimp only [BCF.announces, BCF.decoding]
      rw [List.append_nil, List.append_nil]
      refine hOk.ready hQuorate ?_ hExec
      rintro rfl
      exact hOnce i rfl

/- At most one thing is put together in a step. -/
theorem decoding_unique
    {action : BCFAction} {d d' : Decoding}
    (hMem : d ∈ s.decoding cfg action)
    (hMem' : d' ∈ s.decoding cfg action) : d = d' := by
  have hLength : (s.decoding cfg action).length ≤ 1 := by
    unfold BCF.decoding
    split
    · split
      · split
        · split
          · exact Nat.le_refl 1
          · exact Nat.zero_le 1
        · exact Nat.zero_le 1
      · exact Nat.zero_le 1
    · exact Nat.zero_le 1
  rcases List.mem_iff_getElem.mp hMem with ⟨k, hk, hAt⟩
  rcases List.mem_iff_getElem.mp hMem' with ⟨k', hk', hAt'⟩
  obtain rfl : k = k' := by omega
  exact hAt.symm.trans hAt'

end Follower

end CodedBroadcast

end Jumbo

------------------------------------------------------------
-- The Broadcaster
------------------------------------------------------------

namespace Jumbo

namespace CodedBroadcast

open Crypto (Bytes)
open ReliableBroadcast (threshold)
open Protocol
open Protocol.Relay

variable {n : Nat}

/- The READYs for its own root, each sender counted once. -/
structure CountedOwn
    (myroot : Option Bytes) (i : Nat) (g : LeaderReady)
    (handled : List RBCMsg) : Prop where
  own : ∀ msg ∈ handled, msg.round = i
  count :
    ∀ root, myroot = some root →
      g.readycount = (readiesFor root handled).length
  once :
    ∀ root, ((readiesFor root handled).map RBCMsg.id).Nodup

/-
  What holds of the broadcaster. `others` says of a root that
  enough of the others are ready for it.
-/
structure LeaderOk
    (cfg : Config n) (src : Source) (auth : RBCMsg → Prop)
    (others : Nat → Bytes → Prop) (s : BCL) : Prop where
  genuine : s.ready.All auth
  counted :
    s.ready.Worked fun i => CountedOwn (src.root cfg i) i
  signalled :
    s.outputsignal ≠ 0 →
      ∃ root, src.root cfg s.height = some root ∧
        others s.height root
  output :
    ∀ x ∈ s.output, x.2 = src.inputs x.1 ∧ x.1 ≤ s.height ∧
      ∃ root, src.root cfg x.1 = some root ∧
        others x.1 root

section Leader

variable {cfg : Config n} {src : Source} {lid : Fin n}
variable {auth auth' : RBCMsg → Prop}
variable {others others' : Nat → Bytes → Prop}
variable {s s' : BCL}

theorem countedOwn_new (i : Nat) :
    CountedOwn (src.root cfg i) i LeaderReady.new [] where
  own := List.forall_mem_nil _
  count _ _ := rfl
  once _ := List.nodup_nil

/- The count is that of the READY messages for the root. -/
theorem CountedOwn.read
    {myroot : Option Bytes} {i : Nat} {g : LeaderReady}
    {handled : List RBCMsg} {msg : RBCMsg}
    (hCounted : CountedOwn myroot i g handled)
    (hFirst :
      msg.round = i → firstOf handled msg = true) :
    CountedOwn myroot i (g.read n myroot i msg)
        (if msg.round = i then handled ++ [msg]
          else handled) ∧
      ((g.read n myroot i msg).outputsignal ≠ 0 →
        msg.round = i ∧ myroot = some msg.root ∧
          (readiesFor msg.root (handled ++ [msg])).length =
            threshold n * 2) := by
  unfold LeaderReady.read
  split
  · rename_i hOwn
    have hOwnAll :
        ∀ other ∈ handled ++ [msg], other.round = i := by
      intro other hMem
      rcases List.mem_append.mp hMem with hOld | hNew
      · exact hCounted.own other hOld
      · cases List.mem_singleton.mp hNew
        exact hOwn
    have hOnce (root : Bytes) :
        ((readiesFor root (handled ++ [msg])).map
          RBCMsg.id).Nodup := by
      have hSame : Counted i
          { HandleReady.new with
            readymap := fun root =>
              (readiesFor root handled).length }
          handled :=
        ⟨hCounted.own, fun _ => rfl, hCounted.once⟩
      exact hSame.nodup_append (hFirst hOwn) root
    split
    · rename_i hRoot
      have hCount (root : Bytes) (hMine : myroot = some root) :
          g.readycount + 1 =
            (readiesFor root (handled ++ [msg])).length := by
        have hEq : msg.root = root := by
          rw [hMine] at hRoot
          exact Option.some.inj hRoot
        rw [readiesFor_append, if_pos hEq, List.length_append,
          ← hCounted.count root hMine]
        rfl
      refine ⟨⟨hOwnAll, hCount, hOnce⟩, fun hFired => ?_⟩
      refine ⟨hOwn, hRoot.symm, ?_⟩
      rw [← hCount msg.root hRoot.symm]
      by_contra hNot
      apply hFired
      dsimp only
      rw [decide_eq_false hNot]
      rfl
    · rename_i hOther
      refine ⟨⟨hOwnAll, ?_, hOnce⟩, fun hFired => ?_⟩
      · intro root hMine
        have hNe : msg.root ≠ root := by
          intro hEq
          exact hOther (by rw [hEq, hMine])
        rw [readiesFor_append, if_neg hNe, List.append_nil]
        exact hCounted.count root hMine
      · exact absurd rfl hFired
  · split
    · exact
        ⟨⟨hCounted.own, hCounted.count, hCounted.once⟩,
          fun hFired => absurd rfl hFired⟩
    · exact
        ⟨⟨hCounted.own, hCounted.count, hCounted.once⟩,
          fun hFired => absurd rfl hFired⟩

theorem leaderReady_sendsOn :
    SendsOn (leaderReady cfg src) := by
  intro stop i g msg reading hRead other hMem
  have hEq := Option.some.inj hRead
  rw [← hEq] at hMem
  unfold LeaderReady.read at hMem
  dsimp only at hMem
  split at hMem
  · split at hMem
    · cases hMem
    · cases hMem
  · split at hMem
    · exact List.mem_singleton.mp hMem
    · cases hMem

/- A leader that has not started knows nothing. -/
theorem leaderOk_init :
    LeaderOk cfg src auth others (BCL.init cfg src) where
  genuine := Lane.all_init
  counted := Lane.worked_init countedOwn_new
  signalled hNot := absurd rfl hNot
  output := List.forall_mem_nil _

/- More votes keep what the leader knows backed. -/
theorem LeaderOk.mono
    (hOk : LeaderOk cfg src auth others s)
    (hAuth : ∀ msg, auth msg → auth' msg)
    (hOthers : ∀ i root, others i root → others' i root) :
    LeaderOk cfg src auth' others' s where
  genuine := hOk.genuine.mono hAuth
  counted := hOk.counted
  signalled := by
    intro hNot
    rcases hOk.signalled hNot with ⟨root, hRoot, hEnough⟩
    exact ⟨root, hRoot, hOthers _ _ hEnough⟩
  output := by
    intro x hMem
    rcases hOk.output x hMem with
      ⟨hInput, hHeight, root, hRoot, hEnough⟩
    exact
      ⟨hInput, hHeight, root, hRoot, hOthers _ _ hEnough⟩

/- A genuine READY may come. -/
theorem LeaderOk.readyIn
    (hOk : LeaderOk cfg src auth others s)
    {msg : RBCMsg} (hMsg : auth msg)
    (hExec : s.exec cfg src lid (.readyIn msg) = some s') :
    LeaderOk cfg src auth others s' := by
  dsimp only [BCL.exec] at hExec
  split at hExec
  · cases hExec
    exact { hOk with genuine := hOk.genuine.arrive hMsg }
  · cases hExec
    exact hOk

/- What does not touch the READYs and the output. -/
theorem LeaderOk.same
    (hOk : LeaderOk cfg src auth others s)
    (hReady : s'.ready = s.ready)
    (hHeight : s'.height = s.height)
    (hSignal : s'.outputsignal = s.outputsignal)
    (hOutput : s'.output = s.output) :
    LeaderOk cfg src auth others s' where
  genuine := by
    rw [hReady]
    exact hOk.genuine
  counted := by
    rw [hReady]
    exact hOk.counted
  signalled := by
    rw [hSignal, hHeight]
    exact hOk.signalled
  output := by
    rw [hOutput, hHeight]
    exact hOk.output

/- An ECHO that comes is no vote. -/
theorem LeaderOk.echoIn
    (hOk : LeaderOk cfg src auth others s)
    {msg : RBCMsg}
    (hExec : s.exec cfg src lid (.echoIn msg) = some s') :
    LeaderOk cfg src auth others s' := by
  dsimp only [BCL.exec] at hExec
  split at hExec
  · cases hExec
    exact hOk.same rfl rfl rfl rfl
  · cases hExec
    exact hOk

/- The own READY is not counted among the others. -/
theorem LeaderOk.sendReady
    (hOk : LeaderOk cfg src auth others s) {k : Nat}
    (hExec : s.exec cfg src lid (.sendReady k) = some s') :
    LeaderOk cfg src auth others s' := by
  rcases Option.bind_eq_some_iff.mp hExec with
    ⟨height, _, hExec⟩
  rcases Option.ite_none_right_eq_some.mp hExec with ⟨_, hEq⟩
  cases hEq
  exact hOk.same rfl rfl rfl rfl

/- The own ECHO is no vote. -/
theorem LeaderOk.sendEcho
    (hOk : LeaderOk cfg src auth others s) {k : Nat}
    (hExec : s.exec cfg src lid (.sendEcho k) = some s') :
    LeaderOk cfg src auth others s' := by
  rcases Option.bind_eq_some_iff.mp hExec with
    ⟨height, _, hEq⟩
  cases hEq
  exact hOk.same rfl rfl rfl rfl

/- The main loop only goes on with a signal. -/
theorem LeaderOk.start
    (hOk : LeaderOk cfg src auth others s)
    (hExec : s.start cfg src = some s') :
    LeaderOk cfg src auth others s' := by
  unfold BCL.start at hExec
  split at hExec
  · rcases Option.ite_none_right_eq_some.mp hExec with
      ⟨_, hEq⟩
    cases hEq
    exact hOk.same rfl rfl rfl rfl
  · rcases Option.bind_eq_some_iff.mp hExec with
      ⟨echo, _, hEq⟩
    cases hEq
    exact hOk.same rfl rfl rfl rfl
  · rcases Option.bind_eq_some_iff.mp hExec with
      ⟨ready, hReady, hEq⟩
    cases hEq
    exact
      { hOk with
        genuine := hOk.genuine.prepare hReady
        counted := hOk.counted.prepare countedOwn_new hReady }
  · rcases Option.ite_none_left_eq_some.mp hExec with ⟨_, hEq⟩
    cases hEq
    exact hOk.same rfl rfl rfl rfl
  · rcases Option.ite_none_left_eq_some.mp hExec with
      ⟨hSignal, hEq⟩
    cases hEq
    rcases hOk.signalled hSignal with ⟨root, hRoot, hEnough⟩
    refine
      { hOk with
        signalled := fun _ => ⟨root, hRoot, hEnough⟩
        output := ?_ }
    intro x hMem
    rcases List.mem_append.mp hMem with hOld | hNew
    · exact hOk.output x hOld
    · cases List.mem_singleton.mp hNew
      exact ⟨rfl, Nat.le_refl _, root, hRoot, hEnough⟩
  · rcases Option.bind_eq_some_iff.mp hExec with
      ⟨echo, _, hExec⟩
    rcases Option.bind_eq_some_iff.mp hExec with
      ⟨ready, hReady, hEq⟩
    cases hEq
    exact
      { hOk with
        genuine := hOk.genuine.close hReady
        counted :=
          hOk.counted.same (Lane.close_workers hReady) }
  · rcases Option.bind_eq_some_iff.mp hExec with
      ⟨echo, _, hExec⟩
    rcases Option.bind_eq_some_iff.mp hExec with
      ⟨ready, hReady, hEq⟩
    cases hEq
    refine
      { hOk with
        genuine := hOk.genuine.next hReady
        counted :=
          hOk.counted.same (Lane.next_workers hReady)
        signalled := fun hNot => absurd rfl hNot
        output := ?_ }
    intro x hMem
    rcases hOk.output x hMem with ⟨hInput, hHeight, hRest⟩
    exact ⟨hInput, Nat.le_succ_of_le hHeight, hRest⟩
  · split at hExec
    · cases hExec
    · cases hExec
      exact hOk.same rfl rfl rfl rfl

/- Reading an ECHO counts no READY. -/
theorem LeaderOk.echo
    (hOk : LeaderOk cfg src auth others s)
    {i : Nat} {act : Act}
    (hExec : s.exec cfg src lid (.echo i act) = some s') :
    LeaderOk cfg src auth others s' := by
  rcases Option.bind_eq_some_iff.mp hExec with
    ⟨echo, _, hEq⟩
  have hEq := Option.some.inj hEq
  rw [← hEq]
  unfold BCL.signalled
  split
  · exact hOk.same rfl rfl rfl rfl
  · exact hOk.same rfl rfl rfl rfl

/- What a step of the READY handler may signal. -/
theorem LeaderOk.ready
    (hQuorate : Quorate (threshold n * 2) auth others)
    (hOk : LeaderOk cfg src auth others s)
    {i : Nat} {act : Act}
    (hOnce : act = .work → countsOnce s.ready i = true)
    (hExec : s.exec cfg src lid (.ready i act) = some s') :
    LeaderOk cfg src auth others s' := by
  rcases Option.bind_eq_some_iff.mp hExec with
    ⟨ready, hReady, hEq⟩
  have hEq := Option.some.inj hEq
  rw [← hEq]
  have hGenuine := hOk.genuine.act leaderReady_sendsOn hReady
  -- what one message does to the count
  have hRead (msg : RBCMsg)
      (reading : Reading RBCMsg LeaderReady)
      (hWork : act = .work)
      (hPc : (s.ready.workers i).pc = .holding msg)
      (hReading :
        (leaderReady cfg src).read (s.ready.ended i) i
            (s.ready.workers i).state msg =
          some reading) :
      CountedOwn (src.root cfg i) i reading.state
          (if msg.round = i then
            (s.ready.workers i).handled ++ [msg]
          else (s.ready.workers i).handled) ∧
        (reading.state.outputsignal ≠ 0 →
          msg.round = i ∧ src.root cfg i = some msg.root ∧
            (readiesFor msg.root
              ((s.ready.workers i).handled ++ [msg])).length =
                threshold n * 2) := by
    have hOld := hOk.counted i
    have hCleared :
        CountedOwn (src.root cfg i) i
          { (s.ready.workers i).state with futurebuf := [] }
          (s.ready.workers i).handled :=
      ⟨hOld.own, hOld.count, hOld.once⟩
    have hSame := Option.some.inj hReading
    rw [← hSame]
    refine @CountedOwn.read n _ _ _ _ _ hCleared ?_
    intro hOwn
    exact countsOnce_first (hOnce hWork) hPc hOwn
  have hCounted :
      ready.Worked fun i => CountedOwn (src.root cfg i) i :=
    hOk.counted.act
      (fun msg reading hWork hPc hReading =>
        (hRead msg reading hWork hPc hReading).1)
      hReady
  unfold BCL.signalled
  split
  · rename_i hAt
    rcases hAt with ⟨rfl, hHeight⟩
    refine
      { hOk with
        genuine := hGenuine
        counted := hCounted
        signalled := ?_ }
    intro hNot
    dsimp only at hNot
    by_cases hOld : s.outputsignal = 0
    · rw [hOld, Nat.zero_add] at hNot
      rcases Lane.act_work hReady with
        ⟨msg, reading, hPc, hReading, hWorker⟩
      rcases hRead msg reading rfl hPc hReading with
        ⟨hCounts, hFired⟩
      rw [hWorker] at hNot
      rcases hFired hNot with ⟨hOwn, hRoot, hLength⟩
      rw [if_pos hOwn] at hCounts
      have hHandled := hGenuine.handled i
      have hOwn' : (leaderReady cfg src).round msg = i := hOwn
      rw [hWorker] at hHandled
      dsimp only at hHandled
      rw [if_pos hOwn'] at hHandled
      dsimp only
      rw [← hHeight]
      refine
        ⟨msg.root, hRoot,
          hQuorate i msg.root _ ?_ (hCounts.once msg.root)
            hLength⟩
      intro other hMem
      rcases List.mem_filter.mp hMem with ⟨hIn, hSame⟩
      exact
        ⟨hHandled other hIn, hCounts.own other hIn,
          of_decide_eq_true hSame⟩
    · exact hOk.signalled hOld
  · exact
      { hOk with genuine := hGenuine, counted := hCounted }

/- Every step keeps what the leader knows backed. -/
theorem LeaderOk.exec
    (hQuorate : Quorate (threshold n * 2) auth others)
    (hOk : LeaderOk cfg src auth others s)
    {action : BCLAction}
    (hMsg : ∀ msg, action = .readyIn msg → auth msg)
    (hOnce :
      ∀ i, action = .ready i .work →
        countsOnce s.ready i = true)
    (hExec : s.exec cfg src lid action = some s') :
    LeaderOk cfg src auth others s' := by
  cases action with
  | readyIn msg => exact hOk.readyIn (hMsg msg rfl) hExec
  | echoIn msg => exact hOk.echoIn hExec
  | sendReady k => exact hOk.sendReady hExec
  | sendEcho k => exact hOk.sendEcho hExec
  | start => exact hOk.start hExec
  | echo i act => exact hOk.echo hExec
  | ready i act =>
      refine hOk.ready hQuorate ?_ hExec
      rintro rfl
      exact hOnce i rfl

end Leader

end CodedBroadcast

end Jumbo
