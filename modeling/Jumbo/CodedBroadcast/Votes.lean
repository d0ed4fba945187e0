import Jumbo.CodedBroadcast.Outputs
import Jumbo.Lib.Quorum

/-
  READYs as votes for a root, and why the roots that enough
  parties are ready for agree.

  A correct party is ready for one root of a height. A READY
  that is genuine is a vote of its sender, and as many READYs
  with different senders are votes of as many parties. Two
  quorums share a correct party.

  Main declarations:
    * `Votes`
    * `Votes.quorate`
    * `Votes.root_unique`
    * `Rooted.agree` and `Rooted.source`
-/

------------------------------------------------------------
-- Votes
------------------------------------------------------------

namespace Jumbo

namespace CodedBroadcast

open Crypto (Bytes)
open DumboMVBA (number)
open ReliableBroadcast (threshold)
open Protocol

variable {n : Nat}

/- Who may vote for anything, and what the others vote for. -/
structure Votes (n : Nat) where
  byz : Finset (Fin n)
  voted : Fin n → Nat → Bytes → Prop

namespace Votes

/- The message is a vote that the party may cast. -/
def Genuine (v : Votes n) (msg : RBCMsg) (j : Fin n) : Prop :=
  j ∈ v.byz ∨
    ∀ height : Nat, msg.round = height →
      v.voted j height msg.root

/- The message is from the party that it names. -/
def Authentic (v : Votes n) (msg : RBCMsg) : Prop :=
  ∃ j, msg.id = number j ∧ v.Genuine msg j

/- Authentic, and from another party. -/
def Foreign (v : Votes n) (lid : Fin n) (msg : RBCMsg) :
    Prop :=
  ∃ j, msg.id = number j ∧ j ≠ lid ∧ v.Genuine msg j

/- At least `k` parties are ready for the root. -/
def Quorum
    (v : Votes n) (k height : Nat) (root : Bytes) : Prop :=
  ∃ S : Finset (Fin n), S.card = k ∧
    ∀ j ∈ S, j ∈ v.byz ∨ v.voted j height root

/- As many parties without the leader voted for the root. -/
def Others
    (v : Votes n) (lid : Fin n) (k height : Nat)
    (root : Bytes) : Prop :=
  ∃ S : Finset (Fin n), S.card = k ∧ lid ∉ S ∧
    ∀ j ∈ S, j ∈ v.byz ∨ v.voted j height root

/- More is voted for. -/
def Le (v v' : Votes n) : Prop :=
  v.byz = v'.byz ∧
    ∀ j height root,
      v.voted j height root → v'.voted j height root

section Le

variable {v v' : Votes n} {lid : Fin n}

/- More votes keep a message genuine. -/
theorem Genuine.mono
    (hLe : v.Le v') {msg : RBCMsg} {j : Fin n}
    (hGenuine : v.Genuine msg j) : v'.Genuine msg j := by
  rcases hGenuine with hByz | hVoted
  · left
    rw [← hLe.1]
    exact hByz
  · exact
      .inr fun height hRound =>
        hLe.2 _ _ _ (hVoted height hRound)

/- More votes keep a message authentic. -/
theorem Authentic.mono
    (hLe : v.Le v') {msg : RBCMsg}
    (hAuthentic : v.Authentic msg) : v'.Authentic msg := by
  rcases hAuthentic with ⟨j, hId, hGenuine⟩
  exact ⟨j, hId, hGenuine.mono hLe⟩

/- More votes keep a message of the others genuine. -/
theorem Foreign.mono
    (hLe : v.Le v') {msg : RBCMsg}
    (hForeign : v.Foreign lid msg) :
    v'.Foreign lid msg := by
  rcases hForeign with ⟨j, hId, hOther, hGenuine⟩
  exact ⟨j, hId, hOther, hGenuine.mono hLe⟩

/- More votes keep a quorum. -/
theorem Quorum.mono
    (hLe : v.Le v') {k height : Nat} {root : Bytes}
    (hQuorum : v.Quorum k height root) :
    v'.Quorum k height root := by
  rcases hQuorum with ⟨S, hCard, hVotes⟩
  refine ⟨S, hCard, fun j hMem => ?_⟩
  rw [← hLe.1]
  rcases hVotes j hMem with hByz | hVoted
  · exact .inl hByz
  · exact .inr (hLe.2 _ _ _ hVoted)

/- More votes keep a quorum of the others. -/
theorem Others.mono
    (hLe : v.Le v') {k height : Nat} {root : Bytes}
    (hOthers : v.Others lid k height root) :
    v'.Others lid k height root := by
  rcases hOthers with ⟨S, hCard, hNot, hVotes⟩
  refine ⟨S, hCard, hNot, fun j hMem => ?_⟩
  rw [← hLe.1]
  rcases hVotes j hMem with hByz | hVoted
  · exact .inl hByz
  · exact .inr (hLe.2 _ _ _ hVoted)

end Le

section Quorum

variable {v : Votes n} {lid : Fin n} {k : Nat}

/- Different messages come from different voters. -/
theorem quorate :
    Quorate k v.Authentic (v.Quorum k) := by
  intro i root msgs hMsgs hApart hLength
  have hNamed :
      ∀ msg ∈ msgs, ∃ j, msg.id = number j ∧
        (j ∈ v.byz ∨ v.voted j i root) := by
    intro msg hMem
    rcases hMsgs msg hMem with
      ⟨⟨j, hId, hGenuine⟩, hRound, hRoot⟩
    refine ⟨j, hId, ?_⟩
    rcases hGenuine with hByz | hVoted
    · exact .inl hByz
    · rw [← hRoot]
      exact .inr (hVoted i hRound)
  rcases exists_named number RBCMsg.id hApart hNamed with
    ⟨S, hCard, hS⟩
  exact ⟨S, hCard.trans hLength, fun j hMem => (hS j hMem).1⟩

/- So it is with those of the others. -/
theorem quorate_others :
    Quorate k (v.Foreign lid) (v.Others lid k) := by
  intro i root msgs hMsgs hApart hLength
  have hNamed :
      ∀ msg ∈ msgs, ∃ j, msg.id = number j ∧
        (j ≠ lid ∧ (j ∈ v.byz ∨ v.voted j i root)) := by
    intro msg hMem
    rcases hMsgs msg hMem with
      ⟨⟨j, hId, hOther, hGenuine⟩, hRound, hRoot⟩
    refine ⟨j, hId, hOther, ?_⟩
    rcases hGenuine with hByz | hVoted
    · exact .inl hByz
    · rw [← hRoot]
      exact .inr (hVoted i hRound)
  rcases exists_named number RBCMsg.id hApart hNamed with
    ⟨S, hCard, hS⟩
  refine
    ⟨S, hCard.trans hLength, ?_,
      fun j hMem => (hS j hMem).1.2⟩
  intro hMem
  exact (hS lid hMem).1.1 rfl

/- The broadcaster itself is one more. -/
theorem Others.quorum
    {height : Nat} {root : Bytes}
    (hOthers : v.Others lid k height root)
    (hOwn : v.voted lid height root) :
    v.Quorum (k + 1) height root := by
  rcases hOthers with ⟨S, hCard, hNot, hVotes⟩
  refine ⟨insert lid S, ?_, fun j hMem => ?_⟩
  · rw [Finset.card_insert_of_notMem hNot, hCard]
  · rcases Finset.mem_insert.mp hMem with rfl | hOld
    · exact .inr hOwn
    · exact hVotes j hOld

/- Parties that are ready for one root agree on it. -/
theorem root_unique
    {f height : Nat} {root root' : Bytes}
    (hSize : n = 3 * f + 1) (hByz : v.byz.card ≤ f)
    (hOnce :
      ∀ j, j ∉ v.byz → ∀ root root',
        v.voted j height root → v.voted j height root' →
          root = root')
    (hQuorum : v.Quorum (threshold n * 2 + 1) height root)
    (hQuorum' : v.Quorum (threshold n * 2 + 1) height root') :
    root = root' := by
  rcases hQuorum with ⟨S, hCard, hVotes⟩
  rcases hQuorum' with ⟨S', hCard', hVotes'⟩
  have hLarge :
      Fintype.card (Fin n) + v.byz.card <
        S.card + S'.card := by
    rw [hCard, hCard', Fintype.card_fin]
    unfold threshold
    omega
  rcases exists_mem_inter_of_third hLarge with
    ⟨j, hMem, hMem', hCorrect⟩
  refine hOnce j hCorrect root root' ?_ ?_
  · exact (hVotes j hMem).resolve_left hCorrect
  · exact (hVotes' j hMem').resolve_left hCorrect

end Quorum

end Votes

end CodedBroadcast

end Jumbo

------------------------------------------------------------
-- Payloads
------------------------------------------------------------

namespace Jumbo

namespace CodedBroadcast

open Crypto (Bytes)
open DumboMVBA (takeOut takeOut_start)
open Protocol

variable {n : Nat}

/-
  The coding library: there are as many shards as parties,
  and what it encodes to starts with the data.
-/
structure Coding (cfg : Config n) (src : Source) : Prop where
  recover :
    ∀ (given : Fin n → Bytes) shards,
      cfg.recover ((List.finRange n).map given) =
          some shards →
        shards.length = n
  encode :
    ∀ msg shards, src.encode msg = some shards →
      shards.length = n ∧ msg <+: shards.flatten

/- What is hashed for a tree with the root. -/
def treeHashed
    (sha : Bytes → Bytes) (shards : List Bytes)
    (root : Bytes) : Set Bytes :=
  { y | ∃ levels,
      MerkleTree.newTree sha shards = some (levels, root) ∧
        y ∈ MerkleTree.hashed shards levels }

section Agree

variable {cfg : Config n} {src : Source} {Q : Set Bytes}

/- The tree of the leader is over its shards. -/
theorem Source.tree_eq_some
    {height : Nat} {shards : List Bytes}
    {levels : List (List (List UInt8))} {root : Bytes}
    (hTree : src.tree cfg height = some (shards, levels, root)) :
    src.encode (src.inputs height) = some shards ∧
      MerkleTree.newTree cfg.sha shards =
        some (levels, root) := by
  rcases Option.bind_eq_some_iff.mp hTree with
    ⟨shards', hEncode, hRest⟩
  rcases Option.bind_eq_some_iff.mp hRest with
    ⟨⟨levels', root'⟩, hNew, hEq⟩
  cases hEq
  exact ⟨hEncode, hNew⟩

/- A root fixes the shards. -/
theorem shards_unique
    {shards shards' : List Bytes} {root : Bytes}
    {levels levels' : List (List (List UInt8))}
    (hHash : ∀ x, (cfg.sha x).length = 32)
    (hInj : Set.InjOn cfg.sha Q)
    (hQ : treeHashed cfg.sha shards root ⊆ Q)
    (hQ' : treeHashed cfg.sha shards' root ⊆ Q)
    (hLength : shards.length = n)
    (hLength' : shards'.length = n)
    (hTree :
      MerkleTree.newTree cfg.sha shards = some (levels, root))
    (hTree' :
      MerkleTree.newTree cfg.sha shards' =
        some (levels', root)) :
    shards = shards' :=
  MerkleTree.newTree_inj hHash hInj hTree hTree'
    (hLength.trans hLength'.symm)
    (fun _ hMem => hQ ⟨levels, hTree, hMem⟩)
    (fun _ hMem => hQ' ⟨levels', hTree', hMem⟩)

/- Decodings of one root and length have one output. -/
theorem Rooted.agree
    {d d' : Decoding} {output output' : Bytes}
    (hCoding : Coding cfg src)
    (hHash : ∀ x, (cfg.sha x).length = 32)
    (hInj : Set.InjOn cfg.sha Q)
    (hQ : treeHashed cfg.sha d.shards d.root ⊆ Q)
    (hQ' : treeHashed cfg.sha d'.shards d'.root ⊆ Q)
    (hRooted : Rooted cfg d) (hRooted' : Rooted cfg d')
    (hRoot : d.root = d'.root) (hLen : d.msglen = d'.msglen)
    (hTake :
      takeOut d.msglen.toInt d.shards 0 [] = some output)
    (hTake' :
      takeOut d'.msglen.toInt d'.shards 0 [] = some output') :
    output = output' := by
  rcases hRooted with ⟨⟨given, hRecover⟩, levels, hTree⟩
  rcases hRooted' with ⟨⟨given', hRecover'⟩, levels', hTree'⟩
  rw [← hRoot] at hQ' hTree'
  have hSame :=
    shards_unique hHash hInj hQ hQ'
      (hCoding.recover given _ hRecover)
      (hCoding.recover given' _ hRecover') hTree hTree'
  rw [← hLen, ← hSame, hTake] at hTake'
  exact Option.some.inj hTake'

/- A decoding of the broadcaster's root has its payload. -/
theorem Rooted.source
    {d : Decoding} {output : Bytes} {shards : List Bytes}
    {levels : List (List (List UInt8))} {height : Nat}
    (hCoding : Coding cfg src)
    (hHash : ∀ x, (cfg.sha x).length = 32)
    (hInj : Set.InjOn cfg.sha Q)
    (hQ : treeHashed cfg.sha d.shards d.root ⊆ Q)
    (hQ' : treeHashed cfg.sha shards d.root ⊆ Q)
    (hRooted : Rooted cfg d)
    (hSource :
      src.tree cfg height = some (shards, levels, d.root))
    (hLen : d.msglen.toInt = (src.inputs height).length)
    (hTake :
      takeOut d.msglen.toInt d.shards 0 [] = some output) :
    output = src.inputs height := by
  rcases hRooted with ⟨⟨given, hRecover⟩, levels', hTree⟩
  rcases Source.tree_eq_some hSource with ⟨hEncode, hTree'⟩
  rcases hCoding.encode _ _ hEncode with ⟨hLength, hPrefix⟩
  have hSame :=
    shards_unique hHash hInj hQ hQ'
      (hCoding.recover given _ hRecover) hLength hTree hTree'
  rw [takeOut_start hTake, hSame, hLen, Int.toNat_natCast]
  exact (List.prefix_iff_eq_take.mp hPrefix).symm

end Agree

end CodedBroadcast

end Jumbo
