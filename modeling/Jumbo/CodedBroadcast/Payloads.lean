import Jumbo.CodedBroadcast.Agreement

/-
  Whether all correct parties output one payload, and when.

  The handler of ECHO takes the length of the payload from
  the message that makes it decode, and the root says nothing
  about it; the handler of READY counts messages, not their
  senders. Where each sender is counted once and the lengths
  agree, the payloads do.

  Main declarations:
    * `payload_agreement`
    * `payloads_differ`
-/

------------------------------------------------------------
-- Every Run
------------------------------------------------------------

namespace Jumbo

namespace CodedBroadcast

open Protocol

/-
  In every run whose steps meet the condition, the outputs of
  correct parties for a height are one payload.
-/
theorem payload_agreement
    {n f : Nat} {inst : Instance n} (hSize : n = 3 * f + 1)
    (hByz : inst.byz.card ≤ f)
    (hCoding : Coding inst.cfg inst.src)
    (hHash : ∀ x, (inst.cfg.sha x).length = 32)
    {net : Net n}
    (hReach :
      (network inst).ReachableBy
        (fun net a => net.single inst a = true) net)
    (hInj : Set.InjOn inst.cfg.sha (net.Hashed inst)) :
    ∀ p q, p ∉ inst.byz → q ∉ inst.byz →
      ∀ height output output',
        (height, output) ∈ net.outputs inst p →
          (height, output') ∈ net.outputs inst q →
            output = output' := by
  intro p q hp hq height output output' hOutput hOutput'
  exact
    Net.outputs_agree hSize hByz hCoding hHash hReach hInj hp
      hq hOutput hOutput'

end CodedBroadcast

end Jumbo

------------------------------------------------------------
-- Four Parties
------------------------------------------------------------

namespace Jumbo

namespace CodedBroadcast

open Crypto (Bytes)
open DumboMVBA
  (codedPath codedSha codedTree length_words number ownWord words)
open Protocol
open Protocol.Relay (Act)

/- Two shards are enough to find the word. -/
def codedConfig : Config 4 where
  sha := codedSha
  recover := fun given =>
    if 2 ≤ (given.filter (· ≠ [])).length then
      words.find? fun word =>
        (given.zip word).all fun pair =>
          pair.1 = [] ∨ pair.1 = pair.2
    else none

/- The inputs, divided as the words say. -/
def codedSource : Source where
  encode := fun msg =>
    words.find? fun word => (word.take 2).flatten = msg
  inputs := fun _ => [1, 2]

/- The last party is Byzantine. -/
def four : Instance 4 := ⟨codedConfig, codedSource, 0, {3}⟩

/- The words are a code. -/
theorem coding_four : Coding four.cfg four.src where
  recover := by
    intro given shards hRecover
    rcases Option.ite_none_right_eq_some.mp hRecover with
      ⟨_, hFind⟩
    exact length_words shards (List.mem_of_find?_eq_some hFind)
  encode := by
    intro msg shards hEncode
    have hFind :
        (words.find? fun word =>
          decide ((word.take 2).flatten = msg)) =
          some shards :=
      hEncode
    have hData := List.find?_some hFind
    refine
      ⟨length_words shards (List.mem_of_find?_eq_some hFind),
        ?_⟩
    rw [← of_decide_eq_true hData]
    exact List.IsPrefix.flatten <| List.take_prefix 2 shards

/- A handler reads the next message of its channel. -/
def reads (p : Fin 4) (act : Act → BCFAction) :
    List (NetAction 4) :=
  [.follower p (act .check),
    .follower p (act (.receive .incoming)),
    .follower p (act .work)]

/- The leader reads an ECHO. -/
def leaderReads : List (NetAction 4) :=
  [.leader (.echo 0 .check),
    .leader (.echo 0 (.receive .incoming)),
    .leader (.echo 0 .work)]

/- Two followers start and get their shards. -/
def valRun : List (NetAction 4) :=
  (List.replicate 3 (.leader .start) : List (NetAction 4)) ++
    ([.leader (.sendEcho 0)] : List (NetAction 4)) ++
    (List.replicate 5 (.follower 1 .start)
      : List (NetAction 4)) ++
    (List.replicate 5 (.follower 2 .start)
      : List (NetAction 4)) ++
    ([.deliverReady 1 0, .deliverReady 2 1]
      : List (NetAction 4)) ++
    reads 1 (.val 0) ++ reads 2 (.val 0) ++
    reads 1 (.ready 0) ++ reads 2 (.ready 0)

/- They get three ECHOs each, the broadcaster gets two. -/
def echoRun (first : Nat) : List (NetAction 4) :=
  ([.deliverEcho 1 0, .deliverEcho 1 2, .deliverEcho 2 first,
      .deliverEcho 2 0, .deliverEcho 0 1]
        : List (NetAction 4)) ++
    (List.replicate 3 (reads 1 (.echo 0))).flatten ++
    (List.replicate 3 (reads 2 (.echo 0))).flatten ++
    leaderReads ++ leaderReads

/- They are all ready, and the followers output. -/
def readyRun : List (NetAction 4) :=
  ([.follower 1 .start, .follower 2 .start, .leader .start,
      .follower 1 (.sendReady 0), .follower 2 (.sendReady 0),
      .leader (.sendReady 0),
      .deliverReady 1 4, .deliverReady 2 3,
      .deliverReady 1 5, .deliverReady 2 6]
        : List (NetAction 4)) ++
    (List.replicate 3 (reads 1 (.ready 0))).flatten ++
    (List.replicate 3 (reads 2 (.ready 0))).flatten ++
    (List.replicate 2 (.follower 1 .start)
      : List (NetAction 4)) ++
    (List.replicate 2 (.follower 2 .start) : List (NetAction 4))

/- An ECHO with the right path and a shorter length. -/
def shortEcho : Packet 4 where
  msg :=
    { id := number (3 : Fin 4)
      round := 0
      msglen := 1
      values := codedPath ownWord 3
      root := [] }
  dest := fun q => decide (q = 2)

/- Where the plain run ends. -/
def plainNet : Net 4 :=
  (network four).drive (fun net a => net.single four a)
    (Net.init four) (valRun ++ echoRun 1 ++ readyRun)

/- A Byzantine ECHO says that the payload is shorter. -/
def shortNet : Net 4 :=
  (network four).drive (fun _ _ => true) (Net.init four)
    (valRun ++ [.forgeEcho shortEcho] ++ echoRun 3 ++ readyRun)
/- All that is put together in them is the one word. -/
theorem injOn_four
    {net : Net 4}
    (hWord :
      ∀ p, ∀ d ∈ net.decodings p,
        d.shards = ownWord ∧ d.root = (codedTree ownWord).2) :
    Set.InjOn codedSha (net.Hashed four) := by
  have hTree :
      MerkleTree.newTree codedSha ownWord =
        some (codedTree ownWord) := by
    decide +kernel
  have hOwn (y : Bytes)
      (hMem :
        y ∈ treeHashed codedSha ownWord (codedTree ownWord).2) :
      y ∈ MerkleTree.hashed ownWord (codedTree ownWord).1 := by
    rcases hMem with ⟨levels, hEq, hMem⟩
    rw [hTree] at hEq
    rw [Option.some.inj hEq]
    exact hMem
  have hAll (y : Bytes) (hMem : y ∈ net.Hashed four) :
      y ∈ MerkleTree.hashed ownWord (codedTree ownWord).1 := by
    rcases hMem with ⟨p, d, hDecoding, hMem⟩ |
      ⟨_, height, _, shards, levels, root, hSource, hMem⟩
    · rcases hWord p d hDecoding with ⟨hShards, hRoot⟩
      rw [hShards, hRoot] at hMem
      exact hOwn y hMem
    · have hPlain :
          codedSource.tree codedConfig height =
            some (ownWord, codedTree ownWord) := by
        change
          codedSource.tree codedConfig 0 =
            some (ownWord, codedTree ownWord)
        decide +kernel
      have hSame := hPlain.symm.trans hSource
      cases hSame
      exact hOwn y hMem
  have hInj :
      ∀ x ∈ MerkleTree.hashed ownWord (codedTree ownWord).1,
        ∀ y ∈ MerkleTree.hashed ownWord (codedTree ownWord).1,
          codedSha x = codedSha y → x = y := by
    decide +kernel
  intro x hx y hy hEq
  exact hInj x (hAll x hx) y (hAll y hy) hEq

/- Two parties that put out have the same payload. -/
theorem payload_agreement_four :
    (0, [1, 2]) ∈ plainNet.outputs four 1 ∧
      ∀ output, (0, output) ∈ plainNet.outputs four 2 →
        output = [1, 2] := by
  have hFirst : (0, [1, 2]) ∈ plainNet.outputs four 1 := by
    decide +kernel
  refine ⟨hFirst, fun output hOutput => ?_⟩
  exact
    payload_agreement (f := 1) rfl (by decide) coding_four
      (fun _ => rfl) (Machine.ReachableBy.drive .init _)
      (injOn_four (by decide +kernel)) 2 1 (by decide)
      (by decide) 0 output [1, 2] hOutput hFirst

/- One ECHO with another length, and outputs differ. -/
theorem payloads_differ :
    (network four).Reachable shortNet ∧
      Coding four.cfg four.src ∧
        Set.InjOn four.cfg.sha (shortNet.Hashed four) ∧
          (0, [1, 2]) ∈ shortNet.outputs four 1 ∧
            (0, [1]) ∈ shortNet.outputs four 2 :=
  ⟨Machine.reachable_drive _ _, coding_four,
    injOn_four (by decide +kernel), by decide +kernel,
    by decide +kernel⟩

end CodedBroadcast

end Jumbo
