import Mathlib.Data.Finset.Card
import Jumbo.Lib.Machine
import Jumbo.DumboMVBA.Basic

/-
  All parties, round after round.

  Whatever the network and the Byzantine parties do, a party
  is handed messages of its rounds in some order, and no
  field of a message is authenticated. So every message may
  arrive. Signatures in a message that is accepted are
  genuine for what has been signed so far.

  Main declarations:
    * `Net` and `network`
    * `Net.Signed` and `Net.Authentic`
    * `handleDispersal_cases` and its like
    * `exec_cases`, `dm_invariant` and `later_new`
-/

------------------------------------------------------------
-- The System
------------------------------------------------------------

namespace Jumbo

namespace DumboMVBA

open Crypto (Bytes)
open Protocol
open Struct

/- `accepted`: who accepted what in which round. -/
structure Net (n : Nat) where
  round : Fin n → Nat
  dm : Fin n → Nat → Dumbomvba n
  accepted : List (Fin n × Nat × DumbomvbaMsg)

/- The steps of a party in a round. -/
inductive NetAction (n : Nat) where
| mine (id : Fin n) (round : Nat) (msg : Bytes)
| dispersal (id : Fin n) (round : Nat) (msg : DumbomvbaMsg)
| response (id : Fin n) (round : Nat) (msg : DumbomvbaMsg)
| accept (id : Fin n) (msg : DumbomvbaMsg)
| decide (id : Fin n) (round : Nat) (msg : DumbomvbaMsg)
| shard (id : Fin n) (round : Nat) (msg : DumbomvbaMsg)
| next (id : Fin n)

variable {n : Nat}

namespace Net

/- All parties are in round 0 and nothing is accepted. -/
def new : Net n where
  round := fun _ => 0
  dm := fun _ _ => Dumbomvba.new
  accepted := []

/- Change the party of a round. -/
def set
    (s : Net n) (id : Fin n) (round : Nat)
    (dm : Dumbomvba n) : Net n :=
  { s with
    dm := fun id' round' =>
      if id' = id ∧ round' = round then dm
      else s.dm id' round' }

/- `handle_dumbomvbamsgCH` hands a message of its round on. -/
def handed
    (s : Net n) (id : Fin n) (round : Nat)
    (type : Int32) (msg : DumbomvbaMsg) : Bool :=
  round ≤ s.round id ∧ msg.round = Int32.ofNat round ∧
    msg.type = type

/- The first value of a message decided is its root. -/
def decision (msg : DumbomvbaMsg) : Option Decision :=
  msg.values.head?.map fun root =>
    ⟨msg.id, root, msg.msglen⟩

/- A step of a party, in this round or one before. -/
def exec (cfg : Config n) (s : Net n) :
    NetAction n → Option (Net n)
| .mine id round msg =>
    if round ≤ s.round id then
      (handleMineDispersal cfg id round (s.dm id round)
        msg).map (s.set id round)
    else none
| .dispersal id round msg =>
    if s.handed id round 20 msg then
      (handleDispersal cfg id round (s.dm id round) msg).map
        (s.set id round)
    else none
| .response id round msg =>
    if s.handed id round 21 msg then
      (handleResponse cfg id round (s.dm id round) msg).map
        (s.set id round)
    else none
| .accept id msg =>
    if checkInput cfg msg = some true then
      some
        { s with
          accepted := s.accepted ++ [(id, s.round id, msg)] }
    else none
| .decide id round msg =>
    if round = s.round id then
      (decision msg).bind fun d =>
        (handleReconstruct id round (s.dm id round) d).map
          (s.set id round)
    else none
| .shard id round msg =>
    if s.handed id round 22 msg then
      (handleShard cfg (s.dm id round) msg).map
        (s.set id round)
    else none
| .next id =>
    some
      { s with
        round := Function.update s.round id (s.round id + 1) }

/- A party has signed, or is Byzantine. -/
def Signed
    (cfg : Config n) (corrupted : Finset (Fin n)) (s : Net n)
    (id : Fin n) (bytes : Bytes) : Prop :=
  id ∈ corrupted ∨
    ∃ round, ∃ signMsg ∈ (s.dm id round).signed,
      cfg.marshal signMsg = bytes

/- Certificates that are accepted cannot be forged. -/
def Authentic
    (cfg : Config n) (corrupted : Finset (Fin n))
    (s : Net n) : NetAction n → Prop
| .accept _ msg =>
    ∀ batch, msg.ss = some batch →
      Crypto.Genuine cfg.prim (s.Signed cfg corrupted)
        batch.signs
| _ => True

end Net

/- All parties as a machine. -/
def network (cfg : Config n) :
    Machine (Net n) (NetAction n) where
  init := Net.new
  exec := Net.exec cfg

end DumboMVBA

end Jumbo

------------------------------------------------------------
-- Steps
------------------------------------------------------------

namespace Jumbo

namespace DumboMVBA

open Crypto (Bytes)
open Protocol
open Struct

section Steps

variable {n : Nat} {cfg : Config n} {id : Fin n}
variable {round : Nat} {dm dm' : Dumbomvba n}

/- What a dispersal of one's own leaves behind. -/
theorem handleMineDispersal_cases
    {msg : Bytes}
    (hMine :
      handleMineDispersal cfg id round dm msg = some dm') :
    dm.mypath = [] ∧
      ∃ shards levels root mypath sent,
        cfg.encode msg = some shards ∧
          MerkleTree.newTree cfg.sha shards =
            some (levels, root) ∧
          mypath.getLast? = some root ∧
            dm' =
              { dm with
                mymsg := msg
                mypath := mypath
                sent := sent
                hashed :=
                  dm.hashed ++
                    MerkleTree.hashed shards levels } := by
  unfold handleMineDispersal at hMine
  rcases Option.ite_none_left_eq_some.mp hMine with
    ⟨hFirst, hMine⟩
  rcases Option.bind_eq_some_iff.mp hMine with
    ⟨shards, hEncode, hMine⟩
  rcases Option.bind_eq_some_iff.mp hMine with
    ⟨⟨levels, root⟩, hTree, hMine⟩
  rcases Option.bind_eq_some_iff.mp hMine with
    ⟨paths, hPaths, hMine⟩
  rcases Option.bind_eq_some_iff.mp hMine with
    ⟨mypath, hMypath, hEq⟩
  cases hEq
  refine
    ⟨not_not.mp hFirst, shards, levels, root, mypath, _,
      hEncode, hTree, ?_, rfl⟩
  rw [Crypto.getElem?_of_mapM hPaths] at hMypath
  rcases Option.bind_eq_some_iff.mp hMypath with
    ⟨i, _, hPath⟩
  rcases Option.map_eq_some_iff.mp hPath with
    ⟨shard, _, rfl⟩
  unfold getMerklePath
  split
  · rfl
  · rw [← List.cons_append, List.getLast?_concat]

/- A response only adds to what is collected. -/
theorem handleResponse_cases
    {msg : DumbomvbaMsg}
    (hResponse :
      handleResponse cfg id round dm msg = some dm') :
    ∃ signatures mems input,
      dm' =
        { dm with
          signatures := signatures
          mems := mems
          input := input } := by
  unfold handleResponse at hResponse
  rcases Option.ite_none_left_eq_some.mp hResponse with
    ⟨_, hResponse⟩
  rcases Option.bind_eq_some_iff.mp hResponse with
    ⟨_, _, hResponse⟩
  rcases Option.bind_eq_some_iff.mp hResponse with
    ⟨_, _, hResponse⟩
  rcases Option.bind_eq_some_iff.mp hResponse with
    ⟨_, _, hResponse⟩
  rcases Option.ite_none_right_eq_some.mp hResponse with
    ⟨_, hResponse⟩
  dsimp only at hResponse
  split at hResponse
  · rcases Option.bind_eq_some_iff.mp hResponse with
      ⟨_, _, hEq⟩
    cases hEq
    exact ⟨_, _, _, rfl⟩
  · cases hResponse
    exact ⟨_, _, dm.input, rfl⟩

/- A dispersal that is answered has a path that verifies. -/
theorem handleDispersal_cases
    {msg : DumbomvbaMsg}
    (hDispersal :
      handleDispersal cfg id round dm msg = some dm') :
    ∃ root i sent,
      msg.values.getLast? = some root ∧
        verifyPath cfg.sha root msg.values id.val = true ∧
          Crypto.key n msg.id = some i ∧
            dm' =
              { dm with
                paths := Function.update dm.paths i msg.values
                handled := dm.handled + 1
                signed :=
                  dm.signed ++
                    [{ id := msg.id
                       round := Int32.ofNat round
                       type := 20
                       msglen := msg.msglen
                       values := [root] }]
                sent := sent
                hashed :=
                  dm.hashed ++
                    hashedPath cfg.sha msg.values id.val } := by
  unfold handleDispersal at hDispersal
  rcases Option.ite_none_left_eq_some.mp hDispersal with
    ⟨_, hDispersal⟩
  split at hDispersal
  · cases hDispersal
  · rename_i root hLast
    rcases Option.ite_none_right_eq_some.mp hDispersal with
      ⟨hPath, hDispersal⟩
    rcases Option.map_eq_some_iff.mp hDispersal with
      ⟨i, hKey, rfl⟩
    exact ⟨root, i, _, hLast, hPath, hKey, rfl⟩

/- A decision is taken once. -/
theorem handleReconstruct_cases
    {d : Decision}
    (hDecide : handleReconstruct id round dm d = some dm') :
    dm.decided = none ∧ ∃ sent,
      dm' =
        { dm with
          decided := some d
          returned :=
            if d.id.toInt = id.val + 1 then
              some (dm.mymsg, true)
            else dm.returned
          sent := sent } := by
  unfold handleReconstruct at hDecide
  rcases Option.ite_none_left_eq_some.mp hDecide with
    ⟨hFirst, hDecide⟩
  refine ⟨not_not.mp hFirst, ?_⟩
  split at hDecide
  · rename_i hOwn
    cases hDecide
    rw [if_pos hOwn]
    exact ⟨_, rfl⟩
  · rename_i hOther
    rcases Option.map_eq_some_iff.mp hDecide with
      ⟨_, _, rfl⟩
    rw [if_neg hOther]
    exact ⟨_, rfl⟩

/- The party after a shard has been taken. -/
def Dumbomvba.take
    (cfg : Config n) (dm : Dumbomvba n) (i : Fin n)
    (path : List Bytes) : Dumbomvba n :=
  { dm with
    shards := Function.update dm.shards i (path.headD [])
    count := dm.count + 1
    hashed := dm.hashed ++ hashedPath cfg.sha path i.val }

/- A shard is ignored, or taken, or it is the last one. -/
theorem handleShard_cases
    {msg : DumbomvbaMsg}
    (hShard : handleShard cfg dm msg = some dm') :
    ∃ d, dm.decided = some d ∧ dm.returned = none ∧
      (dm' = dm ∨
        verifyPath cfg.sha d.root msg.values
            (msg.id.toInt - 1) =
          true ∧
        ∃ i, Crypto.key n msg.id = some i ∧
          (dm' = dm.take cfg i msg.values ∨
            finish cfg (dm.take cfg i msg.values) d =
              some dm')) := by
  unfold handleShard at hShard
  split at hShard
  · rename_i d hDecided hReturned
    refine ⟨d, hDecided, hReturned, ?_⟩
    split at hShard
    · rename_i hPath
      right
      refine ⟨hPath, ?_⟩
      rcases Option.bind_eq_some_iff.mp hShard with
        ⟨i, hKey, hTake⟩
      refine ⟨i, hKey, ?_⟩
      dsimp only at hTake
      split at hTake
      · exact .inr hTake
      · cases hTake
        exact .inl rfl
    · cases hShard
      exact .inl rfl
  · cases hShard

/- The end of a reconstruction, if it does not panic. -/
theorem finish_cases
    {d : Decision} (hFinish : finish cfg dm d = some dm') :
    ∃ shards input levels root,
      cfg.recover ((List.finRange n).map dm.shards) =
          some shards ∧
        takeOut d.msglen.toInt shards 0 [] = some input ∧
          MerkleTree.newTree cfg.sha shards =
              some (levels, root) ∧
            dm' =
              { dm with
                returned :=
                  some
                    (if root = d.root then (input, true)
                      else ([], false))
                hashed :=
                  dm.hashed ++
                    MerkleTree.hashed shards levels } := by
  unfold finish at hFinish
  rcases Option.bind_eq_some_iff.mp hFinish with
    ⟨shards, hRecover, hFinish⟩
  rcases Option.bind_eq_some_iff.mp hFinish with
    ⟨input, hInput, hFinish⟩
  rcases Option.bind_eq_some_iff.mp hFinish with
    ⟨⟨levels, root⟩, hTree, hEq⟩
  cases hEq
  exact
    ⟨shards, input, levels, root, hRecover, hInput, hTree,
      rfl⟩

/- The handler that an action runs, at its party and round. -/
def Handles
    (cfg : Config n) (id : Fin n) (round : Nat)
    (dm dm' : Dumbomvba n) : NetAction n → Prop
| .mine id' round' msg =>
    id' = id ∧ round' = round ∧
      handleMineDispersal cfg id round dm msg = some dm'
| .dispersal id' round' msg =>
    id' = id ∧ round' = round ∧
      handleDispersal cfg id round dm msg = some dm'
| .response id' round' msg =>
    id' = id ∧ round' = round ∧
      handleResponse cfg id round dm msg = some dm'
| .decide id' round' msg =>
    id' = id ∧ round' = round ∧
      ∃ d, Net.decision msg = some d ∧
        handleReconstruct id round dm d = some dm'
| .shard id' round' msg =>
    id' = id ∧ round' = round ∧
      handleShard cfg dm msg = some dm'
| .accept _ _ | .next _ => False

/- Only dispersals store paths and sign. -/
theorem Handles.signs
    {a : NetAction n}
    (hHandles : Handles cfg id round dm dm' a) :
    (dm'.paths = dm.paths ∧ dm'.signed = dm.signed) ∨
      ∃ msg, a = .dispersal id round msg ∧
        handleDispersal cfg id round dm msg = some dm' := by
  cases a with
  | mine id' round' msg =>
      rcases handleMineDispersal_cases hHandles.2.2 with
        ⟨_, _, _, _, _, _, _, _, _, rfl⟩
      exact .inl ⟨rfl, rfl⟩
  | dispersal id' round' msg =>
      rcases hHandles with ⟨rfl, rfl, hDispersal⟩
      exact .inr ⟨msg, rfl, hDispersal⟩
  | response id' round' msg =>
      rcases handleResponse_cases hHandles.2.2 with
        ⟨_, _, _, rfl⟩
      exact .inl ⟨rfl, rfl⟩
  | accept id' msg => cases hHandles
  | decide id' round' msg =>
      rcases hHandles with ⟨_, _, d, _, hDecide⟩
      rcases handleReconstruct_cases hDecide with
        ⟨_, _, rfl⟩
      exact .inl ⟨rfl, rfl⟩
  | shard id' round' msg =>
      rcases handleShard_cases hHandles.2.2 with
        ⟨d, _, _, rfl | ⟨_, i, _, rfl | hFinish⟩⟩
      · exact .inl ⟨rfl, rfl⟩
      · exact .inl ⟨rfl, rfl⟩
      · rcases finish_cases hFinish with
          ⟨_, _, _, _, _, _, _, rfl⟩
        exact .inl ⟨rfl, rfl⟩
  | next id' => cases hHandles

/-
  What a step can do: run a handler of a party in a round
  that it has reached, accept a message, or go on to the
  next round.
-/
theorem exec_cases
    {s s' : Net n} {a : NetAction n}
    (hExec : s.exec cfg a = some s') :
    (∃ id round dm, round ≤ s.round id ∧
        Handles cfg id round (s.dm id round) dm a ∧
          s' = s.set id round dm) ∨
      (∃ id msg, a = .accept id msg ∧
        checkInput cfg msg = some true ∧
          s' =
            { s with
              accepted :=
                s.accepted ++ [(id, s.round id, msg)] }) ∨
      ∃ id, a = .next id ∧
        s' =
          { s with
            round :=
              Function.update s.round id (s.round id + 1) } := by
  have hReached {id : Fin n} {round : Nat} {type : Int32}
      {msg : DumbomvbaMsg}
      (hHanded : s.handed id round type msg = true) :
      round ≤ s.round id :=
    (of_decide_eq_true hHanded).1
  cases a with
  | mine id round msg =>
      rcases Option.ite_none_right_eq_some.mp hExec with
        ⟨hLe, hMap⟩
      rcases Option.map_eq_some_iff.mp hMap with
        ⟨dm, hHandle, hEq⟩
      exact
        .inl
          ⟨id, round, dm, hLe, ⟨rfl, rfl, hHandle⟩, hEq.symm⟩
  | dispersal id round msg =>
      rcases Option.ite_none_right_eq_some.mp hExec with
        ⟨hHanded, hMap⟩
      rcases Option.map_eq_some_iff.mp hMap with
        ⟨dm, hHandle, hEq⟩
      exact
        .inl
          ⟨id, round, dm, hReached hHanded,
            ⟨rfl, rfl, hHandle⟩, hEq.symm⟩
  | response id round msg =>
      rcases Option.ite_none_right_eq_some.mp hExec with
        ⟨hHanded, hMap⟩
      rcases Option.map_eq_some_iff.mp hMap with
        ⟨dm, hHandle, hEq⟩
      exact
        .inl
          ⟨id, round, dm, hReached hHanded,
            ⟨rfl, rfl, hHandle⟩, hEq.symm⟩
  | accept id msg =>
      rcases Option.ite_none_right_eq_some.mp hExec with
        ⟨hCheck, hEq⟩
      exact
        .inr
          (.inl
            ⟨id, msg, rfl, hCheck,
              (Option.some.inj hEq).symm⟩)
  | decide id round msg =>
      rcases Option.ite_none_right_eq_some.mp hExec with
        ⟨hNow, hBind⟩
      rcases Option.bind_eq_some_iff.mp hBind with
        ⟨d, hDecision, hMap⟩
      rcases Option.map_eq_some_iff.mp hMap with
        ⟨dm, hHandle, hEq⟩
      exact
        .inl
          ⟨id, round, dm, Nat.le_of_eq hNow,
            ⟨rfl, rfl, d, hDecision, hHandle⟩, hEq.symm⟩
  | shard id round msg =>
      rcases Option.ite_none_right_eq_some.mp hExec with
        ⟨hHanded, hMap⟩
      rcases Option.map_eq_some_iff.mp hMap with
        ⟨dm, hHandle, hEq⟩
      exact
        .inl
          ⟨id, round, dm, hReached hHanded,
            ⟨rfl, rfl, hHandle⟩, hEq.symm⟩
  | next id =>
      exact
        .inr (.inr ⟨id, rfl, (Option.some.inj hExec).symm⟩)

/- A change of one round leaves the others. -/
theorem Net.set_dm
    (s : Net n) (id : Fin n) (round : Nat)
    (dm : Dumbomvba n) (id' : Fin n) (round' : Nat) :
    (id' = id ∧ round' = round ∧
        (s.set id round dm).dm id' round' = dm) ∨
      (s.set id round dm).dm id' round' =
        s.dm id' round' := by
  unfold Net.set
  dsimp only
  split
  · rename_i hSame
    exact .inl ⟨hSame.1, hSame.2, rfl⟩
  · exact .inr rfl

/-
  The rule for what holds of every party in every round: it
  holds at first and is kept by every handler.
-/
theorem dm_invariant
    {ok : Net n → NetAction n → Prop}
    (P : Fin n → Nat → Dumbomvba n → Prop)
    (hNew : ∀ id round, P id round Dumbomvba.new)
    (hStep :
      ∀ s a id round dm', (network cfg).ReachableBy ok s →
        ok s a → round ≤ s.round id →
          Handles cfg id round (s.dm id round) dm' a →
            P id round (s.dm id round) → P id round dm')
    {s : Net n} (hReach : (network cfg).ReachableBy ok s) :
    ∀ id round, P id round (s.dm id round) := by
  refine
    hReach.invariant
      (fun s => ∀ id round, P id round (s.dm id round))
      hNew ?_
  intro s a s' hBefore hAll hOk hExec id round
  rcases exec_cases hExec with
    ⟨id', round', dm, hLe, hHandles, rfl⟩ |
      ⟨_, _, _, _, rfl⟩ | ⟨_, _, rfl⟩
  · rcases s.set_dm id' round' dm id round with
      ⟨rfl, rfl, hEq⟩ | hSame
    · rw [hEq]
      exact
        hStep s a id round dm hBefore hOk hLe hHandles
          (hAll id round)
    · rw [hSame]
      exact hAll id round
  · exact hAll id round
  · exact hAll id round

/- Rounds that have not been reached are untouched. -/
theorem later_new
    {ok : Net n → NetAction n → Prop} {s : Net n}
    (hReach : (network cfg).ReachableBy ok s) :
    ∀ id round, s.round id < round →
      s.dm id round = Dumbomvba.new := by
  refine
    hReach.invariant
      (fun s =>
        ∀ id round, s.round id < round →
          s.dm id round = Dumbomvba.new)
      (fun _ _ _ => rfl) ?_
  intro s a s' _ hAll _ hExec id round hLater
  rcases exec_cases hExec with
    ⟨id', round', dm, hLe, _, rfl⟩ | ⟨_, _, _, _, rfl⟩ |
      ⟨id', _, rfl⟩
  · rcases s.set_dm id' round' dm id round with
      ⟨rfl, rfl, _⟩ | hSame
    · exact absurd hLater (Nat.not_lt.mpr hLe)
    · rw [hSame]
      exact hAll id round hLater
  · exact hAll id round hLater
  · refine hAll id round ?_
    by_cases hEq : id = id'
    · subst hEq
      dsimp only at hLater
      rw [Function.update_self] at hLater
      omega
    · dsimp only at hLater
      rw [Function.update_of_ne hEq] at hLater
      exact hLater

end Steps

end DumboMVBA

end Jumbo
