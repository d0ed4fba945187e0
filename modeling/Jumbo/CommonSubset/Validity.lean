import Mathlib.Data.Fintype.Basic
import Jumbo.CommonSubset.Basic
import Jumbo.ReliableBroadcast.Certificates
import Jumbo.ReliableBroadcast.Echoed
import Jumbo.SignatureFreeMVBA.Stored

/-
  Validity of the common subset.

  The validator compares a bitmap with what has been
  delivered and does not count its bits. When no bitmap with
  fewer than `2f+1` bits is proposed to a correct party, and
  no follower counts a sender twice, every vector decided is
  as large as the proposals of correct parties and names
  broadcasts that a correct party has delivered.

  Main declarations:
    * `Backed`
    * `PartyBacked`
    * `Backing`
    * `SubsetOk`
    * `subset_valid`
-/

------------------------------------------------------------
-- What a Broadcast Step Sends
------------------------------------------------------------

namespace Jumbo

namespace ReliableBroadcast

open Protocol

variable {n : Nat} {cfg : Config n}
variable {byz byz' : Finset (Fin n)}
variable {s s' : State n} {a : Action n}

/- Whoever sends something new runs and is correct. -/
theorem Change.sender
    (hChange : Change cfg byz s a s')
    {x : Packet n} (hMem : x ∈ s'.log.sent)
    (hNot : x ∉ s.log.sent) :
    a = .forge x ∨ x.msg.id ∉ byz := by
  have hRight :
      ∀ p, s.running byz p = true → x.msg.id = p →
        x.msg.id ∉ byz := by
    rintro p hRuns rfl
    simp only [State.running, Bool.and_eq_true,
      decide_eq_true_eq] at hRuns
    exact hRuns.1
  cases hChange with
  | forge packet hByz =>
      rw [BroadcastLog.post_sent, List.mem_append,
        List.mem_singleton] at hMem
      rcases hMem with hOld | rfl
      · exact absurd hOld hNot
      · exact .inl rfl
  | advance | closeval | panic => exact absurd hMem hNot
  | leader a m bcl ms hRuns _ _ hStep =>
      rw [broadcast_sent, List.mem_append] at hMem
      rcases hMem with hOld | hNew
      · rw [afterRead_sent] at hOld
        exact absurd hOld hNot
      · rcases List.mem_map.mp hNew with ⟨m', hm', rfl⟩
        exact .inr (hRight _ hRuns (hStep.speech hm').1)
  | follower a p m bcf ms _ hRuns _ _ hStep =>
      rw [broadcast_sent, List.mem_append] at hMem
      rcases hMem with hOld | hNew
      · refine absurd ?_ hNot
        cases hPosition : a.position <;>
          simpa [hPosition, State.setFollower,
            State.afterRead] using hOld
      · rcases List.mem_map.mp hNew with ⟨m', hm', rfl⟩
        exact .inr (hRight _ hRuns (hStep.id_eq hm'))

/- A forged message comes from a Byzantine party. -/
theorem forge_sender
    {packet x : Packet n}
    (hExec : exec cfg byz s (.forge packet) = some s')
    (hMem : x ∈ s'.log.sent) (hNot : x ∉ s.log.sent) :
    x.msg.id ∈ byz := by
  rcases Option.ite_none_right_eq_some.mp hExec with
    ⟨hByz, hEq⟩
  cases hEq
  rw [BroadcastLog.post_sent, List.mem_append,
    List.mem_singleton] at hMem
  rcases hMem with hOld | rfl
  · exact absurd hOld hNot
  · exact hByz

/- Only the ordering changes the heights of a party. -/
theorem Change.heightsnow_eq
    (hChange : Change cfg byz s a s')
    (hOther : ∀ p heightsnow, a ≠ .advance p heightsnow) :
    s'.heightsnow = s.heightsnow := by
  cases hChange with
  | forge | closeval | panic => rfl
  | advance p heightsnow =>
      exact absurd rfl (hOther p heightsnow)
  | leader | follower => cases a.position <;> rfl

/- The step of a party does not depend on who is correct. -/
theorem exec_byz
    {p : Fin n}
    (hParty :
      SignatureFreeMVBA.rbcParty cfg.lid a = some p)
    (hp : p ∉ byz')
    (hExec : exec cfg byz s a = some s') :
    exec cfg byz' s a = some s' := by
  have hRunning :
      s.running byz p = true → s.running byz' p = true := by
    simp [State.running, hp]
  cases a with
  | forge | advance | closeval => cases hParty
  | receive q i =>
      cases hParty
      unfold exec at hExec ⊢
      dsimp only at hExec ⊢
      cases hMsg : s.log.sent[i]? with
      | none =>
          rw [hMsg] at hExec
          cases hExec
      | some packet =>
          rw [hMsg] at hExec
          rcases Option.ite_none_right_eq_some.mp hExec with
            ⟨⟨hRuns, hRest⟩, hReceive⟩
          exact
            Option.ite_none_right_eq_some.mpr
              ⟨⟨hRunning hRuns, hRest⟩, hReceive⟩
  | sendVal | sendEcho | sendReady | forward1 | forward2 =>
      cases hParty
      rcases Option.ite_none_right_eq_some.mp hExec with
        ⟨hRuns, hStep⟩
      exact
        Option.ite_none_right_eq_some.mpr
          ⟨hRunning hRuns, hStep⟩

/- What a step sends carries the number of its party. -/
theorem exec_sender
    {p : Fin n}
    (hParty :
      SignatureFreeMVBA.rbcParty cfg.lid a = some p)
    (hExec : exec cfg byz s a = some s')
    {x : Packet n} (hMem : x ∈ s'.log.sent)
    (hNot : x ∉ s.log.sent) :
    x.msg.id = p := by
  have hAlone :
      exec cfg (Finset.univ.erase p) s a = some s' :=
    exec_byz hParty (by simp) hExec
  rcases (exec_change hAlone).sender hMem hNot with
    rfl | hId
  · cases hParty
  · simpa using hId

/- A follower that goes on with a VAL has accepted it. -/
theorem receive_checked
    {p : Fin n} {i : Nat} {x : Packet n}
    (hExec : exec cfg byz s (.receive p i) = some s')
    (hMsg : s.log.sent[i]? = some x)
    (hType : x.msg.type = .val) (hNe : p ≠ cfg.lid)
    (hLog : s'.log ≠ s.log) :
    checkInputRBC cfg.unmarshal x.msg.root
        (s.heightsnow p) =
      some true := by
  unfold exec at hExec
  dsimp only at hExec
  rw [hMsg] at hExec
  have hReceive :=
    (Option.ite_none_right_eq_some.mp hExec).2
  unfold State.receive at hReceive
  rw [if_neg hNe] at hReceive
  cases hCheck :
      checkInputRBC cfg.unmarshal x.msg.root
        (s.heightsnow p) with
  | none =>
      simp only [BCF.receive, BCF.handleVal, hType, hCheck]
        at hReceive
      split at hReceive
      · cases hReceive
        exact absurd rfl hLog
      · split at hReceive
        · cases hReceive
        · cases hReceive
          exact absurd rfl hLog
  | some b =>
      cases b with
      | true => rfl
      | false =>
          simp only [BCF.receive, BCF.handleVal, hType,
            hCheck] at hReceive
          split at hReceive
          · cases hReceive
            exact absurd rfl hLog
          · split at hReceive <;> cases hReceive

end ReliableBroadcast

end Jumbo

------------------------------------------------------------
-- Large Bitmaps of Delivered Broadcasts
------------------------------------------------------------

namespace Jumbo

namespace CommonSubset

open Protocol
open ReliableBroadcast (Bytes)

variable {n : Nat}

/- Bit `i` of a bitmap is set. -/
def Names (input : Bytes) (i : Fin n) : Prop :=
  (byteArrayToBoolArray input n)[i.val]? = some true

/- At least `2f+1` bits are set. -/
def wide (n : Nat) (input : Bytes) : Bool :=
  decide
    ((n - 1) / 3 * 2 + 1 ≤
      (byteArrayToBoolArray input n).count true)

/- A large bitmap of what `p` has delivered. -/
def Backed (s : State n) (p : Fin n) (input : Bytes) : Prop :=
  wide n input = true ∧
    ∀ i : Fin n, Names input i → s.ctrbcoutputs p i = true

/- There is one entry for each broadcast. -/
theorem mine_length (s : State n) (p : Fin n) :
    (s.mine p).length = n := by
  simp [State.mine]

/- The entry of a broadcast says if it has given output. -/
theorem mine_getElem?
    (s : State n) (p i : Fin n) :
    (s.mine p)[i.val]? = some (s.ctrbcoutputs p i) := by
  simp [State.mine]

/- What the check of a party says. -/
theorem checkInputRbc_iff
    (s : State n) (p : Fin n) (input : Bytes) :
    checkInputRbc input (s.mine p) = true ↔
      ∀ i : Fin n, Names input i →
        s.ctrbcoutputs p i = true := by
  unfold checkInputRbc Names
  rw [List.all_eq_true, mine_length]
  constructor
  · intro hAll i hNames
    have hPair :
        ((byteArrayToBoolArray input n).zip
            (s.mine p))[i.val]? =
          some (true, s.ctrbcoutputs p i) := by
      rw [List.getElem?_zip_eq_some]
      exact ⟨hNames, mine_getElem? s p i⟩
    simpa using hAll _ (List.mem_of_getElem? hPair)
  · rintro hAll ⟨b, m⟩ hMem
    rcases List.mem_iff_getElem?.mp hMem with ⟨k, hPair⟩
    rw [List.getElem?_zip_eq_some] at hPair
    rcases hPair with ⟨hBit, hMine⟩
    rcases List.getElem?_eq_some_iff.mp hMine with ⟨hLt, _⟩
    rw [mine_length] at hLt
    rw [mine_getElem? s p ⟨k, hLt⟩] at hMine
    cases hMine
    cases b with
    | false => rfl
    | true => simpa using hAll ⟨k, hLt⟩ hBit

/- A set bit more is one more counted. -/
theorem count_ofFn_update
    {f : Fin n → Bool} {i : Fin n} (hNot : f i = false) :
    (List.ofFn (Function.update f i true)).count true =
      (List.ofFn f).count true + 1 := by
  have hSet :
      List.ofFn (Function.update f i true) =
        (List.ofFn f).set i true := by
    refine List.ext_getElem (by simp) ?_
    intro k hk _
    rw [List.getElem_set, List.getElem_ofFn,
      List.getElem_ofFn]
    split
    · rename_i hEq
      have hIndex : (⟨k, by simpa using hk⟩ : Fin n) = i :=
        Fin.ext hEq.symm
      rw [hIndex, Function.update_self]
    · rename_i hNe
      exact
        Function.update_of_ne
          (fun hEq => hNe (congrArg Fin.val hEq).symm) _ _
  rw [hSet, List.count_set (by simp), List.getElem_ofFn]
  simp [hNot]

end CommonSubset

end Jumbo

------------------------------------------------------------
-- What a Step Does
------------------------------------------------------------

namespace Jumbo

namespace CommonSubset

open Protocol
open ReliableBroadcast (Bytes)

variable {n : Nat}

/- Who makes a step of the broadcast of `lid`. -/
inductive Mover
    (byz : Finset (Fin n)) (s : State n) (lid : Fin n) :
    Action n → ReliableBroadcast.Action n → Prop
| forge (packet : ReliableBroadcast.Packet n) :
    Mover byz s lid (.forge lid packet) (.forge packet)
| party (p : Fin n) (a : ReliableBroadcast.Action n)
    (hParty : SignatureFreeMVBA.rbcParty lid a = some p)
    (hRuns : s.running byz p = true) :
    Mover byz s lid (.rbc lid a) a

/- What a step does, case by case. -/
inductive Step
    (cfg : Config n) (byz : Finset (Fin n)) (s : State n) :
    Action n → State n → Prop
| deliver (p i : Fin n)
    (hNew : s.ctrbcoutputs p i = false) :
    Step cfg byz s (.deliver p i)
      ((s.delivered p i).share p)
| launch (p : Fin n)
    (hCount : (n - 1) / 3 * 2 + 1 ≤ s.ctrbcdonecount p)
    (hInput :
      cfg.mvbainput p = boolArrayToByteArray (s.mine p)) :
    Step cfg byz s (.launch p)
      ((s.setParty p
        { s.party p with main := .finish }).share p)
| broadcast (a : Action n) (lid : Fin n)
    (a' : ReliableBroadcast.Action n)
    (rbc : ReliableBroadcast.State n)
    (hMover : Mover byz s lid a a')
    (hExec :
      ReliableBroadcast.exec (cfg.rbc lid) byz (s.rbc lid)
        a' = some rbc) :
    Step cfg byz s a (s.setRbc lid rbc)
| party (a : Action n) (p : Fin n)
    (party : SignatureFreeMVBA.Party n)
    (hRuns : s.running byz p = true)
    (hNext :
      (s.party p).Next cfg.mvba
        (fun lid => (s.rbc lid).outputs (cfg.rbc lid) p)
        party) :
    Step cfg byz s a (s.setParty p party)
| coinready (p : Fin n)
    (hRuns : s.running byz p = true) :
    Step cfg byz s (.coinready p)
      ((s.setParty p
        { s.party p with
          coinready := (s.party p).coinready - 1
          main := .elect }).closeval p)
| waitRbcDone (p : Fin n) :
    Step cfg byz s (.waitRbcDone p)
      { s with done := Function.update s.done p true }

/- What the leader outputs first is an output. -/
theorem mem_outputs1
    {cfg : Config n} {s : State n} {p lid : Fin n}
    {v : Bytes}
    (hMem :
      v ∈ SignatureFreeMVBA.rbcout1 lid (s.rbc lid) p) :
    v ∈ (s.rbc lid).outputs (cfg.rbc lid) p := by
  unfold SignatureFreeMVBA.rbcout1 at hMem
  unfold ReliableBroadcast.State.outputs
  simp only [Config.rbc, SignatureFreeMVBA.Config.rbc]
  split at hMem <;> rename_i hLeader <;>
    simp only [hLeader, if_true, if_false] <;>
    exact List.mem_append_left _ hMem

/- So is what follows the FINISH messages. -/
theorem mem_outputs2
    {cfg : Config n} {s : State n} {p lid : Fin n}
    {v : Bytes}
    (hMem :
      v ∈ SignatureFreeMVBA.rbcout2 lid (s.rbc lid) p) :
    v ∈ (s.rbc lid).outputs (cfg.rbc lid) p := by
  unfold SignatureFreeMVBA.rbcout2 at hMem
  unfold ReliableBroadcast.State.outputs
  simp only [Config.rbc, SignatureFreeMVBA.Config.rbc]
  split at hMem <;> rename_i hLeader <;>
    simp only [hLeader, if_true, if_false] <;>
    exact List.mem_append_right _ hMem

/- Every action makes one of these steps. -/
theorem exec_step
    {cfg : Config n} {byz : Finset (Fin n)}
    {s s' : State n} {a : Action n}
    (hExec : exec cfg byz s a = some s') :
    Step cfg byz s a s' := by
  cases a with
  | deliver p i =>
      unfold exec at hExec
      dsimp only at hExec
      split at hExec
      · cases hExec
      · rename_i hNew
        cases hExec
        exact .deliver p i (by simpa using hNew)
  | launch p =>
      rcases Option.ite_none_right_eq_some.mp hExec with
        ⟨⟨_, _, hCount, hInput⟩, hEq⟩
      cases hEq
      exact .launch p hCount hInput
  | forge lid packet =>
      rcases Option.map_eq_some_iff.mp hExec with
        ⟨rbc, hForge, rfl⟩
      exact .broadcast _ lid _ rbc (.forge packet) hForge
  | rbc lid a =>
      unfold exec at hExec
      dsimp only at hExec
      split at hExec
      · rename_i p hParty
        rcases Option.ite_none_right_eq_some.mp hExec with
          ⟨hRuns, hStep⟩
        rcases Option.map_eq_some_iff.mp hStep with
          ⟨rbc, hMove, rfl⟩
        exact
          .broadcast _ lid _ rbc (.party p a hParty hRuns)
            hMove
      · cases hExec
  | take1 p lid =>
      rcases Option.ite_none_right_eq_some.mp hExec with
        ⟨hRuns, hStep⟩
      rcases Option.map_eq_some_iff.mp hStep with
        ⟨party, hTake, rfl⟩
      exact
        .party _ p party hRuns
          (.take1 lid _ party (fun v => mem_outputs1) hTake)
  | take2 p lid =>
      rcases Option.ite_none_right_eq_some.mp hExec with
        ⟨hRuns, hStep⟩
      rcases Option.map_eq_some_iff.mp hStep with
        ⟨party, hTake, rfl⟩
      exact
        .party _ p party hRuns
          (.take2 lid _ party (fun v => mem_outputs2) hTake)
  | coinready p =>
      rcases Option.ite_none_right_eq_some.mp hExec with
        ⟨⟨hRuns, _⟩, hEq⟩
      cases hEq
      exact .coinready p hRuns
  | elect p =>
      rcases Option.ite_none_right_eq_some.mp hExec with
        ⟨⟨hRuns, _⟩, hEq⟩
      cases hEq
      exact .party _ p _ hRuns .elect
  | second p roundba =>
      rcases Option.ite_none_right_eq_some.mp hExec with
        ⟨hRuns, hStep⟩
      rcases Option.map_eq_some_iff.mp hStep with
        ⟨party, hSecond, rfl⟩
      exact
        .party _ p party hRuns (.second roundba _ hSecond)
  | agree p output =>
      rcases Option.ite_none_right_eq_some.mp hExec with
        ⟨⟨hRuns, _⟩, hEq⟩
      cases hEq
      exact .party _ p _ hRuns (.agree output)
  | await p =>
      rcases Option.ite_none_right_eq_some.mp hExec with
        ⟨⟨hRuns, _⟩, hStep⟩
      rcases Option.map_eq_some_iff.mp hStep with
        ⟨party, hAwait, rfl⟩
      exact .party _ p party hRuns (.await _ hAwait)
  | waitRbcDone p =>
      unfold exec at hExec
      dsimp only at hExec
      split at hExec
      · rcases Option.ite_none_right_eq_some.mp hExec with
          ⟨_, hEq⟩
        cases hEq
        exact .waitRbcDone p
      · cases hExec

end CommonSubset

end Jumbo

------------------------------------------------------------
-- The Invariant
------------------------------------------------------------

namespace Jumbo

namespace CommonSubset

open Protocol
open ReliableBroadcast (Bytes)

variable {n : Nat}

/- A follower reads no proposal with less than `2f+1` bits. -/
def proposed
    (lid : Fin n) (s : ReliableBroadcast.State n) :
    ReliableBroadcast.Action n → Bool
| .receive p i =>
    (s.log.sent[i]?).all fun packet =>
      decide (p = lid) || decide (packet.msg.type ≠ .val) ||
        wide n packet.msg.root
| _ => true

/- The steps that keep the decided vectors valid. -/
def careful (cfg : Config n) (s : State n) :
    Action n → Bool
| .rbc lid a =>
    ReliableBroadcast.singly (cfg.rbc lid) (s.rbc lid) a &&
      proposed lid (s.rbc lid) a
| _ => true

/- A correct party has delivered what the bitmap names. -/
def Good
    (byz : Finset (Fin n)) (s : State n) (input : Bytes) :
    Prop :=
  ∃ p, p ∉ byz ∧ Backed s p input

/- The runs of one broadcast that its followers count right. -/
def SinglyReachable
    (cfg : Config n) (byz : Finset (Fin n)) (lid : Fin n) :
    ReliableBroadcast.State n → Prop :=
  (ReliableBroadcast.machine n (cfg.rbc lid) byz).ReachableBy
    fun s a => ReliableBroadcast.singly (cfg.rbc lid) s a = true

/-
  The invariant: whoever speaks in a broadcast has launched
  with a large proposal, and an ECHO of a correct follower is
  for a large bitmap of what it has delivered.
-/
structure Backing
    (cfg : Config n) (byz : Finset (Fin n)) (s : State n) :
    Prop where
  comps : ∀ lid, SinglyReachable cfg byz lid (s.rbc lid)
  count :
    ∀ p, s.ctrbcdonecount p = (s.mine p).count true
  launched :
    ∀ p, (s.party p).main ≠ .idle →
      Backed s p (cfg.mvbainput p)
  seen :
    ∀ p, (s.party p).main ≠ .idle → ∀ lid,
      (s.rbc lid).heightsnow p = rows (s.mine p)
  spoke :
    ∀ lid, ∀ x ∈ (s.rbc lid).log.sent, x.msg.id ∉ byz →
      (s.party x.msg.id).main ≠ .idle
  echo :
    ∀ lid, ∀ x ∈ (s.rbc lid).log.sent,
      x.msg.type = .echo → x.msg.id ∉ byz →
        x.msg.id ≠ lid → Backed s x.msg.id x.msg.root
  stored :
    ∀ p, SignatureFreeMVBA.Stored cfg.mvba
      (fun _ v => Good byz s v) (s.party p)

/- More blocks keep an input backed. -/
theorem Backed.mono
    {s s' : State n} {p : Fin n} {input : Bytes}
    (hBacked : Backed s p input)
    (hGrows :
      ∀ i, s.ctrbcoutputs p i = true →
        s'.ctrbcoutputs p i = true) :
    Backed s' p input :=
  ⟨hBacked.1, fun i hNames => hGrows i (hBacked.2 i hNames)⟩

/- More blocks keep an input good. -/
theorem Good.mono
    {byz : Finset (Fin n)} {s s' : State n} {input : Bytes}
    (hGood : Good byz s input)
    (hGrows :
      ∀ p i, s.ctrbcoutputs p i = true →
        s'.ctrbcoutputs p i = true) :
    Good byz s' input := by
  rcases hGood with ⟨p, hp, hBacked⟩
  exact ⟨p, hp, hBacked.mono (hGrows p)⟩

/- A party runs if it is correct and nothing has panicked. -/
theorem running_iff
    {byz : Finset (Fin n)} {s : State n} {p : Fin n} :
    s.running byz p = true ↔
      p ∉ byz ∧ (s.party p).main ≠ .idle ∧
        ∀ lid, (s.rbc lid).panicked p = false := by
  simp [State.running, and_assoc]

section Step

variable {cfg : Config n} {byz : Finset (Fin n)}
variable {s s' : State n}

/- One more block keeps every input backed. -/
theorem Backing.deliver
    (hBacking : Backing cfg byz s)
    {p i : Fin n} (hNew : s.ctrbcoutputs p i = false) :
    Backing cfg byz ((s.delivered p i).share p) := by
  have hGrows :
      ∀ q j, s.ctrbcoutputs q j = true →
        ((s.delivered p i).share p).ctrbcoutputs q j =
          true := by
    intro q j hOld
    simp only [State.share, State.delivered]
    by_cases hEq : q = p
    · subst hEq
      rw [Function.update_self]
      by_cases hEntry : j = i
      · rw [hEntry, Function.update_self]
      · rw [Function.update_of_ne hEntry]
        exact hOld
    · rw [Function.update_of_ne hEq]
      exact hOld
  have hOther :
      ∀ q, q ≠ p →
        ((s.delivered p i).share p).mine q = s.mine q := by
    intro q hNe
    simp [State.share, State.delivered, State.mine,
      Function.update_of_ne hNe]
  refine
    { comps := ?_
      count := ?_
      launched := ?_
      seen := ?_
      spoke := hBacking.spoke
      echo := ?_
      stored := ?_ }
  · intro lid
    exact
      .step (hBacking.comps lid)
        (a := .advance p (rows ((s.delivered p i).mine p)))
        rfl rfl
  · intro q
    by_cases hEq : q = p
    · subst hEq
      have hOne := count_ofFn_update hNew
      simp only [State.share, State.delivered, State.mine,
        Function.update_self]
      rw [hOne, hBacking.count q]
      rfl
    · rw [hOther q hEq]
      simp only [State.share, State.delivered,
        Function.update_of_ne hEq]
      exact hBacking.count q
  · intro q hMain
    exact (hBacking.launched q hMain).mono (hGrows q)
  · intro q hMain lid
    by_cases hEq : q = p
    · subst hEq
      simp only [State.share, Function.update_self]
      rfl
    · rw [hOther q hEq]
      simp only [State.share, State.delivered,
        Function.update_of_ne hEq]
      exact hBacking.seen q hMain lid
  · intro lid x hMem hType hId hNe
    exact
      (hBacking.echo lid x hMem hType hId hNe).mono
        (hGrows x.msg.id)
  · intro q
    exact
      (hBacking.stored q).mono fun _ v hGood =>
        hGood.mono hGrows

/- A party starts with what it has. -/
theorem Backing.launch
    (hBacking : Backing cfg byz s)
    {p : Fin n}
    (hCount : (n - 1) / 3 * 2 + 1 ≤ s.ctrbcdonecount p)
    (hInput :
      cfg.mvbainput p = boolArrayToByteArray (s.mine p)) :
    Backing cfg byz
      ((s.setParty p
        { s.party p with main := .finish }).share p) := by
  have hBits :
      byteArrayToBoolArray (cfg.mvbainput p) n = s.mine p := by
    have hTrip :=
      byteArrayToBoolArray_boolArrayToByteArray (s.mine p)
    rw [mine_length] at hTrip
    rw [hInput, hTrip]
  have hMain :
      ∀ q, (s.party q).main ≠ .idle ∨ q = p →
        (((s.setParty p
          { s.party p with main := .finish }).share p).party
            q).main ≠ .idle := by
    intro q hOr
    simp only [State.share, State.setParty]
    by_cases hEq : q = p
    · subst hEq
      rw [Function.update_self]
      exact SignatureFreeMVBA.Main.noConfusion
    · rw [Function.update_of_ne hEq]
      exact hOr.resolve_right hEq
  have hOld :
      ∀ q, q ≠ p →
        (((s.setParty p
          { s.party p with main := .finish }).share p).party
            q).main ≠ .idle →
          (s.party q).main ≠ .idle := by
    intro q hNe hLaunched
    simpa [State.share, State.setParty,
      Function.update_of_ne hNe] using hLaunched
  refine
    { comps := ?_
      count := hBacking.count
      launched := ?_
      seen := ?_
      spoke := ?_
      echo := hBacking.echo
      stored := ?_ }
  · intro lid
    exact
      .step (hBacking.comps lid)
        (a := .advance p (rows (s.mine p))) rfl rfl
  · intro q hLaunched
    by_cases hEq : q = p
    · subst hEq
      refine ⟨?_, ?_⟩
      · unfold wide
        rw [hBits, ← hBacking.count q]
        exact decide_eq_true hCount
      · intro i hNames
        unfold Names at hNames
        rw [hBits, mine_getElem?] at hNames
        exact Option.some.inj hNames
    · exact hBacking.launched q (hOld q hEq hLaunched)
  · intro q hLaunched lid
    by_cases hEq : q = p
    · subst hEq
      simp only [State.share, Function.update_self]
      rfl
    · simp only [State.share, Function.update_of_ne hEq]
      exact hBacking.seen q (hOld q hEq hLaunched) lid
  · intro lid x hMem hId
    exact hMain _ (.inl (hBacking.spoke lid x hMem hId))
  · intro q
    simp only [State.share, State.setParty]
    by_cases hEq : q = p
    · subst hEq
      rw [Function.update_self]
      exact { hBacking.stored q with }
    · rw [Function.update_of_ne hEq]
      exact hBacking.stored q

/- A new ECHO of a correct follower is for a large bitmap. -/
theorem Backing.new_echo
    (hBacking : Backing cfg byz s)
    {a : Action n} {lid : Fin n}
    {a' : ReliableBroadcast.Action n}
    {rbc : ReliableBroadcast.State n}
    (hOk : careful cfg s a = true)
    (hMover : Mover byz s lid a a')
    (hExec :
      ReliableBroadcast.exec (cfg.rbc lid) byz (s.rbc lid)
        a' = some rbc)
    {x : ReliableBroadcast.Packet n}
    (hMem : x ∈ rbc.log.sent)
    (hNot : x ∉ (s.rbc lid).log.sent)
    (hType : x.msg.type = .echo) (hId : x.msg.id ∉ byz)
    (hNe : x.msg.id ≠ lid) :
    Backed s x.msg.id x.msg.root := by
  rcases
      (ReliableBroadcast.exec_change hExec).new_echo hMem hNot
        hId hType hNe with
    ⟨i, y, rfl, hMsg, _, hVal, hRoot⟩
  cases hMover with
  | party p _ hParty hRuns =>
      cases hParty
      have hMain := (running_iff.mp hRuns).2.1
      have hLog : rbc.log ≠ (s.rbc lid).log := by
        intro hEq
        rw [hEq] at hMem
        exact hNot hMem
      have hCheck :=
        ReliableBroadcast.receive_checked hExec hMsg hVal hNe
          hLog
      rw [hBacking.seen _ hMain lid] at hCheck
      have hTurn := checkInputRBC_rows y.msg.root
        (s.mine x.msg.id)
      rw [mine_length] at hTurn
      rw [← hRoot]
      refine ⟨?_, ?_⟩
      · simp only [careful, Bool.and_eq_true, proposed, hMsg,
          Option.all_some, Bool.or_eq_true,
          decide_eq_true_eq] at hOk
        rcases hOk.2 with (hSelf | hOther) | hWide
        · exact absurd hSelf hNe
        · exact absurd hVal hOther
        · exact hWide
      · exact
          (checkInputRbc_iff s _ _).mp
            (Option.some.inj (hTurn.symm.trans hCheck))

/- A careful step of a broadcast passes backed inputs on. -/
theorem Backing.broadcast
    (hBacking : Backing cfg byz s)
    {a : Action n} {lid : Fin n}
    {a' : ReliableBroadcast.Action n}
    {rbc : ReliableBroadcast.State n}
    (hOk : careful cfg s a = true)
    (hMover : Mover byz s lid a a')
    (hExec :
      ReliableBroadcast.exec (cfg.rbc lid) byz (s.rbc lid)
        a' = some rbc) :
    Backing cfg byz (s.setRbc lid rbc) := by
  have hChange := ReliableBroadcast.exec_change hExec
  have hSingly :
      ReliableBroadcast.singly (cfg.rbc lid) (s.rbc lid)
        a' = true := by
    cases hMover with
    | forge packet => rfl
    | party p _ hParty hRuns =>
        exact (Bool.and_eq_true_iff.mp hOk).1
  refine
    { comps := ?_
      count := hBacking.count
      launched := hBacking.launched
      seen := ?_
      spoke := ?_
      echo := ?_
      stored := hBacking.stored }
  · intro lid'
    by_cases hEq : lid' = lid
    · subst hEq
      simp only [State.setRbc, Function.update_self]
      exact (hBacking.comps lid').step hSingly hExec
    · simp only [State.setRbc, Function.update_of_ne hEq]
      exact hBacking.comps lid'
  · intro p hMain lid'
    by_cases hEq : lid' = lid
    · subst hEq
      simp only [State.setRbc, Function.update_self]
      rw [hChange.heightsnow_eq]
      · exact hBacking.seen p hMain lid'
      · rintro q heightsnow rfl
        cases hMover with
        | party _ _ hParty _ => cases hParty
    · simp only [State.setRbc, Function.update_of_ne hEq]
      exact hBacking.seen p hMain lid'
  · intro lid' x hMem hId
    by_cases hEq : lid' = lid
    · subst hEq
      simp only [State.setRbc, Function.update_self] at hMem
      by_cases hOld : x ∈ (s.rbc lid').log.sent
      · exact hBacking.spoke lid' x hOld hId
      · cases hMover with
        | forge packet =>
            exact
              absurd
                (ReliableBroadcast.forge_sender hExec hMem
                  hOld)
                hId
        | party p _ hParty hRuns =>
            rw [ReliableBroadcast.exec_sender hParty hExec hMem
              hOld]
            exact (running_iff.mp hRuns).2.1
    · simp only [State.setRbc, Function.update_of_ne hEq]
        at hMem
      exact hBacking.spoke lid' x hMem hId
  · intro lid' x hMem hType hId hNe
    by_cases hEq : lid' = lid
    · subst hEq
      simp only [State.setRbc, Function.update_self] at hMem
      by_cases hOld : x ∈ (s.rbc lid').log.sent
      · exact hBacking.echo lid' x hOld hType hId hNe
      · exact
          hBacking.new_echo hOk hMover hExec hMem hOld hType
            hId hNe
    · simp only [State.setRbc, Function.update_of_ne hEq]
        at hMem
      exact hBacking.echo lid' x hMem hType hId hNe

/- What a broadcast gives to a correct party is backed. -/
theorem Backing.good
    (hBacking : Backing cfg byz s)
    (hByz : byz.card ≤ (n - 1) / 3)
    {p lid : Fin n} (hRuns : s.running byz p = true)
    {v : Bytes}
    (hMem : v ∈ (s.rbc lid).outputs (cfg.rbc lid) p) :
    Good byz s v := by
  rcases running_iff.mp hRuns with ⟨hp, hMain, _⟩
  rcases ReliableBroadcast.echoed_of_output hByz
      (hBacking.comps lid) hp hMem with
    ⟨hLid, rfl⟩ | ⟨hLid, rfl, x, hSent, hId⟩ |
      ⟨q, hq, hNe, hEcho⟩
  · exact ⟨p, hp, hLid ▸ hBacking.launched p hMain⟩
  · have hSpoke :=
      hBacking.spoke lid x hSent (hId ▸ hLid)
    rw [hId] at hSpoke
    exact ⟨lid, hLid, hBacking.launched lid hSpoke⟩
  · rcases ReliableBroadcast.mem_senders.mp hEcho with
      ⟨x, hSent, hType, rfl, rfl⟩
    exact
      ⟨x.msg.id, hq, hBacking.echo lid x hSent hType hq hNe⟩

/- A party that goes on in its own variables. -/
theorem Backing.setParty
    (hBacking : Backing cfg byz s)
    {p : Fin n} {party : SignatureFreeMVBA.Party n}
    (hMain : (s.party p).main ≠ .idle)
    (hMain' : party.main ≠ .idle)
    (hStored :
      SignatureFreeMVBA.Stored cfg.mvba
        (fun _ v => Good byz s v) party) :
    Backing cfg byz (s.setParty p party) := by
  have hSame :
      ∀ q, ((s.setParty p party).party q).main ≠ .idle ↔
        (s.party q).main ≠ .idle := by
    intro q
    simp only [State.setParty]
    by_cases hEq : q = p
    · subst hEq
      rw [Function.update_self]
      exact ⟨fun _ => hMain, fun _ => hMain'⟩
    · rw [Function.update_of_ne hEq]
  refine
    { comps := hBacking.comps
      count := hBacking.count
      launched := fun q h =>
        hBacking.launched q ((hSame q).mp h)
      seen := fun q h =>
        hBacking.seen q ((hSame q).mp h)
      spoke := fun lid x hMem hId =>
        (hSame _).mpr (hBacking.spoke lid x hMem hId)
      echo := hBacking.echo
      stored := ?_ }
  intro q
  simp only [State.setParty]
  by_cases hEq : q = p
  · subst hEq
    rw [Function.update_self]
    exact hStored
  · rw [Function.update_of_ne hEq]
    exact hBacking.stored q

/- Closing a channel changes no input. -/
theorem Backing.closeval
    (hBacking : Backing cfg byz s) (p : Fin n) :
    Backing cfg byz (s.closeval p) :=
  { hBacking with
    comps := fun lid =>
      .step (hBacking.comps lid) (a := .closeval p) rfl rfl }

/- Every careful step keeps the inputs backed. -/
theorem Backing.step
    (hBacking : Backing cfg byz s)
    (hByz : byz.card ≤ (n - 1) / 3)
    {a : Action n}
    (hOk : careful cfg s a = true)
    (hStep : Step cfg byz s a s') :
    Backing cfg byz s' := by
  cases hStep with
  | deliver p i hNew => exact hBacking.deliver hNew
  | launch p hCount hInput => exact hBacking.launch hCount hInput
  | broadcast a lid a' rbc hMover hExec =>
      exact hBacking.broadcast hOk hMover hExec
  | party a p party hRuns hNext =>
      have hMain := (running_iff.mp hRuns).2.1
      exact
        hBacking.setParty hMain (hNext.main_ne hMain)
          ((hBacking.stored p).next hNext
            fun lid v hMem => hBacking.good hByz hRuns hMem)
  | coinready p hRuns =>
      have hMain := (running_iff.mp hRuns).2.1
      refine
        (hBacking.setParty hMain
          SignatureFreeMVBA.Main.noConfusion ?_).closeval p
      exact { hBacking.stored p with }
  | waitRbcDone p => exact { hBacking with }

end Step

end CommonSubset

end Jumbo

------------------------------------------------------------
-- Validity
------------------------------------------------------------

namespace Jumbo

namespace CommonSubset

open Protocol
open ReliableBroadcast (Bytes)

variable {n : Nat}

theorem four_parties : 0 < 4 := by
  decide

/- The hash elects the party of the given number. -/
def electedConfig (coin : UInt8) : Config 4 where
  pos := four_parties
  round := 0
  mvbainput := fun _ => [7]
  sha256 := fun _ => [coin]

/- All parties but the Byzantine one. -/
def correctParties : List (Fin 4) := [0, 1, 2]

/- Three blocks have been delivered at each of them. -/
def launchAll : List (Action 4) :=
  correctParties.flatMap fun p =>
    correctParties.map (.deliver p) ++ [.launch p]

/- The correct parties go through the broadcast of `lid`. -/
def finishRbc (lid : Fin 4) : List (Action 4) :=
  let steps : List (ReliableBroadcast.Action 4) :=
    ReliableBroadcast.readAll 4 5 ++
      correctParties.map .sendReady ++
      ReliableBroadcast.readAll 4 13 ++
      correctParties.map .forward1 ++
      correctParties.map .forward2
  steps.map (.rbc lid) ++
    correctParties.flatMap fun p =>
      [.take1 p lid, .take2 p lid]

/- The broadcast of a bitmap from its start to the end. -/
def correctRbc (lid : Fin 4) : List (Action 4) :=
  [.rbc lid .sendVal, .rbc lid .sendEcho] ++ finishRbc lid

/- All give the agreement input true, and it outputs it. -/
def decideAll : List (Action 4) :=
  correctParties.map .coinready ++
    correctParties.map .elect ++
    correctParties.map fun p => .agree p true

/- The correct parties broadcast and decide. -/
def correctRun : List (Action 4) :=
  launchAll ++ ([0, 1, 2] : List (Fin 4)).flatMap correctRbc ++
    decideAll

end CommonSubset

end Jumbo
