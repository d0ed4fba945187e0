import Jumbo.BinaryAgreement.Agreement
import Jumbo.ReliableBroadcast.Agreement
import Jumbo.ReliableBroadcast.Validity
import Jumbo.SignatureFreeMVBA.Basic

/-
  Agreement and validity of the signature-free MVBA.

  A run of the whole projects to runs of every broadcast and
  of every binary agreement, so their theorems apply: what a
  party stores for a broadcaster is that party's input, and
  no two parties leave the rounds at different agreements.

  Main declarations:
    * `Components`
    * `PartyOk`
    * `agreement_validity`
-/

------------------------------------------------------------
-- Runs of the Components
------------------------------------------------------------

namespace Jumbo

namespace BinaryAgreement

variable {n : Nat}

/- Steps of goroutines other than `handle_finish`. -/
theorem PartyStep.output_eq
    {cfg : Config} {id : Fin n} {ba ba' : BA}
    {event : Event} {ms : List (BAMsg n)}
    (hStep : PartyStep cfg id ba event ba' ms) :
    ba'.output = ba.output := by
  cases hStep with
  | elect hMain =>
      rcases elect_cases cfg ba with
        ⟨value, hEq⟩ | ⟨input, hEq⟩
      · rw [hEq]
      · rw [hEq]
        rfl
  | _ => rfl

/- An output is never replaced. -/
theorem output_stable
    {cfg : Config} {s s' : State n} {a : Action n}
    (hExec : exec cfg s a = some s')
    {p : Fin n} {b : Bool}
    (hOutput : (s.party p).output = some b) :
    (s'.party p).output = some b := by
  rcases exec_change hExec with
    ⟨hParty, _⟩ | ⟨q, ba, ms, hChange, hParty, _⟩
  · rw [hParty]
    exact hOutput
  · rw [hParty]
    by_cases hEq : p = q
    · subst hEq
      rw [Function.update_self]
      cases hChange with
      | launch | second => exact hOutput
      | handle _ _ m _ _ _ _ hReceive =>
          rcases receive_cases hReceive with
            ⟨_, _, hSame⟩ | ⟨_, hNone, _⟩
          · rw [hSame]
            exact hOutput
          · rw [hOutput] at hNone
            cases hNone
      | go _ event _ _ _ hStep =>
          rw [hStep.output_eq]
          exact hOutput
    · rw [Function.update_of_ne hEq]
      exact hOutput

end BinaryAgreement

namespace SignatureFreeMVBA

open Protocol
open ReliableBroadcast (Bytes)

variable {n : Nat}

/- A step inside one of the broadcasts. -/
theorem exec_rbc
    {cfg : Config n} {s s' : State n} {lid : Fin n}
    {a : ReliableBroadcast.Action n}
    (hExec : exec cfg s (.rbc lid a) = some s') :
    ∃ p rbc,
      ReliableBroadcast.exec (cfg.rbc lid) ∅ (s.rbc lid) a =
        some rbc ∧ s' = s.setRbc lid p rbc := by
  simp only [exec] at hExec
  split at hExec
  · rename_i p _
    rcases Option.ite_none_right_eq_some.mp hExec with
      ⟨_, hMap⟩
    rcases Option.map_eq_some_iff.mp hMap with
      ⟨rbc, hStep, hEq⟩
    exact ⟨p, rbc, hStep, hEq.symm⟩
  · cases hExec

/- A step inside one of the agreements. -/
theorem exec_ba
    {cfg : Config n} {s s' : State n} {roundba : Nat}
    {a : BinaryAgreement.Action n}
    (hExec : exec cfg s (.ba roundba a) = some s') :
    ∃ ba,
      BinaryAgreement.exec (cfg.ba roundba) (s.ba roundba) a =
        some ba ∧ s' = s.setBa roundba ba := by
  simp only [exec] at hExec
  split at hExec
  · rcases Option.ite_none_right_eq_some.mp hExec with
      ⟨_, hMap⟩
    rcases Option.map_eq_some_iff.mp hMap with
      ⟨ba, hStep, hEq⟩
    exact ⟨ba, hStep, hEq.symm⟩
  · cases hExec

/-
  Every broadcast and every agreement is in a state that its
  own system can reach.
-/
structure Components
    (cfg : Config n) (s : State n) : Prop where
  rbc :
    ∀ lid,
      (ReliableBroadcast.machine n (cfg.rbc lid) ∅).Reachable
        (s.rbc lid)
  ba :
    ∀ roundba,
      (BinaryAgreement.machine n (cfg.ba roundba)).Reachable
        (s.ba roundba)

/- A step of a broadcast keeps the others. -/
theorem Components.setRbc
    {cfg : Config n} {s : State n}
    (hComponents : Components cfg s)
    {lid p : Fin n} {a : ReliableBroadcast.Action n}
    {rbc : ReliableBroadcast.State n}
    (hExec :
      ReliableBroadcast.exec (cfg.rbc lid) ∅ (s.rbc lid) a =
        some rbc) :
    Components cfg (s.setRbc lid p rbc) := by
  refine ⟨?_, hComponents.ba⟩
  intro lid'
  by_cases hEq : lid' = lid
  · subst hEq
    simp only [State.setRbc, Function.update_self]
    exact (hComponents.rbc lid').step hExec
  · simp only [State.setRbc, Function.update_of_ne hEq]
    exact hComponents.rbc lid'

/- A step of an agreement keeps the others. -/
theorem Components.setBa
    {cfg : Config n} {s : State n}
    (hComponents : Components cfg s)
    {roundba : Nat} {a : BinaryAgreement.Action n}
    {ba : BinaryAgreement.State n}
    (hExec :
      BinaryAgreement.exec (cfg.ba roundba) (s.ba roundba) a =
        some ba) :
    Components cfg (s.setBa roundba ba) := by
  refine ⟨hComponents.rbc, ?_⟩
  intro roundba'
  by_cases hEq : roundba' = roundba
  · subst hEq
    simp only [State.setBa, Function.update_self]
    exact (hComponents.ba roundba').step hExec
  · simp only [State.setBa, Function.update_of_ne hEq]
    exact hComponents.ba roundba'

/- In every run the parts run as if alone. -/
theorem components
    {cfg : Config n} {s : State n}
    (hReach : (machine n cfg).Reachable s) :
    Components cfg s := by
  refine hReach.invariant (Components cfg) ?_ ?_
  · exact ⟨fun _ => .init, fun _ => .init⟩
  intro s a s' _ hComponents hExec
  cases a with
  | launch p =>
      rcases Option.ite_none_right_eq_some.mp hExec with
        ⟨_, hEq⟩
      cases hEq
      exact ⟨hComponents.rbc, hComponents.ba⟩
  | crash p =>
      cases hExec
      exact ⟨hComponents.rbc, hComponents.ba⟩
  | advance p heightsnow =>
      cases hExec
      refine ⟨?_, hComponents.ba⟩
      intro lid
      exact
        (hComponents.rbc lid).step
          (a := .advance p heightsnow) rfl
  | rbc lid a =>
      rcases exec_rbc hExec with ⟨p, rbc, hStep, rfl⟩
      exact hComponents.setRbc hStep
  | take1 p lid =>
      rcases Option.ite_none_right_eq_some.mp hExec with
        ⟨_, hMap⟩
      rcases Option.map_eq_some_iff.mp hMap with
        ⟨party, _, rfl⟩
      exact ⟨hComponents.rbc, hComponents.ba⟩
  | take2 p lid =>
      rcases Option.ite_none_right_eq_some.mp hExec with
        ⟨_, hMap⟩
      rcases Option.map_eq_some_iff.mp hMap with
        ⟨party, _, rfl⟩
      exact ⟨hComponents.rbc, hComponents.ba⟩
  | coinready p =>
      rcases Option.ite_none_right_eq_some.mp hExec with
        ⟨_, hEq⟩
      cases hEq
      refine ⟨?_, hComponents.ba⟩
      intro lid
      exact
        (hComponents.rbc lid).step (a := .closeval p) rfl
  | elect p =>
      rcases Option.ite_none_right_eq_some.mp hExec with
        ⟨_, hMap⟩
      rcases Option.map_eq_some_iff.mp hMap with
        ⟨ba, hStep, rfl⟩
      have hSet :
          Components cfg
            (s.setParty p ((s.party p).elect cfg)) :=
        ⟨hComponents.rbc, hComponents.ba⟩
      exact hSet.setBa hStep
  | second p roundba =>
      rcases Option.ite_none_right_eq_some.mp hExec with
        ⟨_, hMatch⟩
      split at hMatch
      · rename_i party _
        rcases Option.map_eq_some_iff.mp hMatch with
          ⟨ba, hStep, rfl⟩
        have hSet : Components cfg (s.setParty p party) :=
          ⟨hComponents.rbc, hComponents.ba⟩
        exact hSet.setBa hStep
      · cases hMatch
  | ba roundba a =>
      rcases exec_ba hExec with ⟨ba, hStep, rfl⟩
      exact hComponents.setBa hStep
  | agree p =>
      rcases Option.ite_none_right_eq_some.mp hExec with
        ⟨_, hMap⟩
      rcases Option.map_eq_some_iff.mp hMap with
        ⟨output, _, rfl⟩
      exact ⟨hComponents.rbc, hComponents.ba⟩
  | await p =>
      rcases Option.ite_none_right_eq_some.mp hExec with
        ⟨_, hMap⟩
      rcases Option.map_eq_some_iff.mp hMap with
        ⟨party, _, rfl⟩
      exact ⟨hComponents.rbc, hComponents.ba⟩

end SignatureFreeMVBA

end Jumbo

------------------------------------------------------------
-- What a Party Knows
------------------------------------------------------------

namespace Jumbo

namespace SignatureFreeMVBA

open Protocol
open ReliableBroadcast (Bytes)

variable {n : Nat}

/-
  A party against the outputs that the agreements have given
  to it, by round.
-/
structure PartyOk
    (cfg : Config n) (outputs : Nat → Option Bool)
    (party : Party n) : Prop where
  values :
    ∀ lid, party.rbcouts lid = [] ∨
      party.rbcouts lid = cfg.input lid
  ready :
    ∀ lid, 0 < party.rbcready lid →
      party.rbcouts lid = cfg.input lid
  input :
    ∀ roundba, party.input roundba = true →
      party.rbcouts (cfg.commonCoin roundba) =
        cfg.input (cfg.commonCoin roundba)
  rounds :
    ∀ roundba, roundba < party.roundba →
      outputs roundba = some false
  wait :
    party.main = .wait →
      outputs party.roundba = some true
  done :
    ∀ v, party.output = some v →
      party.main = .done ∧
        outputs party.roundba = some true ∧
          v = cfg.input (cfg.commonCoin party.roundba)

section Party

variable {cfg : Config n} {outputs outputs' : Nat → Option Bool}
variable {party party' : Party n}

/- More outputs keep a party as it should be. -/
theorem PartyOk.mono
    (hOk : PartyOk cfg outputs party)
    (hStable :
      ∀ roundba b, outputs roundba = some b →
        outputs' roundba = some b) :
    PartyOk cfg outputs' party :=
  { hOk with
    rounds := fun roundba hLt =>
      hStable _ _ (hOk.rounds roundba hLt)
    wait := fun hMain => hStable _ _ (hOk.wait hMain)
    done := by
      intro v hv
      rcases hOk.done v hv with ⟨hMain, hTrue, hValue⟩
      exact ⟨hMain, hStable _ _ hTrue, hValue⟩ }

/- Only `rbcouts` and `rbcready` matter for an output taken. -/
theorem PartyOk.store
    {lid : Fin n} {value : Bytes}
    (hOk : PartyOk cfg outputs party)
    (hValue : value = cfg.input lid) :
    PartyOk cfg outputs (party.store lid value) := by
  have hSet :
      ∀ lid',
        party.rbcouts lid' = cfg.input lid' →
          Function.update party.rbcouts lid value lid' =
            cfg.input lid' := by
    intro lid' hOld
    by_cases hEq : lid' = lid
    · subst hEq
      rw [Function.update_self, hValue]
    · rw [Function.update_of_ne hEq, hOld]
  have hValues :
      ∀ lid',
        Function.update party.rbcouts lid value lid' = [] ∨
          Function.update party.rbcouts lid value lid' =
            cfg.input lid' := by
    intro lid'
    by_cases hEq : lid' = lid
    · subst hEq
      rw [Function.update_self, hValue]
      exact .inr rfl
    · rw [Function.update_of_ne hEq]
      exact hOk.values lid'
  have hReady :
      ∀ lid',
        0 < Function.update party.rbcready lid
            (party.rbcready lid + 2) lid' →
          Function.update party.rbcouts lid value lid' =
            cfg.input lid' := by
    intro lid' hPos
    by_cases hEq : lid' = lid
    · subst hEq
      rw [Function.update_self, hValue]
    · rw [Function.update_of_ne hEq] at hPos ⊢
      exact hOk.ready lid' hPos
  unfold Party.store
  dsimp only
  split
  · exact
      { hOk with
        values := hValues
        ready := hReady
        input := fun roundba hTrue =>
          hSet _ (hOk.input roundba hTrue) }
  · exact
      { hOk with
        values := hValues
        ready := hReady
        input := fun roundba hTrue =>
          hSet _ (hOk.input roundba hTrue) }

/- The first output of a broadcast is stored. -/
theorem PartyOk.take1
    {lid : Fin n} {values : List Bytes}
    (hOk : PartyOk cfg outputs party)
    (hValues : ∀ v ∈ values, v = cfg.input lid)
    (hTake : party.take1 lid values = some party') :
    PartyOk cfg outputs party' := by
  unfold Party.take1 at hTake
  split at hTake
  · rename_i value hMem
    cases hTake
    exact PartyOk.store { hOk with }
      (hValues value (List.mem_of_getElem? hMem))
  · cases hTake

/- So is the second. -/
theorem PartyOk.take2
    {lid : Fin n} {values : List Bytes}
    (hOk : PartyOk cfg outputs party)
    (hValues : ∀ v ∈ values, v = cfg.input lid)
    (hTake : party.take2 lid values = some party') :
    PartyOk cfg outputs party' := by
  unfold Party.take2 at hTake
  split at hTake
  · rename_i value hMem
    cases hTake
    exact PartyOk.store { hOk with }
      (hValues value (List.mem_of_getElem? hMem))
  · cases hTake

/- The election chooses the next agreement. -/
theorem PartyOk.elect
    (hOk : PartyOk cfg outputs party)
    (hMain : party.main = .elect) :
    PartyOk cfg outputs (party.elect cfg) :=
  { hOk with
    input := by
      intro roundba hTrue
      by_cases hEq : roundba = party.roundba
      · subst hEq
        simp only [Party.elect, Function.update_self,
          decide_eq_true_eq] at hTrue
        exact (hOk.values _).resolve_left hTrue
      · apply hOk.input
        simpa [Party.elect, hEq] using hTrue
    wait := by
      intro hWait
      cases hWait
    done := by
      intro v hv
      have hDone := (hOk.done v hv).1
      rw [hMain] at hDone
      cases hDone }

/- The second input was promised. -/
theorem PartyOk.second
    {roundba : Nat}
    (hOk : PartyOk cfg outputs party)
    (hSecond : party.second cfg roundba = some party') :
    PartyOk cfg outputs party' := by
  unfold Party.second at hSecond
  dsimp only at hSecond
  rcases Option.ite_none_right_eq_some.mp hSecond with
    ⟨⟨_, hPos⟩, hEq⟩
  cases hEq
  exact
    { hOk with
      ready := by
        intro lid hReady
        apply hOk.ready
        by_cases hEq : lid = cfg.commonCoin roundba
        · rw [hEq]
          exact hPos
        · simpa [hEq] using hReady
      input := by
        intro roundba' hTrue
        by_cases hEq : roundba' = roundba
        · rw [hEq]
          exact hOk.ready _ hPos
        · apply hOk.input
          simpa [hEq] using hTrue }

/- The value put out is the input of the elected party. -/
theorem PartyOk.finish
    (hOk : PartyOk cfg outputs party)
    (hTrue : outputs party.roundba = some true)
    (hStored :
      party.rbcouts (cfg.commonCoin party.roundba) =
        cfg.input (cfg.commonCoin party.roundba)) :
    PartyOk cfg outputs (party.finish cfg) :=
  { hOk with
    wait := by
      intro hWait
      cases hWait
    done := by
      intro v hv
      cases hv
      exact ⟨rfl, hTrue, hStored⟩ }

/- An agreement decides the round or goes on. -/
theorem PartyOk.agree
    {output : Bool}
    (hOk : PartyOk cfg outputs party)
    (hMain : party.main = .agree)
    (hOutput : outputs party.roundba = some output) :
    PartyOk cfg outputs (party.agree cfg output) := by
  have hNone : ∀ v, party.output = some v → False := by
    intro v hv
    have hDone := (hOk.done v hv).1
    rw [hMain] at hDone
    cases hDone
  unfold Party.agree
  cases output with
  | true =>
      rw [if_pos rfl]
      split
      · rename_i hInput
        exact hOk.finish hOutput (hOk.input _ hInput)
      · exact
          { hOk with
            wait := fun _ => hOutput
            done := fun v hv => (hNone v hv).elim }
  | false =>
      rw [if_neg (by decide)]
      exact
        { hOk with
          rounds := by
            intro roundba hLt
            rcases Nat.lt_succ_iff_lt_or_eq.mp hLt with
              h | rfl
            · exact hOk.rounds roundba h
            · exact hOutput
          wait := by
            intro hWait
            cases hWait
          done := fun v hv => (hNone v hv).elim }

/- The elected value is put out when it is there. -/
theorem PartyOk.await
    (hOk : PartyOk cfg outputs party)
    (hMain : party.main = .wait)
    (hAwait : party.await cfg = some party') :
    PartyOk cfg outputs party' := by
  unfold Party.await at hAwait
  dsimp only at hAwait
  rcases Option.ite_none_right_eq_some.mp hAwait with
    ⟨hPos, hEq⟩
  cases hEq
  apply PartyOk.finish
  · exact
      { hOk with
        ready := by
          intro lid hReady
          apply hOk.ready
          by_cases hEq :
              lid = cfg.commonCoin party.roundba
          · rw [hEq]
            exact hPos
          · simpa [hEq] using hReady }
  · exact hOk.wait hMain
  · exact hOk.ready _ hPos

end Party

end SignatureFreeMVBA

end Jumbo

------------------------------------------------------------
-- Agreement and Validity
------------------------------------------------------------

namespace Jumbo

namespace SignatureFreeMVBA

open Protocol
open ReliableBroadcast (Bytes)

variable {n : Nat}

/- The outputs of the agreements at one party. -/
def baOutputs (s : State n) (p : Fin n) (roundba : Nat) :
    Option Bool :=
  ((s.ba roundba).party p).output

/- What a party takes is the broadcaster's input. -/
theorem Components.rbcout
    {cfg : Config n} {s : State n}
    (hComponents : Components cfg s) (lid p : Fin n) :
    (∀ v ∈ rbcout1 lid (s.rbc lid) p, v = cfg.input lid) ∧
      ∀ v ∈ rbcout2 lid (s.rbc lid) p,
        v = cfg.input lid := by
  have hOutputs : ∀ v, v ∈
      (s.rbc lid).outputs (cfg.rbc lid) p →
        v = cfg.input lid := fun v hv =>
    ReliableBroadcast.outputs_eq_input
      (hComponents.rbc lid) hv
  unfold ReliableBroadcast.State.outputs at hOutputs
  constructor
  · intro v hv
    apply hOutputs
    unfold rbcout1 at hv
    split at hv
    · rename_i hEq
      rw [if_pos (show p = (cfg.rbc lid).lid from hEq)]
      exact List.mem_append_left _ hv
    · rename_i hNe
      rw [if_neg (show ¬ p = (cfg.rbc lid).lid from hNe)]
      exact List.mem_append_left _ hv
  · intro v hv
    apply hOutputs
    unfold rbcout2 at hv
    split at hv
    · rename_i hEq
      rw [if_pos (show p = (cfg.rbc lid).lid from hEq)]
      exact List.mem_append_right _ hv
    · rename_i hNe
      rw [if_neg (show ¬ p = (cfg.rbc lid).lid from hNe)]
      exact List.mem_append_right _ hv

/- A step of one party, the agreements left alone. -/
theorem partyOk_setParty
    {cfg : Config n} {s : State n} {p : Fin n}
    {party : Party n}
    (hOk : ∀ q, PartyOk cfg (baOutputs s q) (s.party q))
    (hParty : PartyOk cfg (baOutputs s p) party) :
    ∀ q, PartyOk cfg (baOutputs s q)
      ((s.setParty p party).party q) := by
  intro q
  by_cases hEq : q = p
  · subst hEq
    simp only [State.setParty, Function.update_self]
    exact hParty
  · simp only [State.setParty, Function.update_of_ne hEq]
    exact hOk q

/- A step of one agreement keeps the outputs it has given. -/
theorem partyOk_setBa
    {cfg : Config n} {s : State n} {roundba : Nat}
    {a : BinaryAgreement.Action n}
    {ba : BinaryAgreement.State n}
    (hOk : ∀ q, PartyOk cfg (baOutputs s q) (s.party q))
    (hExec :
      BinaryAgreement.exec (cfg.ba roundba) (s.ba roundba) a =
        some ba) :
    ∀ q, PartyOk cfg (baOutputs (s.setBa roundba ba) q)
      (s.party q) := by
  intro q
  apply (hOk q).mono
  intro roundba' b hOutput
  unfold baOutputs State.setBa at *
  by_cases hEq : roundba' = roundba
  · subst hEq
    simp only [Function.update_self]
    exact BinaryAgreement.output_stable hExec hOutput
  · simp only [Function.update_of_ne hEq]
    exact hOutput

/- In every run every party is as it should be. -/
theorem partyOk
    {cfg : Config n} {s : State n}
    (hReach : (machine n cfg).Reachable s) :
    ∀ p, PartyOk cfg (baOutputs s p) (s.party p) := by
  refine hReach.invariant
    (fun s => ∀ p, PartyOk cfg (baOutputs s p) (s.party p))
    ?_ ?_
  · intro p
    constructor <;>
      simp [machine, State.init, Party.new]
  intro s a s' hBefore hOk hExec
  have hComponents := components hBefore
  cases a with
  | launch p =>
      rcases Option.ite_none_right_eq_some.mp hExec with
        ⟨hIdle, hEq⟩
      cases hEq
      simp only [Bool.and_eq_true, decide_eq_true_eq] at hIdle
      apply partyOk_setParty hOk
      exact
        { hOk p with
          wait := by
            intro hWait
            cases hWait
          done := by
            intro v hv
            have hDone := ((hOk p).done v hv).1
            rw [hIdle.2] at hDone
            cases hDone }
  | crash p =>
      cases hExec
      exact hOk
  | advance p heightsnow =>
      cases hExec
      exact hOk
  | rbc lid a =>
      rcases exec_rbc hExec with ⟨p, rbc, _, rfl⟩
      exact hOk
  | take1 p lid =>
      rcases Option.ite_none_right_eq_some.mp hExec with
        ⟨_, hMap⟩
      rcases Option.map_eq_some_iff.mp hMap with
        ⟨party, hTake, rfl⟩
      exact partyOk_setParty hOk
        ((hOk p).take1 (hComponents.rbcout lid p).1 hTake)
  | take2 p lid =>
      rcases Option.ite_none_right_eq_some.mp hExec with
        ⟨_, hMap⟩
      rcases Option.map_eq_some_iff.mp hMap with
        ⟨party, hTake, rfl⟩
      exact partyOk_setParty hOk
        ((hOk p).take2 (hComponents.rbcout lid p).2 hTake)
  | coinready p =>
      rcases Option.ite_none_right_eq_some.mp hExec with
        ⟨⟨_, hMain, _⟩, hEq⟩
      cases hEq
      apply partyOk_setParty hOk
      exact
        { hOk p with
          wait := by
            intro hWait
            cases hWait
          done := by
            intro v hv
            have hDone := ((hOk p).done v hv).1
            rw [hMain] at hDone
            cases hDone }
  | elect p =>
      rcases Option.ite_none_right_eq_some.mp hExec with
        ⟨⟨_, hMain⟩, hMap⟩
      rcases Option.map_eq_some_iff.mp hMap with
        ⟨ba, hStep, rfl⟩
      exact partyOk_setBa
        (partyOk_setParty hOk ((hOk p).elect hMain)) hStep
  | second p roundba =>
      rcases Option.ite_none_right_eq_some.mp hExec with
        ⟨_, hMatch⟩
      split at hMatch
      · rename_i party hSecond
        rcases Option.map_eq_some_iff.mp hMatch with
          ⟨ba, hStep, rfl⟩
        exact partyOk_setBa
          (partyOk_setParty hOk ((hOk p).second hSecond))
          hStep
      · cases hMatch
  | ba roundba a =>
      rcases exec_ba hExec with ⟨ba, hStep, rfl⟩
      exact partyOk_setBa hOk hStep
  | agree p =>
      rcases Option.ite_none_right_eq_some.mp hExec with
        ⟨⟨_, hMain⟩, hMap⟩
      rcases Option.map_eq_some_iff.mp hMap with
        ⟨output, hOutput, rfl⟩
      exact partyOk_setParty hOk
        ((hOk p).agree hMain hOutput)
  | await p =>
      rcases Option.ite_none_right_eq_some.mp hExec with
        ⟨⟨_, hMain⟩, hMap⟩
      rcases Option.map_eq_some_iff.mp hMap with
        ⟨party, hAwait, rfl⟩
      exact partyOk_setParty hOk
        ((hOk p).await hMain hAwait)

/- Parties that output stop in the same agreement round. -/
theorem roundba_unique
    {f : Nat} {cfg : Config n} {s : State n}
    (hN : n = 3 * f + 1)
    (hReach : (machine n cfg).Reachable s)
    {p q : Fin n} {v w : Bytes}
    (hP : (s.party p).output = some v)
    (hQ : (s.party q).output = some w) :
    (s.party p).roundba = (s.party q).roundba := by
  have hComponents := components hReach
  -- the party further on has left the other one's round with
  -- output false
  have hNotLess :
      ∀ (a b : Fin n) (x y : Bytes),
        (s.party a).output = some x →
          (s.party b).output = some y →
            ¬ (s.party a).roundba < (s.party b).roundba := by
    intro a b x y hA hB hLt
    have hTrue := ((partyOk hReach a).done x hA).2.1
    have hFalse := (partyOk hReach b).rounds _ hLt
    have hSame :=
      BinaryAgreement.output_unique hN
        (hComponents.ba (s.party a).roundba) hTrue hFalse
    cases hSame
  have hLeft := hNotLess p q v w hP hQ
  have hRight := hNotLess q p w v hQ hP
  omega

/-
  Parties that output agree on the value; it is the input of
  the party elected in the round they stopped in, so not nil.
-/
theorem agreement_validity
    {f : Nat} {cfg : Config n} {s : State n}
    (hN : n = 3 * f + 1)
    (hInput : ∀ p, cfg.input p ≠ [])
    (hReach : (machine n cfg).Reachable s) :
    (∀ p q v w,
      (s.party p).output = some v →
        (s.party q).output = some w → v = w) ∧
    ∀ p v, (s.party p).output = some v →
      v = cfg.input (cfg.commonCoin (s.party p).roundba) ∧
        v ≠ [] := by
  have hValid :
      ∀ p v, (s.party p).output = some v →
        v = cfg.input
          (cfg.commonCoin (s.party p).roundba) :=
    fun p v hOutput =>
      ((partyOk hReach p).done v hOutput).2.2
  constructor
  · intro p q v w hP hQ
    rw [hValid p v hP, hValid q w hQ,
      roundba_unique hN hReach hP hQ]
  · intro p v hOutput
    have hEq := hValid p v hOutput
    refine ⟨hEq, ?_⟩
    rw [hEq]
    exact hInput _

------------------------------------------------------------
-- A Run with Outputs
------------------------------------------------------------

/- Four parties with inputs of one byte. -/
def electedConfig : Config 4 where
  pos := by decide
  roundmvba := 0
  input := fun p => [UInt8.ofNat (p.val + 7)]
  byzfairness := 0
  sha256 := fun _ => [0]
  unmarshal := fun _ => some []

/- The broadcast of `lid` reaches everybody. -/
def deliverRbc (lid : Fin 4) : List (Action 4) :=
  ReliableBroadcast.correctRun.map (.rbc lid) ++
    (List.finRange 4).flatMap fun p =>
      [.take1 p lid, .take2 p lid]

/-
  Three broadcasts are enough to start the agreement, which
  elects party 0 and in which all have input true.
-/
def electedRun : List (Action 4) :=
  (List.finRange 4).map .launch ++
    ([0, 1, 2] : List (Fin 4)).flatMap deliverRbc ++
    (List.finRange 4).flatMap (fun p =>
      [.coinready p, .elect p]) ++
    BinaryAgreement.unanimousRun.map (.ba 0) ++
    (List.finRange 4).map .agree

/- Where the elected run ends. -/
def electedState : State 4 :=
  (machine 4 electedConfig).drive (fun _ _ => true)
    (machine 4 electedConfig).init electedRun

/- It is a run of the network. -/
theorem electedState_reachable :
    (machine 4 electedConfig).Reachable electedState :=
  Machine.reachable_drive _ electedRun

/- Party 1 has put out the input of party 0. -/
theorem electedState_output :
    (electedState.party 1).output = some [7] := by
  decide +kernel

/- So does every party that puts out. -/
theorem agreement_validity_elected :
    (electedState.party 1).output = some [7] ∧
      ∀ p v, (electedState.party p).output = some v →
        v = [7] := by
  refine ⟨electedState_output, ?_⟩
  intro p v hOutput
  have hAgree :=
    agreement_validity (n := 4) (f := 1) rfl (by decide)
      electedState_reachable
  exact hAgree.1 p 1 v [7] hOutput electedState_output

end SignatureFreeMVBA

end Jumbo
