import Jumbo.MultiShot.Ledgers
import Jumbo.SignatureFreeMVBA.Agreement

/-
  Rounds of the signature-free MVBA.

  The inputs of all rounds are fixed up front; no step looks
  at one that has not been put in. An output of a round rests
  on the outputs of its binary agreements, which are never
  replaced.

  Main declarations:
    * `FreeSetting.config`
    * `signatureFree` and `signatureFree_sound`
    * `free_rounds_agree`
    * `free_ledgers_agree`
-/

------------------------------------------------------------
-- The Rounds
------------------------------------------------------------

namespace Jumbo

namespace MultiShot

open Crypto (Bytes)
open Jumbo.Ordering (BroadcastType Order)
open Protocol
open SignatureFreeMVBA
  (Config State Action baParty rbcParty baOutputs)
open Struct

/- What all rounds have in common. -/
structure FreeSetting (n : Nat) (type : BroadcastType) where
  base : Config n
  inputs : Nat → Fin n → Bytes
  decode : Bytes → Option (Ordering.Input type)

variable {n K : Nat} {type : BroadcastType}

/- `New_mvba` of a round. -/
def FreeSetting.config
    (st : FreeSetting n type) (round : Nat) : Config n :=
  { st.base with
    roundmvba := round
    input := st.inputs round }

/- Who makes a step; blocks and crashes come from outside. -/
def freeActor : Action n → Option (Fin n)
| .launch p | .take1 p _ | .take2 p _ | .coinready p
| .elect p | .second p _ | .agree p | .await p => some p
| .rbc lid a => rbcParty lid a
| .ba _ a => baParty a
| .crash _ | .advance .. => none

/- What `handle_rcvCH_signaturefreemvba` starts. -/
def signatureFree (st : FreeSetting n type) :
    Shots (Fin n) (State n) (Action n) Bytes where
  start := []
  init := fun _ => .init
  exec := fun round _ =>
    SignatureFreeMVBA.exec (st.config round)
  actor := freeActor
  output := fun _ s id => (s.party id).output

/-
  A party has left all agreements before one with false, and
  that one with true.
-/
def Elected
    (st : FreeSetting n type) (round : Nat) (s : State n)
    (values : Bytes) : Prop :=
  ∃ p roundba,
    (∀ k < roundba, baOutputs s p k = some false) ∧
      baOutputs s p roundba = some true ∧
        values =
          st.inputs round
            ((st.config round).commonCoin roundba)

section Shot

variable {st : FreeSetting n type} {round : Nat}
variable {cfg : Config n} {s s' : State n}

/- An agreement that has an output keeps it. -/
theorem baOutputs_setBa
    {roundba : Nat} {a : BinaryAgreement.Action n}
    {ba : BinaryAgreement.State n}
    (hExec :
      BinaryAgreement.exec (cfg.ba roundba) (s.ba roundba) a =
        some ba)
    {p : Fin n} {k : Nat} {b : Bool}
    (hOutput : baOutputs s p k = some b) :
    baOutputs (s.setBa roundba ba) p k = some b := by
  unfold baOutputs SignatureFreeMVBA.State.setBa at *
  by_cases hEq : k = roundba
  · subst hEq
    simp only [Function.update_self]
    exact BinaryAgreement.output_stable hExec hOutput
  · simp only [Function.update_of_ne hEq]
    exact hOutput

/- An output of an agreement stays. -/
theorem baOutputs_stable
    {a : Action n}
    (hExec : SignatureFreeMVBA.exec cfg s a = some s')
    {p : Fin n} {k : Nat} {b : Bool}
    (hOutput : baOutputs s p k = some b) :
    baOutputs s' p k = some b := by
  cases a with
  | launch q =>
      rcases Option.ite_none_right_eq_some.mp hExec with
        ⟨_, hEq⟩
      cases hEq
      exact hOutput
  | crash q =>
      cases hExec
      exact hOutput
  | advance q heightsnow =>
      cases hExec
      exact hOutput
  | rbc lid a =>
      rcases SignatureFreeMVBA.exec_rbc hExec with
        ⟨q, rbc, _, rfl⟩
      exact hOutput
  | take1 q lid =>
      rcases Option.ite_none_right_eq_some.mp hExec with
        ⟨_, hMap⟩
      rcases Option.map_eq_some_iff.mp hMap with
        ⟨party, _, rfl⟩
      exact hOutput
  | take2 q lid =>
      rcases Option.ite_none_right_eq_some.mp hExec with
        ⟨_, hMap⟩
      rcases Option.map_eq_some_iff.mp hMap with
        ⟨party, _, rfl⟩
      exact hOutput
  | coinready q =>
      rcases Option.ite_none_right_eq_some.mp hExec with
        ⟨_, hEq⟩
      cases hEq
      exact hOutput
  | elect q =>
      rcases Option.ite_none_right_eq_some.mp hExec with
        ⟨_, hMap⟩
      rcases Option.map_eq_some_iff.mp hMap with
        ⟨ba, hStep, rfl⟩
      exact
        baOutputs_setBa
          (s := s.setParty q ((s.party q).elect cfg)) hStep
          hOutput
  | second q roundba =>
      rcases Option.ite_none_right_eq_some.mp hExec with
        ⟨_, hMatch⟩
      split at hMatch
      · rename_i party _
        rcases Option.map_eq_some_iff.mp hMatch with
          ⟨ba, hStep, rfl⟩
        exact
          baOutputs_setBa (s := s.setParty q party) hStep
            hOutput
      · cases hMatch
  | ba roundba a =>
      rcases SignatureFreeMVBA.exec_ba hExec with
        ⟨ba, hStep, rfl⟩
      exact baOutputs_setBa hStep hOutput
  | agree q =>
      rcases Option.ite_none_right_eq_some.mp hExec with
        ⟨_, hMap⟩
      rcases Option.map_eq_some_iff.mp hMap with
        ⟨output, _, rfl⟩
      exact hOutput
  | await q =>
      rcases Option.ite_none_right_eq_some.mp hExec with
        ⟨_, hMap⟩
      rcases Option.map_eq_some_iff.mp hMap with
        ⟨party, _, rfl⟩
      exact hOutput

/- Nobody leaves an agreement with what another does not. -/
theorem elected_unique
    {f : Nat} (hN : n = 3 * f + 1)
    (hReach :
      (SignatureFreeMVBA.machine n (st.config round)).Reachable
        s)
    {values values' : Bytes}
    (hElected : Elected st round s values)
    (hElected' : Elected st round s values') :
    values = values' := by
  rcases hElected with ⟨p, r, hFalse, hTrue, rfl⟩
  rcases hElected' with ⟨q, r', hFalse', hTrue', rfl⟩
  have hUnique :
      ∀ (a b : Fin n) (k : Nat), baOutputs s a k = some true →
        baOutputs s b k ≠ some false := by
    intro a b k hA hB
    have hSame :=
      BinaryAgreement.output_unique hN
        ((SignatureFreeMVBA.components hReach).ba k) hA hB
    cases hSame
  rcases Nat.lt_trichotomy r r' with hLt | rfl | hLt
  · exact absurd (hFalse' r hLt) (hUnique p q r hTrue)
  · rfl
  · exact absurd (hFalse r' hLt) (hUnique q p r' hTrue')

/- One round is the agreement with the inputs of the round. -/
theorem signatureFree_shot {lastCommit : Bytes} :
    (signatureFree st).shot round lastCommit =
      SignatureFreeMVBA.machine n (st.config round) :=
  rfl

/- Rounds agree on the input of a party. -/
theorem signatureFree_sound
    {f : Nat} (hN : n = 3 * f + 1)
    (st : FreeSetting n type) :
    (signatureFree st).Sound (Elected st)
      (fun round _ values =>
        ∃ p, values = st.inputs round p) where
  network := fun _ => rfl
  output := by
    intro round lastCommit s p values hReach hOutput
    rw [signatureFree_shot] at hReach
    have hOk := SignatureFreeMVBA.partyOk hReach p
    rcases hOk.done values hOutput with ⟨_, hTrue, hValue⟩
    exact ⟨p, _, hOk.rounds, hTrue, hValue⟩
  stable := by
    rintro round lastCommit s s' a values _ hExec
      ⟨p, roundba, hFalse, hTrue, hValue⟩
    exact
      ⟨p, roundba,
        fun k hk => baOutputs_stable hExec (hFalse k hk),
        baOutputs_stable hExec hTrue, hValue⟩
  agree := by
    intro round lastCommit s _ _ hReach hElected hElected'
    rw [signatureFree_shot] at hReach
    exact elected_unique hN hReach hElected hElected'
  valid := by
    rintro round lastCommit s values _
      ⟨_, roundba, _, _, hValue⟩
    exact ⟨_, hValue⟩

end Shot

------------------------------------------------------------
-- Agreement
------------------------------------------------------------

/- `handle_rcvCH_signaturefreemvba` of all orders. -/
def handleRcvCHSignatureFree (K : Nat) (st : FreeSetting n type) :
    Machine (System n K type (State n))
      (SystemAction n (Action n)) :=
  multiShot K (signatureFree st) st.decode

section Runs

variable {st : FreeSetting n type}
variable {s : System n K type (State n)}

/-
  Of what two orders have taken as outputs, one is the
  beginning of the other, and an output of a round is the
  input of an order for that round.
-/
theorem free_rounds_agree
    {f : Nat} (hN : n = 3 * f + 1)
    (hReach : (handleRcvCHSignatureFree K st).Reachable s)
    (p q : Fin n) :
    ((s.party p).commits <+: (s.party q).commits ∨
        (s.party q).commits <+: (s.party p).commits) ∧
      ∀ (round : Nat) values,
        (s.party p).commits[round]? = some values →
          ∃ id, values = st.inputs round id := by
  have hSound := signatureFree_sound hN st
  refine ⟨commits_comparable hSound hReach p q, ?_⟩
  intro round values hAt
  have hLt := (List.getElem?_eq_some_iff.mp hAt).1
  -- the last commit that the round has been started with
  have hBy :
      ∃ lastCommit,
        ([] :: (s.party p).commits)[round]? =
          some lastCommit := by
    refine ⟨_, List.getElem?_eq_getElem ?_⟩
    rw [List.length_cons]
    omega
  rcases hBy with ⟨lastCommit, hBy⟩
  exact
    hSound.commits_valid (reachable_rounds hReach) hBy hAt

/- The ledgers of two parties agree. -/
theorem free_ledgers_agree
    {f : Nat} {rawBC : Fin n → Fin K → Int → RawBC}
    (hN : n = 3 * f + 1)
    (hReach :
      (handleRcvCHSignatureFree K st).ReachableBy
        (System.orderly rawBC) s)
    (p q : Fin n) :
    (∀ i j, (s.party p).order.records i j <+:
        (s.party q).order.records i j) ∨
      ∀ i j, (s.party q).order.records i j <+:
        (s.party p).order.records i j :=
  ledgers_comparable (signatureFree_sound hN st) hReach p q

end Runs

end MultiShot

end Jumbo

------------------------------------------------------------
-- One Round of Two Parties
------------------------------------------------------------

namespace Jumbo

namespace MultiShot

open Jumbo.Ordering
open Protocol
open SignatureFreeMVBA (State Action)

/- All parties propose the same. -/
def plainFreeSetting : FreeSetting 4 .rbc where
  base := SignatureFreeMVBA.electedConfig
  inputs := fun _ => plainInput
  decode := plainDecode

/- The party elected gets its input through. -/
def plainElected : State 4 :=
  (SignatureFreeMVBA.machine 4
    (plainFreeSetting.config 0)).drive (fun _ _ => true)
    (SignatureFreeMVBA.machine 4
      (plainFreeSetting.config 0)).init
    SignatureFreeMVBA.electedRun

/- Two parties cut. -/
def plainFreeSystem : System 4 1 .rbc (State 4) :=
  (handleRcvCHSignatureFree 1 plainFreeSetting).drive
    plainSystemOrderly
    (System.first (signatureFree plainFreeSetting)
      plainElected)
    (earlyCut 1 ++ lateCut 2)

/- Where two parties have run a round. -/
theorem plainFreeSystem_reachable :
    (handleRcvCHSignatureFree 1 plainFreeSetting).ReachableBy
      (System.orderly plainRawBC) plainFreeSystem := by
  have hRound :
      (SignatureFreeMVBA.machine 4
        (plainFreeSetting.config 0)).Reachable plainElected :=
    Machine.reachable_drive _ SignatureFreeMVBA.electedRun
  have hFirst :
      (handleRcvCHSignatureFree 1 plainFreeSetting).ReachableBy
        (fun s a => plainSystemOrderly s a = true)
        (System.first (signatureFree plainFreeSetting)
          plainElected) :=
    reachable_first 1 (signatureFree plainFreeSetting)
      plainFreeSetting.decode (fun _ _ => rfl) hRound
  exact
    (hFirst.drive (earlyCut 1 ++ lateCut 2)).mono
      fun _ _ hOk => orderly_of_plain hOk

/- Both have committed and cut. -/
theorem plainFreeSystem_cut :
    (plainFreeSystem.party 1).commits.length = 1 ∧
      (plainFreeSystem.party 2).commits.length = 1 ∧
        ((plainFreeSystem.party 1).order.ledger 0 0).length =
            1 ∧
          ((plainFreeSystem.party 2).order.ledger 0 0).length =
            1 := by
  decide +kernel

/- They have committed the same. -/
theorem free_rounds_agree_two :
    (plainFreeSystem.party 1).commits =
      (plainFreeSystem.party 2).commits := by
  have hLength :
      (plainFreeSystem.party 1).commits.length =
        (plainFreeSystem.party 2).commits.length := by
    rw [plainFreeSystem_cut.1, plainFreeSystem_cut.2.1]
  have hAgree :=
    @free_rounds_agree 4 1 .rbc plainFreeSetting
      plainFreeSystem 1 rfl
      plainFreeSystem_reachable.reachable 1 2
  rcases hAgree.1 with hLe | hLe
  · exact hLe.eq_of_length hLength
  · exact (hLe.eq_of_length hLength.symm).symm

/- And their ledgers are the same. -/
theorem free_ledgers_agree_two :
    (plainFreeSystem.party 1).order.records 0 0 =
      (plainFreeSystem.party 2).order.records 0 0 := by
  let od := (plainFreeSystem.party 1).order
  let od' := (plainFreeSystem.party 2).order
  have hLength :
      (od.records 0 0).length = (od'.records 0 0).length := by
    unfold Order.records
    rw [List.length_map, List.length_map,
      plainFreeSystem_cut.2.2.1, plainFreeSystem_cut.2.2.2]
  have hAgree :=
    @free_ledgers_agree 4 1 .rbc plainFreeSetting
      plainFreeSystem 1 plainRawBC rfl
      plainFreeSystem_reachable 1 2
  rcases hAgree with hLe | hLe
  · exact (hLe 0 0).eq_of_length hLength
  · exact ((hLe 0 0).eq_of_length hLength.symm).symm

end MultiShot

end Jumbo
