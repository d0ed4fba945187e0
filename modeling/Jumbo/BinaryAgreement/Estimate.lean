import Jumbo.BinaryAgreement.Counting
import Jumbo.Lib.Quorum

/-
  What the messages sent so far allow a party to estimate.

  These predicates read only the list of broadcasts, so they
  are monotone and shared by all parties.

  Main declarations:
    * `ConfQuorum`
    * `Estimate`
    * `Decision`
    * `Decision.unique`
-/

------------------------------------------------------------
-- Estimates and Decisions
------------------------------------------------------------

namespace Jumbo

namespace BinaryAgreement

variable {n : Nat}

/- The parties that broadcast CONF with the single value. -/
def confSenders
    (sent : List (BAMsg n)) (loop : Nat) (b : Bool) :
    Finset (Fin n) :=
  Finset.univ.filter fun q =>
    BA.confMsg q loop (Values.only b) ∈ sent

/- A quorum of parties sent CONF for one value alone. -/
def ConfQuorum
    (sent : List (BAMsg n)) (loop : Nat) (b : Bool) : Prop :=
  faults n * 2 + 1 ≤ (confSenders sent loop b).card

/-
  A value with which a loop can be entered. After the first
  loop it was possible one loop before, and either a quorum
  confirmed it or it is the coin.
-/
def Estimate
    (cfg : Config) (sent : List (BAMsg n)) :
    Nat → Bool → Prop
| 0, _ => True
| loop + 1, b =>
    Estimate cfg sent loop b ∧
      (ConfQuorum sent loop b ∨ b = handleCoin cfg loop loop)

/- A value that can be decided in a loop. -/
structure Decision
    (cfg : Config) (sent : List (BAMsg n))
    (loop : Nat) (b : Bool) : Prop where
  coin : b = handleCoin cfg loop loop
  quorum : ConfQuorum sent loop b
  estimate : Estimate cfg sent loop b

/- No party broadcasts two different CONF in a loop. -/
def ConfOnce (sent : List (BAMsg n)) : Prop :=
  ∀ (q : Fin n) (loop : Nat) (values values' : Values),
    BA.confMsg q loop values ∈ sent →
      BA.confMsg q loop values' ∈ sent →
        values = values'

/- A sender of CONF has its message among those sent. -/
theorem mem_confSenders_iff
    (sent : List (BAMsg n)) (loop : Nat) (b : Bool)
    (q : Fin n) :
    q ∈ confSenders sent loop b ↔
      BA.confMsg q loop (Values.only b) ∈ sent := by
  simp [confSenders]

/- A quorum stays with more messages. -/
theorem ConfQuorum.mono
    {sent sent' : List (BAMsg n)} {loop : Nat} {b : Bool}
    (hQuorum : ConfQuorum sent loop b)
    (hSub : sent ⊆ sent') :
    ConfQuorum sent' loop b := by
  apply Nat.le_trans hQuorum
  apply Finset.card_le_card
  intro q hq
  rw [mem_confSenders_iff] at hq ⊢
  exact hSub hq

/- A value stays allowed with more messages. -/
theorem Estimate.mono
    {cfg : Config} {sent sent' : List (BAMsg n)}
    {loop : Nat} {b : Bool}
    (hEstimate : Estimate cfg sent loop b)
    (hSub : sent ⊆ sent') :
    Estimate cfg sent' loop b := by
  induction loop generalizing b with
  | zero => trivial
  | succ loop ih =>
      rcases hEstimate with ⟨hBefore, hQuorum | hCoin⟩
      · exact ⟨ih hBefore, Or.inl (hQuorum.mono hSub)⟩
      · exact ⟨ih hBefore, Or.inr hCoin⟩

/- A decision stays one with more messages. -/
theorem Decision.mono
    {cfg : Config} {sent sent' : List (BAMsg n)}
    {loop : Nat} {b : Bool}
    (hDecision : Decision cfg sent loop b)
    (hSub : sent ⊆ sent') :
    Decision cfg sent' loop b where
  coin := hDecision.coin
  quorum := hDecision.quorum.mono hSub
  estimate := hDecision.estimate.mono hSub

/- Later estimates were estimates before. -/
theorem Estimate.antitone
    {cfg : Config} {sent : List (BAMsg n)}
    {loop loop' : Nat} {b : Bool}
    (hEstimate : Estimate cfg sent loop' b)
    (hLe : loop ≤ loop') :
    Estimate cfg sent loop b := by
  induction loop', hLe using Nat.le_induction with
  | base => exact hEstimate
  | succ loop' _ ih => exact ih hEstimate.1

end BinaryAgreement

end Jumbo

------------------------------------------------------------
-- Agreement of Decisions
------------------------------------------------------------

namespace Jumbo

namespace BinaryAgreement

open Protocol

variable {f : Nat}

/- The number of faults for `3f + 1` parties. -/
theorem faults_eq (f : Nat) : faults (3 * f + 1) = f := by
  unfold faults
  omega

/- Two quorums of one loop confirm the same value. -/
theorem ConfQuorum.unique
    {sent : List (BAMsg (3 * f + 1))} {loop : Nat}
    {b c : Bool}
    (hOnce : ConfOnce sent)
    (hB : ConfQuorum sent loop b)
    (hC : ConfQuorum sent loop c) :
    b = c := by
  have hMeet :
      ∃ q, q ∈ confSenders sent loop b ∧
        q ∈ confSenders sent loop c := by
    apply exists_mem_inter_of_card
    unfold ConfQuorum at hB hC
    rw [faults_eq] at hB hC
    rw [Fintype.card_fin]
    omega
  rcases hMeet with ⟨q, hqB, hqC⟩
  rw [mem_confSenders_iff] at hqB hqC
  have hSame := hOnce q loop _ _ hqB hqC
  have hGet := congrArg (fun values => values.get b) hSame
  have hEq : c = b := by simpa using hGet
  exact hEq.symm

/-
  After a decision every later estimate is the decided value:
  the next loop is entered with the coin or a confirmed value
  and nothing new is possible afterwards.
-/
theorem Decision.estimate_eq
    {cfg : Config} {sent : List (BAMsg (3 * f + 1))}
    {loop loop' : Nat} {b c : Bool}
    (hOnce : ConfOnce sent)
    (hDecision : Decision cfg sent loop b)
    (hLt : loop < loop')
    (hEstimate : Estimate cfg sent loop' c) :
    c = b := by
  have hNext : Estimate cfg sent (loop + 1) c :=
    hEstimate.antitone hLt
  rcases hNext.2 with hQuorum | hCoin
  · exact hQuorum.unique hOnce hDecision.quorum
  · rw [hCoin, ← hDecision.coin]

/- All decisions of one instance are for the same value. -/
theorem Decision.unique
    {cfg : Config} {sent : List (BAMsg (3 * f + 1))}
    {loop loop' : Nat} {b c : Bool}
    (hOnce : ConfOnce sent)
    (hB : Decision cfg sent loop b)
    (hC : Decision cfg sent loop' c) :
    b = c := by
  rcases Nat.lt_trichotomy loop loop' with
    hLt | hEq | hGt
  · exact (hB.estimate_eq hOnce hLt hC.estimate).symm
  · subst hEq
    rw [hB.coin, ← hC.coin]
  · exact hC.estimate_eq hOnce hGt hB.estimate

end BinaryAgreement

end Jumbo
