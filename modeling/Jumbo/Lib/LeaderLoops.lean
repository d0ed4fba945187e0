import Mathlib.Data.Finset.Card

/-
  Agreement over loops with a leader each.

  In a loop the parties release the value of its leader, say
  that they do not hold it, and vote. A party takes into the
  next loop the value of the leader, or its own when a quorum
  has voted no. What is decided in a loop is the value of its
  leader, after a quorum has released it or voted yes. Nothing
  is said about how many loops there are or how messages are
  exchanged: parties, values and quorums are parameters.

  Main declarations:
    * `LeaderLoops`
    * `LeaderLoops.Sound`
    * `LeaderLoops.Decided`
    * `LeaderLoops.Sound.locked`
    * `LeaderLoops.Sound.decided_agree`
    * `LeaderLoops.Sound.validity`
-/

------------------------------------------------------------
-- Loops
------------------------------------------------------------

namespace Protocol

/- What the parties `α` have said about values `V`. -/
structure LeaderLoops (α V : Type*) where
  leader : Nat → α
  -- what a party has started a loop with
  input : Nat → α → V → Prop
  -- who has released the value of the leader
  released : Nat → Finset α
  -- who has told that it does not hold it
  refused : Nat → Finset α
  voteYes : Nat → Finset α
  voteNo : Nat → Finset α
  quorum : Finset α → Prop

namespace LeaderLoops

variable {α V : Type*}

/- What parties that follow the protocol keep to. -/
structure Sound (L : LeaderLoops α V) : Prop where
  intersect :
    ∀ {A B}, L.quorum A → L.quorum B → ∃ a ∈ A, a ∈ B
  functional :
    ∀ {l a v w}, L.input l a v → L.input l a w → v = w
  stance :
    ∀ {l a}, a ∈ L.released l → a ∉ L.refused l
  ballot : ∀ {l a}, a ∈ L.voteYes l → a ∉ L.voteNo l
  founded :
    ∀ {l a}, a ∈ L.voteNo l → L.quorum (L.refused l)
  carried :
    ∀ {l a v}, L.input (l + 1) a v →
      L.input l (L.leader l) v ∨
        (L.input l a v ∧ L.quorum (L.voteNo l))

/- A quorum has settled a loop on the value of its leader. -/
def Settled (L : LeaderLoops α V) (l : Nat) : Prop :=
  L.quorum (L.released l) ∨ L.quorum (L.voteYes l)

/- The value may be output in a loop. -/
def Decided (L : LeaderLoops α V) (l : Nat) (v : V) : Prop :=
  L.input l (L.leader l) v ∧ L.Settled l

namespace Sound

variable {L : LeaderLoops α V} {l k : Nat} {a : α} {v w : V}

/- In a settled loop no quorum has voted no. -/
theorem not_voteNo
    (hSound : L.Sound) (hSettled : L.Settled l) :
    ¬ L.quorum (L.voteNo l) := by
  intro hNo
  rcases hSettled with hReleased | hYes
  · rcases hSound.intersect hNo hNo with ⟨b, hVoted, _⟩
    rcases hSound.intersect hReleased
        (hSound.founded hVoted) with
      ⟨c, hRelease, hRefuse⟩
    exact hSound.stance hRelease hRefuse
  · rcases hSound.intersect hYes hNo with
      ⟨b, hVoteYes, hVoteNo⟩
    exact hSound.ballot hVoteYes hVoteNo

/- From a decision on, every input is the value decided. -/
theorem locked_next
    (hSound : L.Sound) (hDecided : L.Decided l v) (k : Nat) :
    ∀ a w, L.input (l + 1 + k) a w → w = v := by
  induction k with
  | zero =>
      intro a w hInput
      rcases hSound.carried hInput with hLeader | hOwn
      · exact hSound.functional hLeader hDecided.1
      · exact
          absurd hOwn.2 (hSound.not_voteNo hDecided.2)
  | succ k ih =>
      intro a w hInput
      rcases hSound.carried hInput with hLeader | hOwn
      · exact ih _ w hLeader
      · exact ih _ w hOwn.1

/- A value decided in a loop is the only input later on. -/
theorem locked
    (hSound : L.Sound) (hDecided : L.Decided l v)
    (hLt : l < k) (hInput : L.input k a w) :
    w = v := by
  have hIndex : k = l + 1 + (k - (l + 1)) := by omega
  rw [hIndex] at hInput
  exact hSound.locked_next hDecided _ a w hInput

/- Decisions agree, whatever the loops they are made in. -/
theorem decided_agree
    (hSound : L.Sound)
    (hDecided : L.Decided l v) (hOther : L.Decided k w) :
    v = w := by
  rcases Nat.lt_trichotomy l k with hLt | rfl | hLt
  · exact (hSound.locked hDecided hLt hOther.1).symm
  · exact hSound.functional hDecided.1 hOther.1
  · exact hSound.locked hOther hLt hDecided.1

/- Every input has been the input of the first loop. -/
theorem validity
    (hSound : L.Sound) (hInput : L.input l a v) :
    ∃ b, L.input 0 b v := by
  induction l generalizing a with
  | zero => exact ⟨a, hInput⟩
  | succ l ih =>
      rcases hSound.carried hInput with hLeader | hOwn
      · exact ih hLeader
      · exact ih hOwn.1

end Sound

end LeaderLoops

end Protocol
