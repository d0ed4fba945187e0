import Jumbo.SpeedingMVBA.Deadlock
import Mathlib.Data.Finset.Max

/-
  No round of the speeding MVBA gets stuck.

  If a live party has sent its share in the least loop, all
  have; then all have the coin, tell and vote, and the loop
  is over for one that is in it. If none has, all broadcasts
  of the loop end and enough pis are counted.

  Main declarations:
    * `Sharing`
    * `never_stuck`
-/

------------------------------------------------------------
-- The Coin and After It
------------------------------------------------------------

namespace Jumbo

namespace SpeedingMVBA

namespace Agreement

open Crypto (Bytes)
open Protocol
open Struct

variable {n : Nat}

section Coin

variable {cfg : Config n} {s : Net n} {l : Nat}
variable {p q c : Fin n}

section Left

variable (hDead : Deadlock cfg s l)
include hDead

/- A party that has left the loop has its coin. -/
theorem Deadlock.left
    (hp : Live s p) (hNe : (s.party p).loop ≠ l) :
    ((s.party p).loops l).finish = .next ∧
      ((s.party p).loops l).handlesShare = false := by
  have hLow := hDead.lowest p hp
  have hLeft :=
    (hDead.honest.strict p).left l
      (Nat.lt_of_le_of_ne hLow hNe.symm)
  exact ⟨hLeft.1, hLeft.2.1⟩

/- Whatever ends its broadcasts makes a party send its share. -/
theorem Deadlock.shares
    (hp : Live s p)
    (hEnds :
      maxCount n < ((s.party p).loops l).piCount ∨
        ((s.party p).loops l).firstShare = false ∨
          ((s.party p).loops l).pbcDone = true) :
    ((s.party p).loops l).sendsShare = false := by
  by_contra hNot
  have hSends := Bool.eq_true_of_not_eq_false hNot
  have hReady := (hDead.bounded p).ready hSends hEnds
  exact
    hDead.inLoop hp (a := .sendShare l) rfl rfl
      (sendShare_isSome hSends hReady)

/- A party that has the coin has sent its share. -/
theorem Deadlock.shares_of_coin
    (hp : Live s p)
    (hCoin : ((s.party p).loops l).handlesShare = false) :
    ((s.party p).loops l).sendsShare = false :=
  hDead.shares hp
    (.inr (.inl ((hDead.bounded p).first (.inl hCoin))))

end Left

variable (hCombines : Combines cfg)
variable (hAggregates : Aggregates cfg)
variable (hMany : maxCount n < (alive s).card)
variable (hDead : Deadlock cfg s l)

include hCombines hAggregates hDead

/- One share makes all parties send theirs. -/
theorem Deadlock.shares_of_one
    (hq : Live s q)
    (hOne : ((s.party q).loops l).sendsShare = false)
    (hp : Live s p) :
    ((s.party p).loops l).sendsShare = false := by
  by_contra hNot
  have hHere : (s.party p).loop = l := by
    by_contra hNe
    exact
      hNot (hDead.shares_of_coin hp (hDead.left hp hNe).2)
  have hWaits :
      ((s.party p).loops l).handlesShare = true := by
    by_contra hCoin
    exact
      hNot
        (hDead.shares_of_coin hp
          (Bool.eq_false_of_not_eq_true hCoin))
  have hCount := count_share hWaits
  have hPos :=
    hDead.one hp hHere hq (by
      rintro rfl
      exact hNot hOne) hCount hOne
      fun _ =>
        hDead.takes_share hCombines hAggregates hp hWaits
  have hFirst :=
    (hDead.bounded p).first
      (.inr (List.ne_nil_of_length_pos hPos))
  exact hNot (hDead.shares hp (.inr (.inl hFirst)))

include hMany

/- The shares of all parties are the coin. -/
theorem Deadlock.coin_of_shares
    (hAll :
      ∀ q, Live s q →
        ((s.party q).loops l).sendsShare = false)
    (hp : Live s p) :
    ((s.party p).loops l).handlesShare = false := by
  by_contra hNot
  have hWaits := Bool.eq_true_of_not_eq_false hNot
  have hHere : (s.party p).loop = l := by
    by_contra hNe
    exact hNot (hDead.left hp hNe).2
  have hMine : ((s.party p).loops l).shareMine = none := by
    by_contra hSome
    rcases Option.ne_none_iff_exists'.mp hSome with
      ⟨msg, hMsg⟩
    exact
      hDead.inLoop hp (a := .shareMine l) rfl rfl
        (handleShareMine_isSome hCombines hAggregates hWaits
          (hDead.loopValid hp) hMsg)
  have hOwn : own .share ((s.party p).loops l) = 1 := by
    unfold own
    exact if_pos ⟨hAll p hp, hMine⟩
  have hCount := count_share hWaits
  have hGather :=
    hDead.gather hMany hp hHere hCount
      (fun q hq _ => hAll q hq)
      fun _ =>
        hDead.takes_share hCombines hAggregates hp hWaits
  have hFew := (hDead.bounded p).share hWaits
  omega

omit hCombines hAggregates hMany in
/- With the coin a party tells of its certificate. -/
theorem Deadlock.told
    (hp : Live s p)
    (hCoin : ((s.party p).loops l).handlesShare = false) :
    1 ≤ rank ((s.party p).loops l).finish := by
  have hPast : ((s.party p).loops l).finish ≠ .coin := by
    intro hFinish
    exact
      hDead.inLoop hp (a := .coin l) rfl rfl
        (handleCoin_isSome hFinish
          ((hDead.bounded p).coin hCoin hFinish))
  cases hFinish : ((s.party p).loops l).finish with
  | coin => exact absurd hFinish hPast
  | prev | vote | next | done => exact Nat.le_add_left 1 _

/- When all have told, all vote. -/
theorem Deadlock.voted
    (hAll :
      ∀ q, Live s q →
        1 ≤ rank ((s.party q).loops l).finish)
    (hp : Live s p) :
    2 ≤ rank ((s.party p).loops l).finish := by
  have hRank := hAll p hp
  cases hFinish : ((s.party p).loops l).finish with
  | coin =>
      rw [hFinish] at hRank
      exact absurd hRank (Nat.not_succ_le_zero 0)
  | vote | next | done => exact Nat.le_add_left 2 _
  | prev coin yesFlag no prevCount =>
      exfalso
      have hHere : (s.party p).loop = l := by
        by_contra hNe
        rw [(hDead.left hp hNe).1] at hFinish
        cases hFinish
      have hCount :
          count .prev ((s.party p).loops l) =
            some prevCount := by
        unfold count
        rw [hFinish]
      have hGather :=
        hDead.gather hMany hp hHere hCount
          (fun q hq _ => hAll q hq)
          fun _ =>
            hDead.takes_prev hCombines hAggregates hp hFinish
      have hFew :=
        (hDead.bounded p).prev coin yesFlag no prevCount
          hFinish
      omega

/- Then the loop is over for a party that is in it. -/
theorem Deadlock.not_voted
    (hAll :
      ∀ q, Live s q →
        2 ≤ rank ((s.party q).loops l).finish)
    (hp : Live s p) (hHere : (s.party p).loop = l) :
    False := by
  have hRank := hAll p hp
  cases hFinish : ((s.party p).loops l).finish with
  | coin =>
      rw [hFinish] at hRank
      exact absurd hRank (Nat.not_succ_le_zero 1)
  | prev coin yesFlag no prevCount =>
      rw [hFinish] at hRank
      exact absurd hRank (Nat.lt_irrefl 1)
  | next =>
      have hLeft :=
        ((hDead.honest.net.party p).left l
          (hDead.lt hp)).mp hFinish
      rw [hHere] at hLeft
      exact Nat.lt_irrefl l hLeft
  | done =>
      have hDone := (hDead.honest.party p).finished l hFinish
      rw [hDead.going p hp] at hDone
      cases hDone
  | vote coin yes no =>
      have hCount :
          count .vote ((s.party p).loops l) =
            some (yes.length + no.length) := by
        unfold count
        rw [hFinish]
      have hOwn : own .vote ((s.party p).loops l) = 1 := by
        unfold own
        rw [hFinish]
      have hGather :=
        hDead.gather hMany hp hHere hCount
          (fun q hq _ => hAll q hq)
          fun _ =>
            hDead.takes_vote hCombines hAggregates hp hFinish
      have hFew :=
        (hDead.bounded p).vote coin yes no hFinish
      omega

/- So no party has sent its share. -/
theorem Deadlock.sharing
    (hp : Live s p) (hHere : (s.party p).loop = l)
    (hq : Live s q) :
    ((s.party q).loops l).sendsShare = true := by
  -- one share leads to all shares, these to the coin, and so on
  by_contra hNot
  have hOne := Bool.eq_false_of_not_eq_true hNot
  have hShares :
      ∀ r, Live s r →
        ((s.party r).loops l).sendsShare = false :=
    fun _ =>
      hDead.shares_of_one hCombines hAggregates hq hOne
  have hTold :
      ∀ r, Live s r →
        1 ≤ rank ((s.party r).loops l).finish :=
    fun r hr =>
      hDead.told hr
        (hDead.coin_of_shares hCombines hAggregates hMany
          hShares hr)
  exact
    hDead.not_voted hCombines hAggregates hMany
      (fun _ =>
        hDead.voted hCombines hAggregates hMany hTold)
      hp hHere

end Coin

end Agreement

end SpeedingMVBA

end Jumbo

------------------------------------------------------------
-- Before the Coin
------------------------------------------------------------

namespace Jumbo

namespace SpeedingMVBA

namespace Agreement

open Crypto (Bytes)
open Protocol
open Struct

variable {n : Nat}

/-
  No live party has sent its share, so that all of them are
  in the loop and none of its broadcasts is over.
-/
structure Sharing
    (cfg : Config n) (s : Net n) (l : Nat) : Prop
    extends Deadlock cfg s l where
  sends :
    ∀ id, Live s id →
      ((s.party id).loops l).sendsShare = true

section Sharing

variable {cfg : Config n} {s : Net n} {l : Nat}
variable {p q c : Fin n}

section Open

variable (hSharing : Sharing cfg s l)
include hSharing

/- The broadcasts of the loop go on. -/
theorem Sharing.running
    (hp : Live s p) :
    ((s.party p).loops l).pbcDone = false := by
  by_contra hNot
  have hShares :=
    hSharing.shares hp
      (.inr (.inr (Bool.eq_true_of_not_eq_false hNot)))
  rw [hSharing.sends p hp] at hShares
  cases hShares

/- All live parties are in the loop. -/
theorem Sharing.here
    (hp : Live s p) : (s.party p).loop = l := by
  by_contra hNe
  have hShares :=
    hSharing.shares_of_coin hp (hSharing.left hp hNe).2
  rw [hSharing.sends p hp] at hShares
  cases hShares

/- They have too few pis. -/
theorem Sharing.few
    (hp : Live s p) :
    ((s.party p).loops l).piCount ≤ maxCount n := by
  by_contra hNot
  have hShares :=
    hSharing.shares hp (.inl (Nat.lt_of_not_le hNot))
  rw [hSharing.sends p hp] at hShares
  cases hShares

/- The input of a live party is handled. -/
theorem Sharing.past_wait1
    (hAccepts : ∀ values, cfg.checkInput values = true)
    (hp : Live s p) (hc : Live s c) (hNe : p ≠ c) :
    ((s.party p).loops l).pbc c ≠ .wait1 := by
  intro hWait
  rcases (hSharing.loopOk hc).own with
    ⟨packet, hMem, hKind, rfl, _⟩
  rcases isKind_iff.mp hKind with ⟨hType, hLoop⟩
  have hSent := hSharing.honest.net.log.sent packet hMem
  have hValid := (hSharing.honest.valid packet hMem).2
  unfold SentOk at hSent
  dsimp only at hSent hValid
  rw [hType] at hSent hValid
  have hReaches : Reaches p (.pbc1 packet.src) l packet := by
    refine ⟨hValid p hNe, hLoop, ?_⟩
    unfold kindOf
    rw [hType]
    dsimp only
    rw [of_decide_eq_true hSent.1, index_self]
    rfl
  rcases hSharing.reached hp (hSharing.here hp) hMem hc
      hReaches
      (hSharing.takes_pbc1 hAccepts (hSharing.here hp) hWait
        hMem hReaches) with
    ⟨i, hAt, hLoc⟩
  have hPos :
      0 < s.log.tally p .handled
        fun r => decide (Reaches p (.pbc1 packet.src) l r) := by
    refine Finset.card_pos.mpr ⟨i, ?_⟩
    rw [BroadcastLog.mem_settled_iff]
    exact ⟨⟨packet, hAt, decide_eq_true hReaches⟩, hLoc⟩
  have hCount :
      count (.pbc1 packet.src) ((s.party p).loops l) =
        some 0 := by
    unfold count
    exact if_pos hWait
  have hCounted :=
    hSharing.counts.counted p l (.pbc1 packet.src) 0
      (hSharing.going p hp) hCount
  omega

/- It is answered. -/
theorem Sharing.answered
    (hAccepts : ∀ values, cfg.checkInput values = true)
    (hp : Live s p) (hc : Live s c) (hNe : p ≠ c) :
    answered (((s.party p).loops l).pbc c) = true := by
  cases hPbc : ((s.party p).loops l).pbc c with
  | wait1 =>
      exact
        absurd hPbc
          (hSharing.past_wait1 hAccepts hp hc hNe)
  | send2 hash =>
      exact
        absurd (sendPBC2_isSome hPbc)
          (hSharing.inLoop hp (a := .sendPBC2 l c) rfl rfl)
  | wait3 | send4 | done => rfl

end Open

variable (hCombines : Combines cfg)
variable (hAggregates : Aggregates cfg)
variable (hAccepts : ∀ values, cfg.checkInput values = true)
variable (hMany : maxCount n < (alive s).card)
variable (hSharing : Sharing cfg s l)

include hCombines hAggregates hAccepts hMany hSharing

/- The own input is certified, and the others are told. -/
theorem Sharing.tried3
    (hp : Live s p) :
    tried3 ((s.party p).loops l).mine = true := by
  cases hMine : ((s.party p).loops l).mine with
  | wait4 | done => rfl
  | send3 hash batch =>
      exact
        absurd (sendPBC3_isSome hMine)
          (hSharing.inLoop hp (a := .sendPBC3 l) rfl rfl)
  | wait2 hash signs =>
      exfalso
      have hCount :
          count .pbc2 ((s.party p).loops l) =
            some signs.length := by
        unfold count
        rw [hMine]
      have hGather :=
        hSharing.gather hMany hp (hSharing.here hp) hCount
          (fun q hq hNe =>
            ⟨hSharing.running hq,
              hSharing.answered hAccepts hq hp hNe⟩)
          fun _ =>
            hSharing.takes_pbc2 hCombines hAggregates hp hMine
      have hFew :=
        (hSharing.bounded p).wait2 hash signs hMine
      omega

/- The combined signature of a live party is answered. -/
theorem Sharing.done
    (hp : Live s p) (hc : Live s c) (hNe : p ≠ c) :
    ((s.party p).loops l).pbc c = .done := by
  have hAnswered := hSharing.answered hAccepts hp hc hNe
  cases hPbc : ((s.party p).loops l).pbc c with
  | wait1 =>
      rw [hPbc] at hAnswered
      cases hAnswered
  | send2 hash =>
      rw [hPbc] at hAnswered
      cases hAnswered
  | done => rfl
  | send4 hash =>
      exact
        absurd (sendPBC4_isSome hPbc)
          (hSharing.inLoop hp (a := .sendPBC4 l c) rfl rfl)
  | wait3 hash =>
      exfalso
      have hCount :
          count (.pbc3 c) ((s.party p).loops l) =
            some 0 := by
        rw [count_pbc3, hPbc]
        rfl
      have hPos :=
        hSharing.one hp (hSharing.here hp) hc hNe.symm hCount
          ⟨rfl, hSharing.running hc,
            hSharing.tried3 hCombines hAggregates hAccepts
              hMany hc⟩
          fun _ => hSharing.takes_pbc3 hp hPbc
      exact Nat.lt_irrefl 0 hPos

/- The own broadcast ends with a pi. -/
theorem Sharing.mine
    (hp : Live s p) :
    ((s.party p).loops l).mine = .done := by
  have hTried :=
    hSharing.tried3 hCombines hAggregates hAccepts hMany hp
  cases hMine : ((s.party p).loops l).mine with
  | done => rfl
  | wait2 hash signs =>
      rw [hMine] at hTried
      cases hTried
  | send3 hash batch =>
      rw [hMine] at hTried
      cases hTried
  | wait4 hash signs =>
      exfalso
      have hCount :
          count .pbc4 ((s.party p).loops l) =
            some signs.length := by
        unfold count
        rw [hMine]
      have hGather :=
        hSharing.gather hMany hp (hSharing.here hp) hCount
          (fun q hq hNe =>
            ⟨hSharing.running hq,
              hSharing.done hCombines hAggregates hAccepts
                hMany hq hp hNe⟩)
          fun _ =>
            hSharing.takes_pbc4 hCombines hAggregates hp hMine
      have hFew :=
        (hSharing.bounded p).wait4 hash signs hMine
      omega

/- So enough pis are counted after all. -/
theorem Sharing.absurd
    (hp : Live s p) : False := by
  have hFew := hSharing.few hp
  have hWaits :
      ((s.party p).loops l).handlesPi = true := by
    by_contra hNot
    have hEnough :=
      (hSharing.bounded p).pi
        (Bool.eq_false_of_not_eq_true hNot)
    omega
  have hCount := count_pi hWaits
  have hDone :
      ∀ q, Live s q → ((s.party q).loops l).mine = .done :=
    fun _ =>
      hSharing.mine hCombines hAggregates hAccepts hMany
  have hOwn : own .pi ((s.party p).loops l) = 1 := by
    unfold own
    exact if_pos ⟨hDone p hp, hSharing.running hp⟩
  have hGather :=
    hSharing.gather hMany hp (hSharing.here hp) hCount
      (fun q hq _ => ⟨hSharing.running hq, hDone q hq⟩)
      fun _ => hSharing.takes_pi hCombines hAggregates hp hWaits
  omega

end Sharing

end Agreement

end SpeedingMVBA

end Jumbo

------------------------------------------------------------
-- The Round
------------------------------------------------------------

namespace Jumbo

namespace SpeedingMVBA

namespace Agreement

open Crypto (Bytes)
open Protocol
open Struct

variable {n : Nat} {cfg : Config n} {s : Net n}
variable {p q : Fin n}

/- A live party that is not done has started. -/
theorem Stuck.started
    (hStuck : Stuck cfg s) (hHonest : NetHonest cfg s)
    (hp : Live s p)
    (hGoing : (s.party p).mvbaDone = false) :
    0 < (s.party p).started := by
  by_contra hZero
  have hNone :=
    hStuck.act hp (a := .launch []) rfl
  rw [step_of_going (hHonest.party p) hGoing] at hNone
  change launch cfg p (s.party p) [] = none at hNone
  unfold launch at hNone
  rw [if_pos (Nat.eq_zero_of_not_pos hZero)] at hNone
  cases hNone

/- A halt that is stored is adopted. -/
theorem Stuck.adopted
    (hStuck : Stuck cfg s) (hHonest : NetHonest cfg s)
    (hp : Live s p)
    (hGoing : (s.party p).mvbaDone = false) :
    (s.party p).halt = .waits := by
  cases hHalt : (s.party p).halt with
  | waits => rfl
  | stored msg =>
      have hNone := hStuck.act hp (a := .adoptHalt) rfl
      rw [step_of_going (hHonest.party p) hGoing] at hNone
      have hSome :
          (SpeedingMVBA.adoptHalt cfg p (s.party p)).isSome :=
        adoptHalt_isSome hHalt
          ((hHonest.party p).halting msg hHalt).2.2
      change SpeedingMVBA.adoptHalt cfg p (s.party p) = none
        at hNone
      rw [hNone] at hSome
      cases hSome
  | done =>
      have hDone := (hHonest.party p).adopted hHalt
      rw [hGoing] at hDone
      cases hDone

/- When one live party is done, all of them are. -/
theorem Stuck.all_done
    (hStuck : Stuck cfg s) (hHonest : NetHonest cfg s)
    (hCounts : NetCounts s) (hq : Live s q)
    (hDone : (s.party q).mvbaDone = true) (hp : Live s p) :
    (s.party p).mvbaDone = true := by
  by_contra hNot
  have hGoing := Bool.eq_false_of_not_eq_true hNot
  have hWaits := hStuck.adopted hHonest hp hGoing
  have hNe : p ≠ q := by
    rintro rfl
    exact hNot hDone
  rcases hCounts.halted q hDone with
    ⟨packet, hMem, rfl, hType, hDest⟩
  rcases List.mem_iff_getElem?.mp hMem with ⟨i, hAt⟩
  cases hLoc : s.log.loc p i with
  | queued =>
      exact hStuck.arrived hAt hq (hDest p hNe) hLoc
  | dropped => exact (hCounts.dropped p i packet hAt hLoc).1 hType
  | handled =>
      exact
        hCounts.heard p i packet hAt (hDest p hNe) hLoc hType
          hWaits
  | net =>
      have hNone := hStuck.receive hp hAt (hDest p hNe) hLoc
      rw [step_of_going (hHonest.party p) hGoing] at hNone
      change
        SpeedingMVBA.receive cfg p (s.party p) packet.msg = none
          at hNone
      have hValid := hHonest.valid packet hMem
      have hHalt := hValid.2
      rw [hType] at hHalt
      have hStarted := hStuck.started hHonest hp hGoing
      unfold SpeedingMVBA.receive at hNone
      rw [if_neg, if_pos hType] at hNone
      · have hSome := handleHalt_isSome hWaits hHalt
        rw [hNone] at hSome
        cases hSome
      · rintro (hOther | hZero)
        · exact hOther hValid.1
        · omega

/- The loop of a live party that no other is behind of. -/
theorem exists_lowest
    (hp : Live s p) :
    ∃ q, Live s q ∧
      ∀ r, Live s r → (s.party q).loop ≤ (s.party r).loop := by
  rcases Finset.exists_min_image (alive s)
      (fun r => (s.party r).loop) ⟨p, mem_alive.mpr hp⟩ with
    ⟨q, hq, hLow⟩
  exact
    ⟨q, mem_alive.mp hq, fun r hr =>
      hLow r (mem_alive.mpr hr)⟩

/- A live party of a stuck state is done. -/
theorem Stuck.done
    (hStuck : Stuck cfg s) (hHonest : NetHonest cfg s)
    (hCounts : NetCounts s) (hCombines : Combines cfg)
    (hAggregates : Aggregates cfg)
    (hAccepts : ∀ values, cfg.checkInput values = true)
    (hMany : maxCount n < (alive s).card) (hp : Live s p) :
    (s.party p).mvbaDone = true := by
  by_contra hNot
  -- nobody is done, so all wait in the least loop or after it
  rcases exists_lowest hp with ⟨q, hq, hLow⟩
  have hDead : Deadlock cfg s (s.party q).loop :=
    { honest := hHonest
      counts := hCounts
      stuck := hStuck
      going := fun r hr => by
        by_contra hOver
        exact
          hNot
            (hStuck.all_done hHonest hCounts hr
              (Bool.eq_true_of_not_eq_false hOver) hp)
      lowest := hLow }
  exact
    Sharing.absurd hCombines hAggregates hAccepts hMany
      { hDead with
        sends := fun _ =>
          hDead.sharing hCombines hAggregates hMany hq rfl }
      hp

end Agreement

end SpeedingMVBA

end Jumbo

------------------------------------------------------------
-- A Round With a Crash
------------------------------------------------------------

namespace Jumbo

namespace SpeedingMVBA

namespace Agreement

open Crypto (Bytes)
open Protocol

section Returned

variable {n : Nat} {cfg : Config n} {s : Net n}

end Returned

/- A party takes the shares `i` and `k` and tells. -/
def elect (id : Fin 4) (i k : Nat) : List (NetAction 4) :=
  deliver id i ++ deliver id k ++
  ([.act id (.storeCoin 0), .act id (.coin 0)]
    : List (NetAction 4))

end Agreement

end SpeedingMVBA

end Jumbo
