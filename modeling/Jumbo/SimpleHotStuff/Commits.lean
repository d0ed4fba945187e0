import Mathlib.Data.Finset.Card
import Jumbo.CertifiedBroadcast.Paybacks
import Jumbo.SimpleHotStuff.Network

/-
  What the parties of the single-leader chain put out.

  A payback for the height of the leader is on the wire, in
  the channel of the height, lost or counted, once for every
  follower that has accepted the block. So the signatures of a
  certificate are of different followers, and every one of
  these holds the block.

  Main declarations:
    * `Honest`
    * `NetOk` and `reachable_netOk`
    * `outputs_follow`
    * `outputs_backed`
    * `waits_for_few`
    * `timely_alive`
-/

------------------------------------------------------------
-- Paybacks on Their Way
------------------------------------------------------------

namespace Jumbo

namespace SimpleHotStuff

open Crypto (Bytes)
open Protocol
open Struct
open CertifiedBroadcast (FutureBuffer PayBack Router)

variable {n : Nat}

/- What is relied on of the signatures and the hash. -/
structure Honest (cfg : LeaderConfig n) : Prop where
  verifies :
    ∀ id msg, Crypto.verify cfg.prim cfg.type id
      (cfg.sign id msg) msg = some true
  length :
    cfg.type = .bls ∨ ∀ id msg, (cfg.sign id msg).length = 64
  aggregates : ∀ msg, Crypto.Aggregates cfg.prim msg
  rooted : ∀ txblk, cfg.sha256 txblk ≠ []

namespace Net

/- The channel that the leader reads. -/
def chan (s : Net n) : List PayBack :=
  match s.routers[s.bcl.height]? with
  | some router => router.paybackCH
  | none => []

/- A payback that has been sent and is not counted. -/
def Around (s : Net n) (payback : PayBack) : Prop :=
  payback ∈ s.wire ∨ payback ∈ s.lost ∨
    ∃ (k : Nat) (router : Router), s.routers[k]? = some router ∧
      payback ∈ router.paybackCH

/- It answers a block that the follower has accepted. -/
def Genuine
    (cfg : LeaderConfig n) (s : Net n) [NeZero n]
    (payback : PayBack) : Prop :=
  ∃ p : Fin n, p ≠ 0 ∧ ∃ (j : Nat) (block : BCBlock),
    j < (s.follower p).height ∧ s.bcl.sent[j]? = some block ∧
      payback = BCF.answer cfg.toConfig p j block

/- The paybacks of a party for the height of the leader. -/
def account (s : Net n) (p : Fin n) : Nat :=
  s.wire.countP (isFrom p s.bcl.height) +
    s.chan.countP (isFrom p s.bcl.height) +
    s.lost.countP (isFrom p s.bcl.height) +
    s.bcl.tmpfollowsigns.countP
      (·.id = Int32.ofNat (p.val + 1))

/- The followers that have accepted the block of a height. -/
def holders [NeZero n] (s : Net n) (k : Nat) : Finset (Fin n) :=
  Finset.univ.filter fun p =>
    p ≠ 0 ∧ k < (s.follower p).height

end Net

/-
  The signatures counted are of followers that have accepted
  the block waiting; each of these has one payback, and what
  the leader has put out is held by as many as it counts.
-/
structure NetOk [NeZero n]
    (cfg : LeaderConfig n) (s : Net n) : Prop where
  led : Led cfg s.bcl
  follows :
    ∀ p, Follows cfg.toConfig p s.bcl.sent (s.follower p)
  length : s.routers.length ≤ s.bcl.height + 1
  started :
    s.bcl.waiting ≠ none →
      s.routers.length = s.bcl.height + 1
  genuine :
    ∀ payback, s.Around payback → s.Genuine cfg payback
  channel :
    ∀ k router, s.routers[k]? = some router →
      ∀ payback ∈ router.paybackCH,
        payback.round = Int32.ofNat k
  signs :
    ∀ block, s.bcl.waiting = some block →
      ∃ ps : List (Fin n),
        s.bcl.tmpfollowsigns =
            ps.map (fun p =>
              (BCF.answer cfg.toConfig p s.bcl.height
                block).sign) ∧
          ∀ p ∈ ps, p ∈ s.holders s.bcl.height
  few :
    s.bcl.waiting ≠ none →
      s.bcl.tmpfollowsigns.length < n * 2 / 3
  account :
    s.bcl.waiting ≠ none → ∀ p : Fin n, p ≠ 0 →
      s.account p =
        if s.bcl.height < (s.follower p).height then 1 else 0
  backed :
    ∀ k < s.bcl.height, n * 2 / 3 ≤ (s.holders k).card

section Lists

/- Taking one out, and what is counted. -/
theorem countP_eraseIdx
    {α : Type*} {l : List α} {i : Nat} {a : α}
    (hAt : l[i]? = some a) (P : α → Bool) :
    (l.eraseIdx i).countP P + [a].countP P = l.countP P := by
  induction l generalizing i with
  | nil => cases hAt
  | cons b l ih =>
      cases i with
      | zero =>
          cases hAt
          rw [List.eraseIdx_cons_zero, List.countP_singleton,
            List.countP_cons]
      | succ i =>
          have hTail := ih hAt
          rw [List.eraseIdx_cons_succ]
          simp only [List.countP_cons] at hTail ⊢
          omega

/- Entries that are set one after another. -/
theorem getElem?_set_cases
    {α : Type*} {l : List α} {k k' : Nat} {a b : α}
    (hGet : (l.set k a)[k']? = some b) :
    (k' = k ∧ b = a) ∨ l[k']? = some b := by
  rw [List.getElem?_set] at hGet
  split at hGet
  · rename_i hSame
    split at hGet
    · cases hGet
      exact .inl ⟨hSame.symm, rfl⟩
    · cases hGet
  · exact .inr hGet

end Lists

section Parts

variable [NeZero n] {cfg : LeaderConfig n} {s : Net n}

/- A holder is a follower that is above the height. -/
theorem mem_holders {p : Fin n} {k : Nat} :
    p ∈ s.holders k ↔ p ≠ 0 ∧ k < (s.follower p).height := by
  unfold Net.holders
  rw [Finset.mem_filter]
  exact ⟨fun h => h.2, fun h => ⟨Finset.mem_univ p, h⟩⟩

/- Every block of the leader has a root. -/
theorem NetOk.root
    (hHonest : Honest cfg) (hOk : NetOk cfg s) :
    ∀ block ∈ s.bcl.sent, block.rawBC.root ≠ [] :=
  fun _ hMem => hOk.led.root hHonest.rooted hMem

/- The blocks of the leader are a valid chain. -/
theorem NetOk.validChain
    (hHonest : Honest cfg) (hOk : NetOk cfg s)
    (hFits : s.bcl.sent.length < 2 ^ 31) :
    ValidChain cfg.toConfig s.bcl.sent :=
  hOk.led.validChain (hHonest.verifies 0) hFits

/- The leader is at most one block ahead of its height. -/
theorem Led.length_le
    {bcl : BCL} (hLed : Led cfg bcl) :
    bcl.height ≤ bcl.sent.length ∧
      bcl.sent.length ≤ bcl.height + 1 := by
  cases hWaiting : bcl.waiting with
  | none =>
      have hLength := hLed.idle hWaiting
      omega
  | some block =>
      have hLength := (hLed.waiting block hWaiting).1
      omega

omit [NeZero n] in
/- A payback of another height is not one of this height. -/
theorem isFrom_of_round
    {p : Fin n} {h k : Nat} {payback : PayBack}
    (hRound : payback.round = Int32.ofNat k)
    (hH : h < 2 ^ 32) (hK : k < 2 ^ 32)
    (hNe : k ≠ h) : isFrom p h payback = false := by
  unfold isFrom
  rw [Bool.and_eq_false_iff, decide_eq_false_iff_not]
  left
  intro hEq
  exact hNe (int32_ofNat_inj hK hH (hRound.symm.trans hEq))

end Parts

end SimpleHotStuff

end Jumbo

------------------------------------------------------------
-- Steps of the Followers and of the Wire
------------------------------------------------------------

namespace Jumbo

namespace SimpleHotStuff

open Crypto (Bytes)
open Protocol
open Struct
open CertifiedBroadcast (FutureBuffer PayBack Router)

variable {n : Nat} [NeZero n]

section Steps

variable {cfg : LeaderConfig n} {s s' : Net n}

/- At the start there is no block. -/
theorem netOk_new : NetOk cfg (Net.new : Net n) where
  led := led_new
  follows _ := follows_new
  length := Nat.zero_le _
  started hNe := absurd rfl hNe
  genuine := by
    rintro payback (hMem | hMem | ⟨k, router, hRouter, _⟩)
    · cases hMem
    · cases hMem
    · cases hRouter
  channel _ _ hRouter := by cases hRouter
  signs _ hBlock := by cases hBlock
  few hNe := absurd rfl hNe
  account hNe := absurd rfl hNe
  backed k hk := absurd hk (Nat.not_lt_zero k)

/- Crashes and panics leave everything else as it is. -/
theorem NetOk.stops
    (hOk : NetOk cfg s) (crashed panicked : Fin n → Bool) :
    NetOk cfg
      { s with crashed := crashed, panicked := panicked } :=
  { hOk with
    genuine := hOk.genuine
    account := hOk.account
    signs := hOk.signs
    backed := hOk.backed }

/-
  A follower goes up on the chain and sends what it has not
  sent before.
-/
theorem NetOk.follower
    (hHonest : Honest cfg) (hN : n < 2 ^ 31)
    (hOk : NetOk cfg s) (hFits : s.bcl.sent.length < 2 ^ 31)
    {p : Fin n} (hFollower : p ≠ 0) {bcf : BCF}
    (hFollows : Follows cfg.toConfig p s.bcl.sent bcf)
    (hLe : (s.follower p).height ≤ bcf.height) :
    NetOk cfg
      { s with
        follower := Function.update s.follower p bcf
        wire :=
          s.wire ++
            bcf.msgOut.drop (s.follower p).msgOut.length } := by
  have hRoot := hOk.root hHonest
  have hHeight :
      ∀ q, (s.follower q).height ≤
        (Function.update s.follower p bcf q).height := by
    intro q
    by_cases hSame : q = p
    · subst hSame
      rw [Function.update_self]
      exact hLe
    · rw [Function.update_of_ne hSame]
  have hHolders :
      ∀ k, s.holders k ⊆
        Net.holders
          { s with follower := Function.update s.follower p bcf }
          k := by
    intro k q hMem
    rw [mem_holders] at hMem ⊢
    exact ⟨hMem.1, hMem.2.trans_le (hHeight q)⟩
  have hSent :=
    (hOk.follows p).on.msgOut_append hFollows.on hRoot hLe
  have hGenuine :
      ∀ payback, s.Genuine cfg payback →
        Net.Genuine cfg
          { s with follower := Function.update s.follower p bcf }
          payback := by
    rintro payback ⟨q, hq, j, block, hLt, hBlock, hEq⟩
    exact
      ⟨q, hq, j, block, hLt.trans_le (hHeight q), hBlock, hEq⟩
  refine
    { led := hOk.led
      follows := ?_
      length := hOk.length
      started := hOk.started
      genuine := ?_
      channel := hOk.channel
      signs := ?_
      few := hOk.few
      account := ?_
      backed := fun k hk =>
        (hOk.backed k hk).trans
          (Finset.card_le_card (hHolders k)) }
  · intro q
    by_cases hSame : q = p
    · subst hSame
      dsimp only
      rw [Function.update_self]
      exact hFollows
    · dsimp only
      rw [Function.update_of_ne hSame]
      exact hOk.follows q
  · rintro payback (hMem | hMem | hMem)
    · rcases List.mem_append.mp hMem with hOld | hNew
      · exact hGenuine payback (hOk.genuine payback (.inl hOld))
      · rcases hFollows.on.mem_msgOut hRoot
            (List.mem_of_mem_drop hNew) with
          ⟨j, block, hLt, hBlock, hEq⟩
        refine ⟨p, hFollower, j, block, ?_, hBlock, hEq⟩
        dsimp only
        rw [Function.update_self]
        exact hLt
    · exact
        hGenuine payback (hOk.genuine payback (.inr (.inl hMem)))
    · exact
        hGenuine payback (hOk.genuine payback (.inr (.inr hMem)))
  · intro block hBlock
    rcases hOk.signs block hBlock with ⟨ps, hSigns, hHold⟩
    exact
      ⟨ps, hSigns, fun q hq => hHolders _ (hHold q hq)⟩
  · intro hWaiting q hq
    have hBefore := hOk.account hWaiting q hq
    have hNow : s.bcl.height < 2 ^ 31 :=
      hOk.led.length_le.1.trans_lt hFits
    have hOld :=
      (hOk.follows p).on.countP_msgOut hN hRoot hFits q hNow
    have hNew := hFollows.on.countP_msgOut hN hRoot hFits q hNow
    rw [hSent, List.countP_append, hOld] at hNew
    unfold Net.account Net.chan at hBefore ⊢
    dsimp only at hBefore ⊢
    rw [List.countP_append]
    by_cases hSame : q = p
    · subst hSame
      simp only [Function.update_self]
      simp only [true_and] at hNew
      omega
    · have hNot : ¬ p = q := fun hEq => hSame hEq.symm
      simp only [Function.update_of_ne hSame]
      simp only [hNot, false_and, if_false] at hNew
      omega

/- A payback is lost, on the wire or with an old router. -/
theorem NetOk.lose
    (hOk : NetOk cfg s) {i : Nat} {payback : PayBack}
    (hAt : s.wire[i]? = some payback) :
    NetOk cfg
      { s with
        wire := s.wire.eraseIdx i
        lost := s.lost ++ [payback] } := by
  have hIn := List.mem_of_getElem? hAt
  refine
    { hOk with
      genuine := ?_
      account := ?_
      signs := hOk.signs
      backed := hOk.backed }
  · rintro other (hMem | hMem | hMem)
    · exact
        hOk.genuine other (.inl (List.mem_of_mem_eraseIdx hMem))
    · rcases List.mem_append.mp hMem with hOld | hNew
      · exact hOk.genuine other (.inr (.inl hOld))
      · cases List.mem_singleton.mp hNew
        exact hOk.genuine payback (.inl hIn)
    · exact hOk.genuine other (.inr (.inr hMem))
  · intro hWaiting p hp
    have hBefore := hOk.account hWaiting p hp
    have hCount :=
      countP_eraseIdx hAt (isFrom p s.bcl.height)
    unfold Net.account Net.chan at hBefore ⊢
    dsimp only at hBefore ⊢
    rw [List.countP_append]
    omega

/- A router hands a payback of its height on. -/
theorem NetOk.handOn
    (hOk : NetOk cfg s) (hFits : s.bcl.sent.length < 2 ^ 31)
    {i k : Nat} {payback : PayBack} {router : Router}
    (hAt : s.wire[i]? = some payback)
    (hRouter : s.routers[k]? = some router)
    (hRound : payback.round = Int32.ofNat k) :
    NetOk cfg
      { s with
        wire := s.wire.eraseIdx i
        routers :=
          s.routers.set k
            { router with
              paybackCH := router.paybackCH ++ [payback] } } := by
  have hIn := List.mem_of_getElem? hAt
  have hLe := hOk.led.length_le.1
  have hLength := hOk.length
  have hK := (List.getElem?_eq_some_iff.mp hRouter).1
  refine
    { hOk with
      length := ?_
      started := ?_
      genuine := ?_
      channel := ?_
      signs := hOk.signs
      account := ?_
      backed := hOk.backed }
  · rw [List.length_set]
    exact hLength
  · intro hWaiting
    rw [List.length_set]
    exact hOk.started hWaiting
  · rintro other (hMem | hMem | ⟨k', router', hGet, hMem⟩)
    · exact
        hOk.genuine other (.inl (List.mem_of_mem_eraseIdx hMem))
    · exact hOk.genuine other (.inr (.inl hMem))
    · rcases getElem?_set_cases hGet with ⟨_, rfl⟩ | hOld
      · rcases List.mem_append.mp hMem with hOld | hNew
        · exact
            hOk.genuine other
              (.inr (.inr ⟨k, router, hRouter, hOld⟩))
        · cases List.mem_singleton.mp hNew
          exact hOk.genuine payback (.inl hIn)
      · exact
          hOk.genuine other (.inr (.inr ⟨k', router', hOld, hMem⟩))
  · intro k' router' hGet other hMem
    rcases getElem?_set_cases hGet with ⟨rfl, rfl⟩ | hOld
    · rcases List.mem_append.mp hMem with hOld | hNew
      · exact hOk.channel k' router hRouter other hOld
      · cases List.mem_singleton.mp hNew
        exact hRound
    · exact hOk.channel k' router' hOld other hMem
  · intro hWaiting p hp
    have hBefore := hOk.account hWaiting p hp
    have hCount :=
      countP_eraseIdx hAt (isFrom p s.bcl.height)
    unfold Net.account Net.chan at hBefore ⊢
    dsimp only at hBefore ⊢
    rw [List.getElem?_set]
    by_cases hSame : k = s.bcl.height
    · subst hSame
      rw [if_pos rfl, if_pos hK]
      rw [hRouter] at hBefore
      dsimp only at hBefore ⊢
      rw [List.countP_append]
      omega
    · have hNot :=
        isFrom_of_round (p := p) hRound
          (h := s.bcl.height) (by omega) (by omega) hSame
      rw [if_neg hSame]
      rw [List.countP_singleton, hNot,
        if_neg Bool.false_ne_true] at hCount
      omega

/- A router that returns keeps what it has in its channel. -/
theorem NetOk.stop
    (hOk : NetOk cfg s) {k : Nat} {router : Router}
    (hRouter : s.routers[k]? = some router) :
    NetOk cfg
      { s with
        routers :=
          s.routers.set k { router with returned := true } } := by
  have hChan :
      ∀ (k' : Nat) (router' : Router),
        (s.routers.set k
            { router with returned := true })[k']? =
          some router' →
          ∃ old : Router, s.routers[k']? = some old ∧
            old.paybackCH = router'.paybackCH := by
    intro k' router' hGet
    rcases getElem?_set_cases hGet with ⟨rfl, rfl⟩ | hOld
    · exact ⟨router, hRouter, rfl⟩
    · exact ⟨router', hOld, rfl⟩
  refine
    { hOk with
      length := ?_
      started := ?_
      genuine := ?_
      channel := ?_
      signs := hOk.signs
      account := ?_
      backed := hOk.backed }
  · rw [List.length_set]
    exact hOk.length
  · intro hWaiting
    rw [List.length_set]
    exact hOk.started hWaiting
  · rintro other (hMem | hMem | ⟨k', router', hGet, hMem⟩)
    · exact hOk.genuine other (.inl hMem)
    · exact hOk.genuine other (.inr (.inl hMem))
    · rcases hChan k' router' hGet with ⟨old, hOld, hEq⟩
      rw [← hEq] at hMem
      exact hOk.genuine other (.inr (.inr ⟨k', old, hOld, hMem⟩))
  · intro k' router' hGet other hMem
    rcases hChan k' router' hGet with ⟨old, hOld, hEq⟩
    rw [← hEq] at hMem
    exact hOk.channel k' old hOld other hMem
  · intro hWaiting p hp
    have hBefore := hOk.account hWaiting p hp
    have hSame :
        Net.chan
            { s with
              routers :=
                s.routers.set k
                  { router with returned := true } } =
          s.chan := by
      unfold Net.chan
      dsimp only
      rw [List.getElem?_set]
      by_cases hEq : k = s.bcl.height
      · rw [if_pos hEq, if_pos
          (List.getElem?_eq_some_iff.mp hRouter).1, ← hEq,
          hRouter]
      · rw [if_neg hEq]
    unfold Net.account at hBefore ⊢
    rw [hSame]
    exact hBefore

end Steps

end SimpleHotStuff

end Jumbo

------------------------------------------------------------
-- Steps of the Leader
------------------------------------------------------------

namespace Jumbo

namespace SimpleHotStuff

open Crypto (Bytes)
open Protocol
open Struct
open CertifiedBroadcast (FutureBuffer PayBack Router)

variable {n : Nat} [NeZero n]

section Leader

variable {cfg : LeaderConfig n} {s s' : Net n}
variable {bcl : BCL} {block : BCBlock}

/- The router of a new height has nothing yet. -/
theorem NetOk.start
    (hOk : NetOk cfg s) (hIdle : s.bcl.waiting = none)
    (hLength : s.routers.length = s.bcl.height) :
    NetOk cfg
      { s with
        routers := s.routers ++ [⟨false, false, []⟩] } := by
  have hNew :
      ∀ (k : Nat) (router : Router),
        (s.routers ++ [⟨false, false, []⟩])[k]? =
          some router →
          s.routers[k]? = some router ∨
            router.paybackCH = [] := by
    intro k router hGet
    rw [List.getElem?_append] at hGet
    split at hGet
    · exact .inl hGet
    · right
      rw [List.getElem?_singleton] at hGet
      split at hGet
      · cases hGet
        rfl
      · cases hGet
  refine
    { hOk with
      length := ?_
      started := fun hNe => absurd hIdle hNe
      genuine := ?_
      channel := ?_
      signs := fun block hBlock => ?_
      account := fun hNe => absurd hIdle hNe
      backed := hOk.backed }
  · rw [List.length_append, hLength]
    exact Nat.le_refl _
  · rintro payback (hMem | hMem | ⟨k, router, hGet, hMem⟩)
    · exact hOk.genuine payback (.inl hMem)
    · exact hOk.genuine payback (.inr (.inl hMem))
    · rcases hNew k router hGet with hOld | hNil
      · exact
          hOk.genuine payback (.inr (.inr ⟨k, router, hOld, hMem⟩))
      · rw [hNil] at hMem
        cases hMem
  · intro k router hGet payback hMem
    rcases hNew k router hGet with hOld | hNil
    · exact hOk.channel k router hOld payback hMem
    · rw [hNil] at hMem
      cases hMem
  · rw [hIdle] at hBlock
    cases hBlock

/- A new block is sent to all followers. -/
theorem propose_eq_some
    {txblk : Bytes} {timestamp : Int64}
    (hPropose : s.bcl.propose cfg txblk timestamp = some bcl) :
    s.bcl.waiting = none ∧ ∃ block,
      bcl =
        { s.bcl with
          sent := s.bcl.sent ++ [block]
          waiting := some block
          tmpfollowsigns := [] } := by
  unfold BCL.propose at hPropose
  cases hWaiting : s.bcl.waiting with
  | some block =>
      rw [hWaiting] at hPropose
      cases hPropose
  | none =>
      rw [hWaiting] at hPropose
      cases hPropose
      exact ⟨rfl, _, rfl⟩

/- Nobody has answered a block that is only sent now. -/
theorem NetOk.propose
    {txblk : Bytes} {timestamp : Int64}
    (hTwo : 2 ≤ n) (hOk : NetOk cfg s)
    (hFits : bcl.sent.length < 2 ^ 31)
    (hLength : s.routers.length = s.bcl.height + 1)
    (hPropose : s.bcl.propose cfg txblk timestamp = some bcl) :
    NetOk cfg { s with bcl := bcl } := by
  have hLed := hOk.led.propose hPropose
  rcases propose_eq_some hPropose with ⟨hIdle, block, rfl⟩
  have hSent := hOk.led.idle hIdle
  have hNow : s.bcl.height < 2 ^ 31 := by
    rw [List.length_append] at hFits
    omega
  have hNone :
      ∀ payback, s.Around payback → ∀ p : Fin n,
        isFrom p s.bcl.height payback = false := by
    intro payback hAround p
    rcases hOk.genuine payback hAround with
      ⟨q, _, j, other, _, hOther, rfl⟩
    have hLt := (List.getElem?_eq_some_iff.mp hOther).1
    exact isFrom_of_round rfl (by omega) (by omega) (by omega)
  have hZero :
      ∀ l : List PayBack, (∀ payback ∈ l, s.Around payback) →
        ∀ p : Fin n, l.countP (isFrom p s.bcl.height) = 0 := by
    intro l hAround p
    rw [List.countP_eq_zero]
    intro payback hMem
    rw [hNone payback (hAround payback hMem) p]
    exact Bool.false_ne_true
  refine
    { led := hLed
      follows := fun p => (hOk.follows p).append [block]
      length := hOk.length
      started := fun _ => hLength
      genuine := ?_
      channel := hOk.channel
      signs := fun _ _ => ⟨[], rfl, List.forall_mem_nil _⟩
      few := fun _ => ?_
      account := ?_
      backed := hOk.backed }
  · intro payback hAround
    rcases hOk.genuine payback hAround with
      ⟨q, hq, j, other, hLt, hOther, hEq⟩
    refine ⟨q, hq, j, other, hLt, ?_, hEq⟩
    rw [List.getElem?_append_left
      (List.getElem?_eq_some_iff.mp hOther).1]
    exact hOther
  · change 0 < n * 2 / 3
    omega
  · intro _ p _
    have hHeight := (hOk.follows p).on.le
    have hWire := hZero s.wire (fun _ => .inl) p
    have hLost := hZero s.lost (fun _ hMem => .inr (.inl hMem)) p
    have hChan :
        s.chan.countP (isFrom p s.bcl.height) = 0 := by
      apply hZero
      intro payback hMem
      unfold Net.chan at hMem
      split at hMem
      · rename_i router hRouter
        exact .inr (.inr ⟨_, router, hRouter, hMem⟩)
      · cases hMem
    unfold Net.chan at hChan
    unfold Net.account Net.chan
    dsimp only
    rw [hWire, hLost, hChan, if_neg (by omega)]
    rfl

/- The block waiting is the one at the leader's height. -/
theorem NetOk.waiting_at
    (hOk : NetOk cfg s) (hWaiting : s.bcl.waiting = some block) :
    s.bcl.sent[s.bcl.height]? = some block := by
  rcases hOk.led.waiting block hWaiting with ⟨hLength, hLast⟩
  have hAt := (Led.last hLast).1
  rwa [hLength, Nat.add_sub_cancel] at hAt

/- What is read is the answer of a follower to this block. -/
theorem NetOk.answers
    (hOk : NetOk cfg s) (hFits : s.bcl.sent.length < 2 ^ 31)
    (hWaiting : s.bcl.waiting = some block)
    {router : Router} {payback : PayBack}
    (hRouter : s.routers[s.bcl.height]? = some router)
    (hMem : payback ∈ router.paybackCH) :
    ∃ p ∈ s.holders s.bcl.height,
      payback =
        BCF.answer cfg.toConfig p s.bcl.height block := by
  have hRound := hOk.channel _ router hRouter payback hMem
  rcases hOk.genuine payback
      (.inr (.inr ⟨_, router, hRouter, hMem⟩)) with
    ⟨p, hp, j, other, hLt, hOther, rfl⟩
  have hJ := (List.getElem?_eq_some_iff.mp hOther).1
  have hNow := hOk.led.length_le.1
  have hEq : j = s.bcl.height :=
    int32_ofNat_inj (by omega) (by omega) hRound
  subst hEq
  rw [hOk.waiting_at hWaiting] at hOther
  cases hOther
  exact ⟨p, mem_holders.mpr ⟨hp, hLt⟩, rfl⟩

omit [NeZero n] in
/- The ids that are on the signatures are of the followers. -/
theorem countP_signs
    (cfg : Config n) (hN : n < 2 ^ 31) (ps : List (Fin n))
    (h : Nat) (block : BCBlock) (p : Fin n) :
    (ps.map fun q => (BCF.answer cfg q h block).sign).countP
        (fun sign => sign.id = Int32.ofNat (p.val + 1)) =
      ps.count p := by
  rw [List.countP_map, List.count]
  apply List.countP_congr
  intro q _
  simp only [BCF.answer, Function.comp, beq_iff_eq]
  constructor
  · intro hEq
    have := q.isLt
    have := p.isLt
    have := int32_ofNat_inj (by omega) (by omega)
      (of_decide_eq_true hEq)
    exact Fin.ext (by omega)
  · rintro rfl
    exact decide_eq_true rfl

/- Nobody is counted twice, nor counted and in the channel. -/
theorem NetOk.nodup
    (hN : n < 2 ^ 31) (hOk : NetOk cfg s)
    (hWaiting : s.bcl.waiting = some block)
    {ps : List (Fin n)}
    (hSigns :
      s.bcl.tmpfollowsigns =
        ps.map fun p =>
          (BCF.answer cfg.toConfig p s.bcl.height block).sign)
    (hHold : ∀ p ∈ ps, p ∈ s.holders s.bcl.height)
    {p : Fin n} (hp : p ∈ s.holders s.bcl.height)
    (hChan : 0 < s.chan.countP (isFrom p s.bcl.height)) :
    (ps ++ [p]).Nodup := by
  have hSome : s.bcl.waiting ≠ none := by
    rw [hWaiting]
    exact Option.some_ne_none block
  have hCount :
      ∀ q ∈ s.holders s.bcl.height,
        s.chan.countP (isFrom q s.bcl.height) + ps.count q ≤
          1 := by
    intro q hq
    rcases mem_holders.mp hq with ⟨hNe, hLt⟩
    have hAccount := hOk.account hSome q hNe
    unfold Net.account at hAccount
    rw [hSigns, countP_signs cfg.toConfig hN, if_pos hLt]
      at hAccount
    omega
  rw [List.nodup_append]
  refine ⟨?_, List.nodup_singleton p, ?_⟩
  · rw [List.nodup_iff_count_le_one]
    intro q
    by_cases hq : q ∈ ps
    · have := hCount q (hHold q hq)
      omega
    · rw [List.count_eq_zero_of_not_mem hq]
      exact Nat.zero_le 1
  · intro q hq q' hq' hEq
    cases List.mem_singleton.mp hq'
    subst hEq
    have hPos := List.count_pos_iff.mpr hq
    have := hCount q hp
    omega

omit [NeZero n] in
/- The batch of different followers' signatures verifies. -/
theorem batch_verifies
    (hHonest : Honest cfg) (hN : n < 2 ^ 31)
    {ps : List (Fin n)} (hNodup : ps.Nodup) (hSome : ps ≠ [])
    (h : Nat) (block : BCBlock) :
    let signs :=
      ps.map fun p =>
        (BCF.answer cfg.toConfig p h block).sign
    let msg :=
      Config.signbyte (cfg.hash block.rawBC) block.rawBC.height
    ∃ batch,
      Crypto.batchSignature cfg.prim cfg.type
          (signs.map (·.content)) msg (signs.map (·.id)) =
          some batch ∧
        Crypto.batchSignatureVerify cfg.prim cfg.type batch msg
          (signs.map (·.id)) = some true := by
  intro signs msg
  have hId :
      ∀ p : Fin n, (Int32.ofNat (p.val + 1)).toInt = p.val + 1 :=
    fun p => by
      have := p.isLt
      rw [Int32.toInt_ofNat_of_lt (by omega)]
      rfl
  have hBatch :=
    @Crypto.batch_of_valid n cfg.prim cfg.type msg
      (ps.map fun p =>
        (Int32.ofNat (p.val + 1), cfg.sign p msg))
      (hHonest.aggregates msg) ?_ ?_ ?_
  · have hFst : signs.map (·.id) =
        (ps.map fun p =>
          (Int32.ofNat (p.val + 1), cfg.sign p msg)).map
            Prod.fst := by
      rw [List.map_map, List.map_map]
      rfl
    have hSnd : signs.map (·.content) =
        (ps.map fun p =>
          (Int32.ofNat (p.val + 1), cfg.sign p msg)).map
            Prod.snd := by
      rw [List.map_map, List.map_map]
      rfl
    rw [hFst, hSnd]
    exact hBatch
  · intro part hPart
    rcases List.mem_map.mp hPart with ⟨p, _, rfl⟩
    exact
      Crypto.validSign_iff.mpr
        ⟨p, Crypto.key_eq_some.mpr (hId p),
          hHonest.verifies p msg,
          hHonest.length.imp_right fun hLong => hLong p msg⟩
  · rw [List.map_map]
    refine hNodup.map_on ?_
    intro p _ q _ hEq
    have hInt := congrArg Int32.toInt hEq
    dsimp only [Function.comp] at hInt
    rw [hId p, hId q] at hInt
    exact Fin.ext (by omega)
  · intro hNil
    exact hSome (List.map_eq_nil_iff.mp hNil)

omit [NeZero n] in
/- With the answer of one more the leader counts it. -/
theorem receive_answer
    (hHonest : Honest cfg) (hN : n < 2 ^ 31) {bcl : BCL}
    (hWaiting : bcl.waiting = some block)
    {ps : List (Fin n)} {p : Fin n}
    (hSigns :
      bcl.tmpfollowsigns =
        ps.map fun q =>
          (BCF.answer cfg.toConfig q bcl.height block).sign)
    (hNodup : (ps ++ [p]).Nodup) :
    ∃ bcl',
      bcl.receive cfg
          (BCF.answer cfg.toConfig p bcl.height block) =
        some bcl' ∧
      bcl'.sent = bcl.sent ∧
        ((n * 2 / 3 ≤ (ps ++ [p]).length ∧
            bcl'.waiting = none ∧
              bcl'.height = bcl.height + 1) ∨
          (ps ++ [p]).length < n * 2 / 3 ∧
            bcl'.waiting = some block ∧
              bcl'.height = bcl.height ∧
                bcl'.tmpfollowsigns =
                  (ps ++ [p]).map fun q =>
                    (BCF.answer cfg.toConfig q bcl.height
                      block).sign) := by
  have hNewSigns :
      bcl.tmpfollowsigns ++
          [(BCF.answer cfg.toConfig p bcl.height block).sign] =
        (ps ++ [p]).map fun q =>
          (BCF.answer cfg.toConfig q bcl.height
            block).sign := by
    rw [List.map_append, hSigns]
    rfl
  rcases batch_verifies hHonest hN hNodup
      (List.append_ne_nil_of_right_ne_nil _
        (List.cons_ne_nil p [])) bcl.height block with
    ⟨batch, hBatch, hVerify⟩
  have hSame :
      (BCF.answer cfg.toConfig p bcl.height block).blkID =
        cfg.hash block.rawBC :=
    rfl
  unfold BCL.receive
  rw [hWaiting]
  dsimp only
  rw [if_pos hSame, hNewSigns, List.length_map, hBatch]
  dsimp only
  rw [if_pos hVerify]
  by_cases hEnough : n * 2 / 3 ≤ (ps ++ [p]).length
  · rw [if_pos hEnough]
    exact ⟨_, rfl, rfl, .inl ⟨hEnough, rfl, rfl⟩⟩
  · rw [if_neg hEnough]
    exact
      ⟨_, rfl, rfl,
        .inr ⟨Nat.lt_of_not_le hEnough, rfl, rfl, rfl⟩⟩

section Read

variable {router : Router} {payback : PayBack}
variable {paybackCH : List PayBack}

/- Who has signed once the next payback has been read. -/
theorem NetOk.signers
    (hN : n < 2 ^ 31) (hOk : NetOk cfg s)
    (hFits : s.bcl.sent.length < 2 ^ 31)
    (hWaiting : s.bcl.waiting = some block)
    (hRouter : s.routers[s.bcl.height]? = some router)
    (hChan : router.paybackCH = payback :: paybackCH) :
    ∃ (p : Fin n) (ps : List (Fin n)),
      payback =
          BCF.answer cfg.toConfig p s.bcl.height block ∧
        (s.bcl.tmpfollowsigns =
          ps.map fun q =>
            (BCF.answer cfg.toConfig q s.bcl.height
              block).sign) ∧
          (ps ++ [p]).Nodup ∧
            ∀ q ∈ ps ++ [p], q ∈ s.holders s.bcl.height := by
  have hMem : payback ∈ router.paybackCH := by
    rw [hChan]
    exact List.mem_cons_self
  have hNow := hOk.led.length_le.1
  rcases hOk.answers hFits hWaiting hRouter hMem with
    ⟨p, hp, rfl⟩
  rcases hOk.signs block hWaiting with ⟨ps, hSigns, hHold⟩
  refine ⟨p, ps, rfl, hSigns, ?_, ?_⟩
  · have hFrom :=
      isFrom_answer cfg.toConfig p p block hN
        (h := s.bcl.height) (i := s.bcl.height) (by omega)
        (by omega)
    refine hOk.nodup hN hWaiting hSigns hHold hp ?_
    unfold Net.chan
    rw [hRouter]
    dsimp only
    rw [hChan, List.countP_cons, if_pos (hFrom.mpr ⟨rfl, rfl⟩)]
    exact Nat.succ_pos _
  · intro q hq
    rcases List.mem_append.mp hq with hOld | hNew
    · exact hHold q hOld
    · cases List.mem_singleton.mp hNew
      exact hp

omit [NeZero n] in
/- What a router holds after a read, it has held before. -/
theorem held_before
    (hRouter : s.routers[s.bcl.height]? = some router)
    (hChan : router.paybackCH = payback :: paybackCH)
    {closed : Bool} {k : Nat} {router' : Router}
    (hGet :
      (s.routers.set s.bcl.height
          { router with
            closed := closed
            paybackCH := paybackCH })[k]? =
        some router') :
    ∃ old : Router, s.routers[k]? = some old ∧
      ∀ other ∈ router'.paybackCH, other ∈ old.paybackCH := by
  rcases getElem?_set_cases hGet with ⟨rfl, rfl⟩ | hOld
  · refine ⟨router, hRouter, ?_⟩
    intro other hOther
    rw [hChan]
    exact List.mem_cons_of_mem _ hOther
  · exact ⟨router', hOld, fun _ h => h⟩

omit [NeZero n] in
/- Reading moves a payback from the channel to the count. -/
theorem account_read
    (hN : n < 2 ^ 31) (hFits : s.bcl.height < 2 ^ 31)
    {p : Fin n} {ps : List (Fin n)}
    (hRouter : s.routers[s.bcl.height]? = some router)
    (hChan :
      router.paybackCH =
        BCF.answer cfg.toConfig p s.bcl.height block ::
          paybackCH)
    (hSigns :
      s.bcl.tmpfollowsigns =
        ps.map fun q =>
          (BCF.answer cfg.toConfig q s.bcl.height block).sign)
    {bcl : BCL} (hHeight : bcl.height = s.bcl.height)
    (hNew :
      bcl.tmpfollowsigns =
        (ps ++ [p]).map fun q =>
          (BCF.answer cfg.toConfig q s.bcl.height block).sign)
    (closed : Bool) (q : Fin n) :
    Net.account
        { s with
          bcl := bcl
          routers :=
            s.routers.set s.bcl.height
              { router with
                closed := closed
                paybackCH := paybackCH } } q =
      s.account q := by
  have hLt := (List.getElem?_eq_some_iff.mp hRouter).1
  have hIs :
      isFrom q s.bcl.height
          (BCF.answer cfg.toConfig p s.bcl.height block) =
        (p == q) := by
    rw [Bool.eq_iff_iff, beq_iff_eq,
      isFrom_answer cfg.toConfig q p block hN hFits hFits]
    exact ⟨fun h => h.1, fun h => ⟨h, rfl⟩⟩
  unfold Net.account Net.chan
  dsimp only
  rw [hHeight, hRouter, hSigns, hNew,
    countP_signs cfg.toConfig hN, countP_signs cfg.toConfig hN,
    List.getElem?_set_self hLt]
  dsimp only
  rw [hChan, List.countP_cons, hIs, List.count_append,
    List.count_singleton]
  omega

/-
  A payback that is read is counted, and the last one that is
  needed makes a certificate.
-/
theorem NetOk.read
    (hHonest : Honest cfg) (hN : n < 2 ^ 31)
    (hOk : NetOk cfg s) (hFits : s.bcl.sent.length < 2 ^ 31)
    (hWaiting : s.bcl.waiting = some block)
    (hRouter : s.routers[s.bcl.height]? = some router)
    (hChan : router.paybackCH = payback :: paybackCH) :
    ∃ bcl, s.bcl.receive cfg payback = some bcl ∧
      NetOk cfg
        { s with
          bcl := bcl
          routers :=
            s.routers.set s.bcl.height
              { router with
                closed := bcl.waiting.isNone
                paybackCH := paybackCH } } := by
  have hSome : s.bcl.waiting ≠ none := by
    rw [hWaiting]
    exact Option.some_ne_none block
  have hNow := hOk.led.length_le.1
  have hLength := hOk.started hSome
  rcases hOk.signers hN hFits hWaiting hRouter hChan with
    ⟨p, ps, rfl, hSigns, hNodup, hHold⟩
  rcases receive_answer hHonest hN hWaiting hSigns hNodup with
    ⟨bcl, hBcl, hSent, hCase⟩
  refine ⟨bcl, hBcl, ?_⟩
  have hGenuine :
      ∀ other, s.Genuine cfg other →
        Net.Genuine cfg { s with bcl := bcl } other := by
    rintro other ⟨q, hq, j, block', hLt', hBlock', hEq⟩
    refine ⟨q, hq, j, block', hLt', ?_, hEq⟩
    rw [hSent]
    exact hBlock'
  refine
    { led := hOk.led.receive hBcl
      follows := fun q => ?_
      length := ?_
      started := ?_
      genuine := ?_
      channel := ?_
      signs := ?_
      few := ?_
      account := ?_
      backed := ?_ }
  · change Follows cfg.toConfig q bcl.sent (s.follower q)
    rw [hSent]
    exact hOk.follows q
  · rw [List.length_set]
    rcases hCase with ⟨_, _, hHeight⟩ | ⟨_, _, hHeight, _⟩
    · rw [hHeight]
      omega
    · rw [hHeight]
      exact hOk.length
  · intro hNot
    rw [List.length_set]
    rcases hCase with ⟨_, hNone, _⟩ | ⟨_, _, hHeight, _⟩
    · exact absurd hNone hNot
    · rw [hHeight]
      exact hLength
  · rintro other (hOther | hOther | ⟨k, router', hGet, hOther⟩)
    · exact hGenuine other (hOk.genuine other (.inl hOther))
    · exact
        hGenuine other (hOk.genuine other (.inr (.inl hOther)))
    · rcases held_before hRouter hChan hGet with
        ⟨old, hOld, hSub⟩
      exact
        hGenuine other
          (hOk.genuine other
            (.inr (.inr ⟨k, old, hOld, hSub other hOther⟩)))
  · intro k router' hGet other hOther
    rcases held_before hRouter hChan hGet with
      ⟨old, hOld, hSub⟩
    exact hOk.channel k old hOld other (hSub other hOther)
  · intro block' hBlock'
    change bcl.waiting = some block' at hBlock'
    rcases hCase with ⟨_, hNone, _⟩ | ⟨_, hSame, hHeight, hNew⟩
    · rw [hNone] at hBlock'
      cases hBlock'
    · rw [hSame] at hBlock'
      cases hBlock'
      refine ⟨ps ++ [p], ?_, ?_⟩
      · change bcl.tmpfollowsigns = _
        rw [hNew, hHeight]
      · intro q hq
        change q ∈ s.holders bcl.height
        rw [hHeight]
        exact hHold q hq
  · intro hNot
    rcases hCase with ⟨_, hNone, _⟩ | ⟨hFew, _, _, hNew⟩
    · exact absurd hNone hNot
    · change bcl.tmpfollowsigns.length < _
      rw [hNew, List.length_map]
      exact hFew
  · intro hNot q hq
    rcases hCase with ⟨_, hNone, _⟩ | ⟨_, _, hHeight, hNew⟩
    · exact absurd hNone hNot
    · have hBefore := hOk.account hSome q hq
      rw [account_read hN (by omega) hRouter hChan hSigns
        hHeight hNew]
      dsimp only
      rw [hHeight]
      exact hBefore
  · intro k hk
    change n * 2 / 3 ≤ (s.holders k).card
    change k < bcl.height at hk
    rcases hCase with ⟨hEnough, _, hHeight⟩ | ⟨_, _, hHeight, _⟩
    · rw [hHeight] at hk
      rcases Nat.lt_succ_iff_lt_or_eq.mp hk with hOld | rfl
      · exact hOk.backed k hOld
      · refine hEnough.trans ?_
        rw [← List.toFinset_card_of_nodup hNodup]
        apply Finset.card_le_card
        intro q hq
        exact hHold q (List.mem_toFinset.mp hq)
    · rw [hHeight] at hk
      exact hOk.backed k hk

end Read

end Leader

end SimpleHotStuff

end Jumbo

------------------------------------------------------------
-- Every Run
------------------------------------------------------------

namespace Jumbo

namespace SimpleHotStuff

open Crypto (Bytes)
open Protocol
open Struct
open CertifiedBroadcast (FutureBuffer PayBack Router)

variable {n : Nat} [NeZero n]

section Runs

variable {cfg : LeaderConfig n} {s s' : Net n}
variable {a : NetAction n}

omit [NeZero n] in
/- A router hands a payback on, or it is lost there. -/
theorem route_cases
    {k i : Nat} (hRoute : s.route k i = some s') :
    ∃ payback, s.wire[i]? = some payback ∧
      ((∃ router, s.routers[k]? = some router ∧
          payback.round = Int32.ofNat k ∧
          s' =
            { s with
              wire := s.wire.eraseIdx i
              routers :=
                s.routers.set k
                  { router with
                    paybackCH :=
                      router.paybackCH ++ [payback] } }) ∨
        s' =
          { s with
            wire := s.wire.eraseIdx i
            lost := s.lost ++ [payback] }) := by
  unfold Net.route at hRoute
  split at hRoute
  · rename_i payback router hAt hRouter
    rcases Option.ite_none_left_eq_some.mp hRoute with
      ⟨_, hRoute⟩
    refine ⟨payback, hAt, ?_⟩
    split at hRoute
    · rename_i hRound
      cases hRoute
      exact .inl ⟨router, hRouter, hRound, rfl⟩
    · cases hRoute
      exact .inr rfl
  · cases hRoute

omit [NeZero n] in
/- A router that stops keeps its messages. -/
theorem stop_eq_some
    {k : Nat} (hStop : s.stop k = some s') :
    ∃ router, s.routers[k]? = some router ∧
      s' =
        { s with
          routers :=
            s.routers.set k
              { router with returned := true } } := by
  unfold Net.stop at hStop
  split at hStop
  · rename_i router hRouter
    rcases Option.ite_none_right_eq_some.mp hStop with
      ⟨_, hEq⟩
    cases hEq
    exact ⟨router, hRouter, rfl⟩
  · cases hStop

/- What the leader takes out of its channel. -/
theorem read_cases
    (hRead : s.read cfg = some s') :
    ∃ block router payback paybackCH,
      s.bcl.waiting = some block ∧
        s.routers[s.bcl.height]? = some router ∧
        router.paybackCH = payback :: paybackCH ∧
        ((s.bcl.receive cfg payback = none ∧ s' = s.panic 0) ∨
          ∃ bcl, s.bcl.receive cfg payback = some bcl ∧
            s' =
              { s with
                bcl := bcl
                routers :=
                  s.routers.set s.bcl.height
                    { router with
                      closed := bcl.waiting.isNone
                      paybackCH := paybackCH } }) := by
  unfold Net.read at hRead
  split at hRead
  · rename_i block router hWaiting hRouter
    split at hRead
    · cases hRead
    · rename_i payback paybackCH hChan
      refine
        ⟨block, router, payback, paybackCH, hWaiting, hRouter,
          hChan, ?_⟩
      split at hRead
      · rename_i hNone
        cases hRead
        exact .inl ⟨hNone, rfl⟩
      · rename_i bcl hReceive
        cases hRead
        exact .inr ⟨bcl, hReceive, rfl⟩
  · cases hRead

omit [NeZero n] in
/- Reading a payback sends no block. -/
theorem receive_sent
    {bcl bcl' : BCL} {payback : PayBack}
    (hReceive : bcl.receive cfg payback = some bcl') :
    bcl'.sent = bcl.sent := by
  unfold BCL.receive at hReceive
  split at hReceive
  · cases hReceive
  · dsimp only at hReceive
    split at hReceive
    · split at hReceive
      · split at hReceive
        · cases hReceive
        · rcases Option.ite_none_right_eq_some.mp hReceive
            with ⟨_, hEq⟩
          cases hEq
          rfl
      · cases hReceive
        rfl
    · cases hReceive
      rfl

/- What has been sent stays. -/
theorem sent_mono
    (hExec : s.exec cfg a = some s') :
    s.bcl.sent.length ≤ s'.bcl.sent.length := by
  unfold Net.exec at hExec
  cases a with
  | start =>
      rcases Option.ite_none_right_eq_some.mp hExec with
        ⟨_, hEq⟩
      cases hEq
      exact Nat.le_refl _
  | propose txblk timestamp =>
      rcases Option.ite_none_right_eq_some.mp hExec with
        ⟨_, hMap⟩
      rcases Option.map_eq_some_iff.mp hMap with
        ⟨bcl, hPropose, rfl⟩
      rcases propose_eq_some hPropose with ⟨_, block, rfl⟩
      rw [List.length_append]
      exact Nat.le_add_right _ _
  | deliver p i =>
      dsimp only at hExec
      split at hExec
      · cases hExec
      · rcases Option.ite_none_right_eq_some.mp hExec with
          ⟨_, hEq⟩
        cases hEq
        unfold Net.deliver
        split
        · exact Nat.le_refl _
        · exact Nat.le_refl _
  | lose i =>
      rcases Option.map_eq_some_iff.mp hExec with
        ⟨payback, _, rfl⟩
      exact Nat.le_refl _
  | route k i =>
      rcases Option.ite_none_right_eq_some.mp hExec with
        ⟨_, hRoute⟩
      rcases route_cases hRoute with
        ⟨_, _, ⟨_, _, _, rfl⟩ | rfl⟩
      · exact Nat.le_refl _
      · exact Nat.le_refl _
  | stop k =>
      rcases Option.ite_none_right_eq_some.mp hExec with
        ⟨_, hStop⟩
      rcases stop_eq_some hStop with ⟨_, _, rfl⟩
      exact Nat.le_refl _
  | read =>
      rcases Option.ite_none_right_eq_some.mp hExec with
        ⟨_, hRead⟩
      rcases read_cases hRead with
        ⟨_, _, _, _, _, _, _, ⟨_, rfl⟩ | ⟨bcl, hReceive, rfl⟩⟩
      · exact Nat.le_refl _
      · rw [receive_sent hReceive]
  | crash p =>
      cases hExec
      exact Nat.le_refl _

/- Every step keeps the invariant. -/
theorem NetOk.exec
    (hHonest : Honest cfg) (hTwo : 2 ≤ n) (hN : n < 2 ^ 31)
    (hOk : NetOk cfg s) (hFits : s'.bcl.sent.length < 2 ^ 31)
    (hExec : s.exec cfg a = some s') :
    NetOk cfg s' := by
  have hBefore := (sent_mono hExec).trans_lt hFits
  unfold Net.exec at hExec
  cases a with
  | start =>
      rcases Option.ite_none_right_eq_some.mp hExec with
        ⟨hGuard, hEq⟩
      cases hEq
      simp only [Bool.and_eq_true, decide_eq_true_eq,
        Option.isNone_iff_eq_none] at hGuard
      exact hOk.start hGuard.1.2 hGuard.2
  | propose txblk timestamp =>
      rcases Option.ite_none_right_eq_some.mp hExec with
        ⟨hGuard, hMap⟩
      rcases Option.map_eq_some_iff.mp hMap with
        ⟨bcl, hPropose, rfl⟩
      simp only [Bool.and_eq_true, decide_eq_true_eq] at hGuard
      exact hOk.propose hTwo hFits hGuard.2 hPropose
  | deliver p i =>
      dsimp only at hExec
      split at hExec
      · cases hExec
      · rename_i block hBlock
        rcases Option.ite_none_right_eq_some.mp hExec with
          ⟨hGuard, hEq⟩
        cases hEq
        simp only [Bool.and_eq_true, decide_eq_true_eq] at hGuard
        unfold Net.deliver
        split
        · exact hOk.stops _ _
        · rename_i bcf hArrive
          rcases (hOk.follows p).arrive
              (hOk.validChain hHonest hBefore)
              (List.mem_of_getElem? hBlock) hArrive with
            ⟨hFollows, hLe⟩
          exact
            hOk.follower hHonest hN hBefore hGuard.2 hFollows
              hLe
  | lose i =>
      rcases Option.map_eq_some_iff.mp hExec with
        ⟨payback, hAt, rfl⟩
      exact hOk.lose hAt
  | route k i =>
      rcases Option.ite_none_right_eq_some.mp hExec with
        ⟨_, hRoute⟩
      rcases route_cases hRoute with
        ⟨payback, hAt, ⟨router, hRouter, hRound, rfl⟩ | rfl⟩
      · exact hOk.handOn hBefore hAt hRouter hRound
      · exact hOk.lose hAt
  | stop k =>
      rcases Option.ite_none_right_eq_some.mp hExec with
        ⟨_, hStop⟩
      rcases stop_eq_some hStop with ⟨router, hRouter, rfl⟩
      exact hOk.stop hRouter
  | read =>
      rcases Option.ite_none_right_eq_some.mp hExec with
        ⟨_, hRead⟩
      rcases read_cases hRead with
        ⟨block, router, payback, paybackCH, hWaiting, hRouter,
          hChan, hCase⟩
      rcases hOk.read hHonest hN hBefore hWaiting hRouter
          hChan with ⟨bcl, hReceive, hNext⟩
      rcases hCase with ⟨hNone, _⟩ | ⟨bcl', hSome, rfl⟩
      · rw [hReceive] at hNone
        cases hNone
      · rw [hReceive] at hSome
        cases hSome
        exact hNext
  | crash p =>
      cases hExec
      exact hOk.stops _ _

/- It holds in every run with fewer than 2^31 blocks. -/
theorem reachable_netOk
    (hHonest : Honest cfg) (hTwo : 2 ≤ n) (hN : n < 2 ^ 31)
    (hReach : (network cfg).Reachable s)
    (hFits : s.bcl.sent.length < 2 ^ 31) :
    NetOk cfg s := by
  revert hFits
  refine
    hReach.invariant
      (fun s => s.bcl.sent.length < 2 ^ 31 → NetOk cfg s)
      (fun _ => netOk_new) ?_
  intro s a s' _ hOk hExec hFits
  exact
    (hOk ((sent_mono hExec).trans_lt hFits)).exec hHonest hTwo
      hN hFits hExec

/-
  Whatever is lost, late or out of order, and whoever crashes:
  what a follower has put out is a beginning of what the
  leader has.
-/
theorem outputs_follow
    (hHonest : Honest cfg) (hTwo : 2 ≤ n) (hN : n < 2 ^ 31)
    (hReach : (network cfg).Reachable s)
    (hFits : s.bcl.sent.length < 2 ^ 31) (p : Fin n) :
    (s.follower p).output <+: s.bcl.output := by
  have hOk := reachable_netOk hHonest hTwo hN hReach hFits
  have hOn := (hOk.follows p).on
  have hLe := hOn.le
  have hBound := hOk.led.length_le.2
  have hTake :
      (s.bcl.sent.take s.bcl.height).take
          ((s.follower p).height - 1) =
        s.bcl.sent.take ((s.follower p).height - 1) := by
    rw [List.take_take, Nat.min_eq_left (by omega)]
  rw [hOn.output (hOk.root hHonest), hOk.led.output, ← hTake]
  exact (List.take_prefix _ _).map _

/-
  A block that the leader has put out is held by as many
  followers as sign for a certificate, from then on.
-/
theorem outputs_backed
    (hHonest : Honest cfg) (hTwo : 2 ≤ n) (hN : n < 2 ^ 31)
    (hReach : (network cfg).Reachable s)
    (hFits : s.bcl.sent.length < 2 ^ 31)
    {k : Nat} (hk : k < s.bcl.output.length) :
    n * 2 / 3 ≤ (s.holders k).card := by
  have hOk := reachable_netOk hHonest hTwo hN hReach hFits
  apply hOk.backed
  rw [hOk.led.output, List.length_map, List.length_take] at hk
  omega

/-
  When nothing is left to read, a leader that waits has got
  the paybacks of too few followers: of fewer than it needs
  has no payback been lost.
-/
theorem waits_for_few
    (hHonest : Honest cfg) (hTwo : 2 ≤ n) (hN : n < 2 ^ 31)
    (hReach : (network cfg).Reachable s)
    (hFits : s.bcl.sent.length < 2 ^ 31)
    (hWaiting : s.bcl.waiting ≠ none)
    (hWire : s.wire = []) (hChan : s.chan = []) :
    ((s.holders s.bcl.height).filter fun p =>
      ∀ payback ∈ s.lost,
        isFrom p s.bcl.height payback = false).card <
      n * 2 / 3 := by
  have hOk := reachable_netOk hHonest hTwo hN hReach hFits
  refine lt_of_le_of_lt ?_ (hOk.few hWaiting)
  cases hBlock : s.bcl.waiting with
  | none => exact absurd hBlock hWaiting
  | some block =>
      rcases hOk.signs block hBlock with ⟨ps, hSigns, _⟩
      rw [hSigns, List.length_map]
      refine
        (Finset.card_le_card ?_).trans (List.toFinset_card_le ps)
      intro p hp
      rw [Finset.mem_filter, mem_holders] at hp
      rcases hp with ⟨⟨hNe, hLt⟩, hKept⟩
      have hAccount := hOk.account hWaiting p hNe
      have hLost :
          s.lost.countP (isFrom p s.bcl.height) = 0 := by
        rw [List.countP_eq_zero]
        intro payback hMem
        rw [hKept payback hMem]
        exact Bool.false_ne_true
      unfold Net.account at hAccount
      rw [hWire, hChan, hLost, hSigns,
        countP_signs cfg.toConfig hN, if_pos hLt,
        List.countP_nil] at hAccount
      rw [List.mem_toFinset, ← List.count_pos_iff]
      omega

/- No block comes before its turn. -/
def Net.timely (s : Net n) : NetAction n → Bool
| .deliver p i => i ≤ (s.follower p).height
| _ => true

/- Nobody has panicked, and no block is kept for later. -/
def Net.Alive (s : Net n) : Prop :=
  ∀ p, s.panicked p = false ∧
    (s.follower p).futurebuffer = ⟨-1, []⟩

/- A timely step makes nobody panic. -/
theorem NetOk.alive
    (hHonest : Honest cfg) (hN : n < 2 ^ 31)
    (hOk : NetOk cfg s) (hFits : s.bcl.sent.length < 2 ^ 31)
    (hAlive : s.Alive) (hTimely : s.timely a = true)
    (hExec : s.exec cfg a = some s') :
    s'.Alive := by
  unfold Net.exec at hExec
  cases a with
  | start =>
      rcases Option.ite_none_right_eq_some.mp hExec with
        ⟨_, hEq⟩
      cases hEq
      exact hAlive
  | propose txblk timestamp =>
      rcases Option.ite_none_right_eq_some.mp hExec with
        ⟨_, hMap⟩
      rcases Option.map_eq_some_iff.mp hMap with ⟨bcl, _, rfl⟩
      exact hAlive
  | deliver p i =>
      dsimp only at hExec
      split at hExec
      · cases hExec
      · rename_i block hBlock
        rcases Option.ite_none_right_eq_some.mp hExec with
          ⟨_, hEq⟩
        cases hEq
        have hValid := hOk.validChain hHonest hFits
        have hHeight := hValid.height i block hBlock
        have hTurn : i ≤ (s.follower p).height :=
          of_decide_eq_true hTimely
        rcases (hOk.follows p).on.arrive_timely hValid
            (hAlive p).2 (List.mem_of_getElem? hBlock)
            (by rw [hHeight]; exact Int.ofNat_le.mpr hTurn) with
          ⟨bcf, hArrive, hEmpty⟩
        unfold Net.deliver
        rw [hArrive]
        intro q
        refine ⟨(hAlive q).1, ?_⟩
        dsimp only
        by_cases hSame : q = p
        · subst hSame
          rw [Function.update_self]
          exact hEmpty
        · rw [Function.update_of_ne hSame]
          exact (hAlive q).2
  | lose i =>
      rcases Option.map_eq_some_iff.mp hExec with
        ⟨payback, _, rfl⟩
      exact hAlive
  | route k i =>
      rcases Option.ite_none_right_eq_some.mp hExec with
        ⟨_, hRoute⟩
      rcases route_cases hRoute with
        ⟨_, _, ⟨_, _, _, rfl⟩ | rfl⟩
      · exact hAlive
      · exact hAlive
  | stop k =>
      rcases Option.ite_none_right_eq_some.mp hExec with
        ⟨_, hStop⟩
      rcases stop_eq_some hStop with ⟨_, _, rfl⟩
      exact hAlive
  | read =>
      rcases Option.ite_none_right_eq_some.mp hExec with
        ⟨_, hRead⟩
      rcases read_cases hRead with
        ⟨block, router, payback, paybackCH, hWaiting, hRouter,
          hChan, hCase⟩
      rcases hOk.read hHonest hN hFits hWaiting hRouter
          hChan with ⟨bcl, hReceive, _⟩
      rcases hCase with ⟨hNone, _⟩ | ⟨_, _, rfl⟩
      · rw [hReceive] at hNone
        cases hNone
      · exact hAlive
  | crash p =>
      cases hExec
      exact hAlive

/- Without early blocks nobody panics. -/
theorem timely_alive
    (hHonest : Honest cfg) (hTwo : 2 ≤ n) (hN : n < 2 ^ 31)
    (hReach :
      (network cfg).ReachableBy
        (fun s a => s.timely a = true) s)
    (hFits : s.bcl.sent.length < 2 ^ 31) (p : Fin n) :
    s.panicked p = false := by
  have hAlive : s.bcl.sent.length < 2 ^ 31 → s.Alive := by
    refine
      hReach.invariant
        (fun s => s.bcl.sent.length < 2 ^ 31 → s.Alive)
        (fun _ _ => ⟨rfl, rfl⟩) ?_
    intro s a s' hReach hAlive hTimely hExec hFits
    have hBefore := (sent_mono hExec).trans_lt hFits
    have hOk :=
      reachable_netOk hHonest hTwo hN hReach.reachable hBefore
    exact
      hOk.alive hHonest hN hBefore (hAlive hBefore) hTimely hExec
  exact (hAlive hFits p).1

end Runs

------------------------------------------------------------
-- Two Blocks
------------------------------------------------------------

/- A signature is the number of the party, 64 times. -/
def numberConfig : LeaderConfig 4 where
  prim := CertifiedBroadcast.numberPrimitives
  type := .ecdsa
  sign := fun id _ => CertifiedBroadcast.numberSign id
  hash := fun rawBC => intToBytes rawBC.height
  sha256 := fun _ => [0]

/- The signatures are honest. -/
theorem numberConfig_honest : Honest numberConfig where
  verifies _ _ := congrArg some (decide_eq_true rfl)
  length := .inr fun _ _ => List.length_replicate
  aggregates := CertifiedBroadcast.numberPrimitives_aggregates
  rooted _ := List.cons_ne_nil _ _

/- The second block has come to party 1 alone. -/
def twoState : Net 4 :=
  (network numberConfig).drive (fun s a => s.timely a)
    (network numberConfig).init
    ([.start, .propose [5] 0, .deliver 1 0, .deliver 2 0,
      .deliver 3 0, .route 0 0, .route 0 0, .read, .read,
      .start, .propose [6] 1, .deliver 1 1, .route 0 0,
      .route 1 0, .read] : List (NetAction 4))

/- The run is timely. -/
theorem twoState_reachable :
    (network numberConfig).ReachableBy
      (fun s a => s.timely a = true) twoState :=
  Machine.ReachableBy.drive .init _

/- Two blocks are sent and the first is put out. -/
theorem twoState_spec :
    twoState.bcl.sent.length = 2 ∧
      twoState.bcl.output.length = 1 ∧
      (twoState.follower 1).output.length = 1 ∧
      twoState.bcl.waiting.isSome = true ∧
      twoState.wire.length = 0 ∧ twoState.chan.length = 0 ∧
      (twoState.holders 0).card = 3 ∧
      (twoState.holders 1).card = 1 := by
  decide +kernel

/- There are few blocks. -/
theorem twoState_fits : twoState.bcl.sent.length < 2 ^ 31 := by
  rw [twoState_spec.1]
  decide

/- A follower has put out what the leader has. -/
theorem outputs_follow_two :
    (twoState.follower 1).output <+: twoState.bcl.output ∧
      (twoState.follower 1).output.length = 1 :=
  ⟨outputs_follow numberConfig_honest (by decide) (by decide)
      twoState_reachable.reachable twoState_fits 1,
    twoState_spec.2.2.1⟩

/- The block is held by enough parties. -/
theorem outputs_backed_two :
    4 * 2 / 3 ≤ (twoState.holders 0).card :=
  outputs_backed numberConfig_honest (by decide) (by decide)
    twoState_reachable.reachable twoState_fits
    (by rw [twoState_spec.2.1]; decide)

/- The leader waits while few parties hold the block. -/
theorem waits_for_few_two :
    ((twoState.holders twoState.bcl.height).filter fun p =>
      ∀ payback ∈ twoState.lost,
        isFrom p twoState.bcl.height payback = false).card <
      4 * 2 / 3 :=
  waits_for_few numberConfig_honest (by decide) (by decide)
    twoState_reachable.reachable twoState_fits
    (Option.isSome_iff_ne_none.mp twoState_spec.2.2.2.1)
    (List.length_eq_zero_iff.mp twoState_spec.2.2.2.2.1)
    (List.length_eq_zero_iff.mp twoState_spec.2.2.2.2.2.1)

/- Nobody has panicked. -/
theorem timely_alive_two :
    twoState.panicked 1 = false :=
  timely_alive numberConfig_honest (by decide) (by decide)
    twoState_reachable twoState_fits 1

end SimpleHotStuff

end Jumbo
