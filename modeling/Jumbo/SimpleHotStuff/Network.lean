import Jumbo.SimpleHotStuff.Leader
import Jumbo.CertifiedBroadcast.Paybacks

/-
  The leader of the single-leader chain with its followers.

  Party 1 leads and the others follow. Any of them may crash,
  blocks arrive late, again, in any order or not at all, and
  paybacks get lost, some of them with the router of a height
  that is over. What such a router reads is not handed on.

  Main declarations:
    * `Net` and `Net.exec`
    * `network`
    * `Follows` and `Follows.arrive`
    * `countP_msgOut`
-/

------------------------------------------------------------
-- The System
------------------------------------------------------------

namespace Jumbo

namespace SimpleHotStuff

open Crypto (Bytes)
open Protocol
open Struct
open CertifiedBroadcast (PayBack Router)

/-
  The router at an index is the one of this height. `wire`
  are the paybacks on their way to the leader, `lost` those
  that are not on it any more and were not handed on.
-/
structure Net (n : Nat) where
  bcl : BCL
  routers : List Router
  follower : Fin n → BCF
  wire : List PayBack
  lost : List PayBack
  crashed : Fin n → Bool
  panicked : Fin n → Bool

/-
  The leader, its routers and the followers step, or the
  network delivers or loses a message.
-/
inductive NetAction (n : Nat) where
| start
| propose (txblk : Bytes) (timestamp : Int64)
| deliver (p : Fin n) (i : Nat)
| lose (i : Nat)
| route (k i : Nat)
| stop (k : Nat)
| read
| crash (p : Fin n)

variable {n : Nat}

namespace Net

/- Nobody has started. -/
def new : Net n where
  bcl := BCL.new
  routers := []
  follower := fun _ => BCF.new
  wire := []
  lost := []
  crashed := fun _ => false
  panicked := fun _ => false

/- The party has neither crashed nor panicked. -/
def up (s : Net n) (p : Fin n) : Bool :=
  !s.crashed p && !s.panicked p

/- The party panics. -/
def panic (s : Net n) (p : Fin n) : Net n :=
  { s with panicked := Function.update s.panicked p true }

/- The follower reads a block and sends its paybacks. -/
def deliver [NeZero n]
    (cfg : LeaderConfig n) (s : Net n) (p : Fin n)
    (block : BCBlock) : Net n :=
  match (s.follower p).arrive cfg.toConfig p block with
  | none => s.panic p
  | some bcf =>
      { s with
        follower := Function.update s.follower p bcf
        wire :=
          s.wire ++
            bcf.msgOut.drop (s.follower p).msgOut.length }

/- One message of the router of a height. -/
def route (s : Net n) (k i : Nat) : Option (Net n) :=
  match s.wire[i]?, s.routers[k]? with
  | some payback, some router =>
      if router.returned then none
      else if payback.round = Int32.ofNat k then
        some { s with
          wire := s.wire.eraseIdx i
          routers :=
            s.routers.set k
              { router with
                paybackCH := router.paybackCH ++ [payback] } }
      else
        some { s with
          wire := s.wire.eraseIdx i
          lost := s.lost ++ [payback] }
  | _, _ => none

/- A router that has been told to stop returns. -/
def stop (s : Net n) (k : Nat) : Option (Net n) :=
  match s.routers[k]? with
  | some router =>
      if router.closed && !router.returned then
        some { s with
          routers :=
            s.routers.set k { router with returned := true } }
      else none
  | none => none

/-
  The leader takes a payback out of the channel of its
  height. With the last one it needs it goes on to the next
  height and tells the router to stop.
-/
def read [NeZero n] (cfg : LeaderConfig n) (s : Net n) :
    Option (Net n) :=
  match s.bcl.waiting, s.routers[s.bcl.height]? with
  | some _, some router =>
      match router.paybackCH with
      | [] => none
      | payback :: paybackCH =>
          match s.bcl.receive cfg payback with
          | none => some (s.panic 0)
          | some bcl =>
              some { s with
                bcl := bcl
                routers :=
                  s.routers.set s.bcl.height
                    { router with
                      closed := bcl.waiting.isNone
                      paybackCH := paybackCH } }
  | _, _ => none

/- One step of the network. -/
def exec [NeZero n] (cfg : LeaderConfig n) (s : Net n) :
    NetAction n → Option (Net n)
| .start =>
    if s.up 0 && s.bcl.waiting.isNone &&
        s.routers.length = s.bcl.height then
      some { s with
        routers := s.routers ++ [⟨false, false, []⟩] }
    else none
| .propose txblk timestamp =>
    if s.up 0 && s.routers.length = s.bcl.height + 1 then
      (s.bcl.propose cfg txblk timestamp).map fun bcl =>
        { s with bcl := bcl }
    else none
| .deliver p i =>
    match s.bcl.sent[i]? with
    | none => none
    | some block =>
        if s.up p && p ≠ 0 then some (s.deliver cfg p block)
        else none
| .lose i =>
    s.wire[i]?.map fun payback =>
      { s with
        wire := s.wire.eraseIdx i
        lost := s.lost ++ [payback] }
| .route k i => if s.up 0 then s.route k i else none
| .stop k => if s.up 0 then s.stop k else none
| .read => if s.up 0 then s.read cfg else none
| .crash p =>
    some { s with crashed := Function.update s.crashed p true }

end Net

/- The leader with its followers as a machine. -/
def network [NeZero n] (cfg : LeaderConfig n) :
    Machine (Net n) (NetAction n) where
  init := Net.new
  exec := Net.exec cfg

end SimpleHotStuff

end Jumbo

------------------------------------------------------------
-- A Follower of a Chain That Grows
------------------------------------------------------------

namespace Jumbo

namespace SimpleHotStuff

open Struct
open CertifiedBroadcast (FutureBuffer PayBack)

variable {n : Nat}

/- More blocks of the leader keep a follower on its chain. -/
theorem OnChain.append
    {cfg : Config n} {id : Fin n} {chain : List BCBlock}
    {bcf : BCF}
    (hOn : OnChain cfg id chain bcf) (more : List BCBlock) :
    OnChain cfg id (chain ++ more) bcf where
  le := by
    rw [List.length_append]
    exact Nat.le_add_right_of_le hOn.le
  eq := by
    rw [BCF.upTo_append more hOn.le]
    exact hOn.eq

/- The buffer has blocks of the chain only, in any state. -/
structure Follows
    (cfg : Config n) (id : Fin n) (chain : List BCBlock)
    (bcf : BCF) : Prop where
  on : OnChain cfg id chain bcf
  held : ∀ block ∈ bcf.futurebuffer.bcblocks, block ∈ chain

section Follows

variable {cfg : Config n} {id : Fin n}
variable {chain : List BCBlock} {bcf bcf' : BCF}
variable {block : BCBlock}

theorem follows_new : Follows cfg id chain BCF.new where
  on := OnChain.upTo (Nat.zero_le _)
  held := List.forall_mem_nil _

/- They keep what it follows. -/
theorem Follows.append
    (hFollows : Follows cfg id chain bcf)
    (more : List BCBlock) :
    Follows cfg id (chain ++ more) bcf where
  on := hFollows.on.append more
  held := fun block hMem =>
    List.mem_append_left _ (hFollows.held block hMem)

/- Cleaning keeps what it follows. -/
theorem Follows.clean
    (hFollows : Follows cfg id chain bcf) :
    Follows cfg id chain bcf.clean where
  on := hFollows.on.withBuffer _
  held := fun block hMem =>
    hFollows.held block
      (CertifiedBroadcast.mem_of_mem_clean hMem)

variable [NeZero n]

/- Handling a block of the chain takes it further at most. -/
theorem Follows.handle
    {isfuture : Bool}
    (hFollows : Follows cfg id chain bcf)
    (hValid : ValidChain cfg chain) (hMem : block ∈ chain)
    (hHandle : bcf.handle cfg id isfuture block = some bcf') :
    Follows cfg id chain bcf' ∧ bcf.height ≤ bcf'.height := by
  rw [hFollows.on.handle hValid hMem] at hHandle
  split at hHandle
  · cases hHandle
    exact ⟨hFollows, Nat.le_refl _⟩
  · split at hHandle
    · rename_i hNow
      cases hHandle
      refine ⟨⟨hFollows.on.accept hValid hMem hNow, ?_⟩, ?_⟩
      · rw [BCF.generatepayback_futurebuffer]
        exact hFollows.held
      · rw [BCF.generatepayback_height]
        exact Nat.le_succ _
    · rcases Option.ite_none_right_eq_some.mp hHandle with
        ⟨_, hEq⟩
      cases hEq
      refine ⟨⟨hFollows.on.withBuffer _, ?_⟩, Nat.le_refl _⟩
      intro other hOther
      rcases CertifiedBroadcast.mem_of_mem_put hOther with
        rfl | hOld
      · exact hMem
      · exact hFollows.held other hOld

/- So does taking a block that waited. -/
theorem Follows.next
    (hFollows : Follows cfg id chain bcf)
    (hValid : ValidChain cfg chain)
    (hNext : bcf.next cfg id = some bcf') :
    Follows cfg id chain bcf' ∧ bcf.height ≤ bcf'.height := by
  have hClean := hFollows.clean
  unfold BCF.next at hNext
  rcases Option.ite_none_right_eq_some.mp hNext with
    ⟨_, hMatch⟩
  split at hMatch
  · rename_i first futurebuffer hGet
    have hBlocks := CertifiedBroadcast.getlowwest_eq_some hGet
    have hFirst : first ∈ chain := by
      apply hClean.held
      rw [hBlocks]
      exact List.mem_cons_self
    have hTaken :
        Follows cfg id chain
          { bcf.clean with futurebuffer := futurebuffer } := by
      refine ⟨hClean.on.withBuffer futurebuffer, ?_⟩
      intro other hOther
      apply hClean.held
      rw [hBlocks]
      exact List.mem_cons_of_mem _ hOther
    exact hTaken.handle hValid hFirst hMatch
  · cases hMatch

/- So does taking all that are ready. -/
theorem Follows.settle
    {fuel : Nat}
    (hFollows : Follows cfg id chain bcf)
    (hValid : ValidChain cfg chain)
    (hSettle : bcf.settle cfg id fuel = some bcf') :
    Follows cfg id chain bcf' ∧ bcf.height ≤ bcf'.height := by
  induction fuel generalizing bcf with
  | zero =>
      cases hSettle
      exact ⟨hFollows, Nat.le_refl _⟩
  | succ fuel ih =>
      unfold BCF.settle at hSettle
      split at hSettle
      · rcases Option.bind_eq_some_iff.mp hSettle with
          ⟨middle, hNext, hRest⟩
        rcases hFollows.next hValid hNext with ⟨hMiddle, hLe⟩
        rcases ih hMiddle hRest with ⟨hEnd, hLe'⟩
        exact ⟨hEnd, hLe.trans hLe'⟩
      · cases hSettle
        exact ⟨hFollows.clean, Nat.le_refl _⟩

/- Whatever block of the chain comes, and when. -/
theorem Follows.arrive
    (hFollows : Follows cfg id chain bcf)
    (hValid : ValidChain cfg chain) (hMem : block ∈ chain)
    (hArrive : bcf.arrive cfg id block = some bcf') :
    Follows cfg id chain bcf' ∧ bcf.height ≤ bcf'.height := by
  unfold BCF.arrive at hArrive
  rcases Option.bind_eq_some_iff.mp hArrive with
    ⟨middle, hReceive, hSettle⟩
  unfold BCF.receive at hReceive
  rcases Option.ite_none_left_eq_some.mp hReceive with
    ⟨_, hReceive⟩
  rw [if_pos (hValid.valid block hMem).leader] at hReceive
  rcases hFollows.clean.handle hValid hMem hReceive with
    ⟨hMiddle, hLe⟩
  rcases hMiddle.settle hValid hSettle with ⟨hEnd, hLe'⟩
  exact ⟨hEnd, hLe.trans hLe'⟩

/-
  A block that is not early is taken, and with nothing in the
  buffer the follower then waits for the next one.
-/
theorem OnChain.arrive_timely
    (hOn : OnChain cfg id chain bcf)
    (hValid : ValidChain cfg chain)
    (hEmpty : bcf.futurebuffer = ⟨-1, []⟩)
    (hMem : block ∈ chain)
    (hTimely : FutureBuffer.height block ≤ bcf.height) :
    ∃ bcf', bcf.arrive cfg id block = some bcf' ∧
      bcf'.futurebuffer = ⟨-1, []⟩ := by
  rcases clean_eq_of_empty hEmpty with ⟨hClean, hReady⟩
  have hReceive :
      ∃ middle, bcf.receive cfg id block = some middle ∧
        middle.futurebuffer = ⟨-1, []⟩ := by
    unfold BCF.receive
    dsimp only
    rw [hClean, hReady, if_neg Bool.false_ne_true,
      if_pos (hValid.valid block hMem).leader,
      hOn.handle hValid hMem]
    by_cases hOld : FutureBuffer.height block < bcf.height
    · rw [if_pos hOld]
      exact ⟨bcf, rfl, hEmpty⟩
    · rw [if_neg hOld, if_pos (by omega)]
      refine ⟨_, rfl, ?_⟩
      rw [BCF.generatepayback_futurebuffer]
      exact hEmpty
  rcases hReceive with ⟨middle, hMiddle, hRest⟩
  rcases clean_eq_of_empty hRest with ⟨hSame, hNot⟩
  refine ⟨middle, ?_, hRest⟩
  unfold BCF.arrive
  rw [hMiddle, Option.bind_some]
  unfold BCF.settle
  rw [hSame, hNot, if_neg Bool.false_ne_true]

end Follows

------------------------------------------------------------
-- The Paybacks of a Follower
------------------------------------------------------------

/- A payback of this party for this height. -/
def isFrom (p : Fin n) (h : Nat) (payback : PayBack) : Bool :=
  payback.round = Int32.ofNat h &&
    payback.sign.id = Int32.ofNat (p.val + 1)

section MsgOut

variable {cfg : Config n} {id : Fin n}
variable {chain : List BCBlock} {bcf bcf' : BCF}

/- An answer tells its party and its height. -/
theorem isFrom_answer
    (cfg : Config n) (p q : Fin n) (block : BCBlock)
    {h i : Nat} (hN : n < 2 ^ 31) (hH : h < 2 ^ 31)
    (hI : i < 2 ^ 31) :
    isFrom p h (BCF.answer cfg q i block) = true ↔
      q = p ∧ i = h := by
  unfold isFrom BCF.answer
  rw [Bool.and_eq_true, decide_eq_true_eq, decide_eq_true_eq]
  constructor
  · rintro ⟨hRound, hId⟩
    refine ⟨Fin.ext ?_, ?_⟩
    · have := q.isLt
      have := p.isLt
      have := int32_ofNat_inj (by omega) (by omega) hId
      omega
    · exact int32_ofNat_inj (by omega) (by omega) hRound
  · rintro ⟨rfl, rfl⟩
    exact ⟨rfl, rfl⟩

/- A follower has answered the blocks it accepted. -/
theorem OnChain.msgOut
    (hOn : OnChain cfg id chain bcf)
    (hRoot : ∀ block ∈ chain, block.rawBC.root ≠ []) :
    bcf.msgOut =
      (chain.take bcf.height).mapIdx (BCF.answer cfg id) := by
  rw [congrArg BCF.msgOut hOn.eq]
  exact BCF.upTo_msgOut hRoot hOn.le

/- It has put out all of them but the last. -/
theorem OnChain.output
    (hOn : OnChain cfg id chain bcf)
    (hRoot : ∀ block ∈ chain, block.rawBC.root ≠ []) :
    bcf.output =
      (chain.take (bcf.height - 1)).map BCF.backBlock := by
  rw [congrArg BCF.output hOn.eq]
  exact (BCF.upTo_output hRoot hOn.le).1

/- A payback sent is the answer to a block accepted. -/
theorem OnChain.mem_msgOut
    (hOn : OnChain cfg id chain bcf)
    (hRoot : ∀ block ∈ chain, block.rawBC.root ≠ [])
    {payback : PayBack} (hMem : payback ∈ bcf.msgOut) :
    ∃ i block, i < bcf.height ∧ chain[i]? = some block ∧
      payback = BCF.answer cfg id i block := by
  rw [hOn.msgOut hRoot, List.mem_mapIdx] at hMem
  rcases hMem with ⟨i, hLt, rfl⟩
  rw [List.length_take] at hLt
  refine ⟨i, (chain.take bcf.height)[i], by omega, ?_, rfl⟩
  rw [List.getElem_take]
  exact List.getElem?_eq_getElem (by omega)

/- A follower answers every height it has been through once. -/
theorem OnChain.countP_msgOut
    (hN : n < 2 ^ 31)
    (hOn : OnChain cfg id chain bcf)
    (hRoot : ∀ block ∈ chain, block.rawBC.root ≠ [])
    (hFits : chain.length < 2 ^ 31)
    (p : Fin n) {h : Nat} (hH : h < 2 ^ 31) :
    bcf.msgOut.countP (isFrom p h) =
      if id = p ∧ h < bcf.height then 1 else 0 := by
  rw [hOn.msgOut hRoot]
  have hLe := hOn.le
  generalize bcf.height = i at hLe ⊢
  induction i with
  | zero => simp
  | succ i ih =>
      have hBlock : chain[i]? = some chain[i] :=
        List.getElem?_eq_getElem hLe
      have hLength : (chain.take i).length = i := by
        rw [List.length_take]
        omega
      rw [List.take_add_one, hBlock, Option.toList_some,
        List.mapIdx_append, List.countP_append,
        ih (Nat.le_of_succ_le hLe), List.mapIdx_cons,
        List.mapIdx_nil, List.countP_singleton, hLength,
        Nat.zero_add]
      have hI : i < 2 ^ 31 := by omega
      have hFrom := isFrom_answer cfg p id chain[i] hN hH hI
      by_cases hSame : id = p ∧ i = h
      · rw [if_pos (hFrom.mpr hSame), if_neg (by omega),
          if_pos ⟨hSame.1, by omega⟩]
      · rw [if_neg (mt hFrom.mp hSame), Nat.add_zero]
        by_cases hOne : id = p
        · have hNe : i ≠ h := fun hEq => hSame ⟨hOne, hEq⟩
          by_cases hLt : h < i
          · rw [if_pos ⟨hOne, hLt⟩, if_pos ⟨hOne, by omega⟩]
          · rw [if_neg (fun hBoth => hLt hBoth.2),
              if_neg (fun hBoth => by omega)]
        · rw [if_neg (fun hBoth => hOne hBoth.1),
            if_neg (fun hBoth => hOne hBoth.1)]

/- What a follower sends when it goes up on its chain. -/
theorem OnChain.msgOut_append
    (hOn : OnChain cfg id chain bcf)
    (hOn' : OnChain cfg id chain bcf')
    (hRoot : ∀ block ∈ chain, block.rawBC.root ≠ [])
    (hLe : bcf.height ≤ bcf'.height) :
    bcf'.msgOut =
      bcf.msgOut ++ bcf'.msgOut.drop bcf.msgOut.length := by
  have hPrefix : bcf.msgOut <+: bcf'.msgOut := by
    rw [hOn.msgOut hRoot, hOn'.msgOut hRoot]
    have hTake :
        (chain.take bcf'.height).take bcf.height =
          chain.take bcf.height := by
      rw [List.take_take, Nat.min_eq_left hLe]
    rcases List.take_prefix bcf.height
        (chain.take bcf'.height) with ⟨more, hMore⟩
    rw [hTake] at hMore
    rw [← hMore, List.mapIdx_append]
    exact List.prefix_append _ _
  rcases hPrefix with ⟨more, hMore⟩
  rw [← hMore, List.drop_left]

end MsgOut

end SimpleHotStuff

end Jumbo
