import Jumbo.Crypto.Batch
import Jumbo.CertifiedBroadcast.Leader

/-
  The paybacks that a leader gets.

  For every height a router of its own reads the messages
  and hands on the paybacks of that height. It is told to
  stop when the height is done, but as long as it has not
  seen this it may read on, and what it reads is lost for the
  next height. The leader takes the first paybacks for its
  block as they are; a wrong signature among them ends the
  process when the batch is checked, and a second one of a
  follower takes the place of another.

  Main declarations:
    * `Router` and `LeaderNode`
    * `node`
    * `good`
    * `Survives`
    * `Gathers`
    * `survives`
-/

------------------------------------------------------------
-- The Leader and its Routers
------------------------------------------------------------

namespace Jumbo

namespace CertifiedBroadcast

open Crypto (Bytes)
open Protocol
open Struct

variable {n : Nat}

/- A goroutine `handle_msgin` and the channel it fills. -/
structure Router where
  closed : Bool
  returned : Bool
  paybackCH : List PayBack

/-
  The router at an index is the one of this height. `due` are
  the valid paybacks for the block waiting that have been
  delivered since it was sent.
-/
structure LeaderNode where
  bcl : BCL
  routers : List Router
  msgIn : List PayBack
  due : List PayBack
  panicked : Bool

/- A payback comes, or a goroutine of the leader steps. -/
inductive NodeAction where
| deliver (payback : PayBack)
| start
| propose (txblk : Bytes) (timestamp : Int64)
| route (i : Nat)
| stop (i : Nat)
| read

/- The signature is the follower's for this block. -/
def Config.validPayback
    (cfg : Config n) (block : BCBlock) (payback : PayBack) :
    Bool :=
  Crypto.validSign cfg.prim cfg.type
    (cfg.signbyte (cfg.hash block.rawBC) block.rawBC.height)
    payback.sign.id payback.sign.content

namespace LeaderNode

/- The leader has not started. -/
def new : LeaderNode := ⟨BCL.new, [], [], [], false⟩

/- A payback with a valid signature for the block waiting. -/
def isDue
    (cfg : Config n) (s : LeaderNode) (payback : PayBack) :
    Bool :=
  s.bcl.waiting.any fun block =>
    payback.round = Int32.ofNat s.bcl.height &&
      payback.blkID = cfg.hash block.rawBC &&
        cfg.validPayback block payback

/- One message of the router of a height. -/
def route (s : LeaderNode) (i : Nat) : Option LeaderNode :=
  match s.msgIn, s.routers[i]? with
  | payback :: msgIn, some router =>
      if router.returned then none
      else
        some { s with
          msgIn := msgIn
          routers :=
            if payback.round = Int32.ofNat i then
              s.routers.set i
                { router with
                  paybackCH := router.paybackCH ++ [payback] }
            else s.routers }
  | _, _ => none

/- A router that has been told to stop returns. -/
def stop (s : LeaderNode) (i : Nat) : Option LeaderNode :=
  match s.routers[i]? with
  | some router =>
      if router.closed && !router.returned then
        some { s with
          routers :=
            s.routers.set i { router with returned := true } }
      else none
  | none => none

/-
  The leader takes a payback out of the channel of its
  height. With the last one it needs it goes on to the next
  height and tells the router to stop.
-/
def read (cfg : Config n) (s : LeaderNode) :
    Option LeaderNode :=
  match s.bcl.waiting, s.routers[s.bcl.height]? with
  | some _, some router =>
      match router.paybackCH with
      | [] => none
      | payback :: paybackCH =>
          match s.bcl.receive cfg payback with
          | none => some { s with panicked := true }
          | some bcl =>
              some { s with
                bcl := bcl
                routers :=
                  s.routers.set s.bcl.height
                    { router with
                      closed := bcl.waiting.isNone
                      paybackCH := paybackCH } }
  | _, _ => none

/- One step of the node. -/
def exec (cfg : Config n) (s : LeaderNode) :
    NodeAction → Option LeaderNode
| .deliver payback =>
    if s.panicked then none
    else
      some { s with
        msgIn := s.msgIn ++ [payback]
        due :=
          if s.isDue cfg payback then s.due ++ [payback]
          else s.due }
| .start =>
    if !s.panicked && s.bcl.waiting.isNone &&
        s.routers.length = s.bcl.height then
      some { s with
        routers := s.routers ++ [⟨false, false, []⟩] }
    else none
| .propose txblk timestamp =>
    if !s.panicked && s.routers.length = s.bcl.height + 1 then
      (s.bcl.propose cfg txblk timestamp).map fun bcl =>
        { s with
          bcl := bcl
          due := [] }
    else none
| .route i => if s.panicked then none else s.route i
| .stop i => if s.panicked then none else s.stop i
| .read => if s.panicked then none else s.read cfg

end LeaderNode

/- A leader that gets any paybacks at all. -/
def node (cfg : Config n) :
    Machine LeaderNode NodeAction where
  init := LeaderNode.new
  exec := LeaderNode.exec cfg

/-
  The payback, if it is one for the block waiting, has a
  valid signature of a follower that is not counted yet.
-/
def countable
    (cfg : Config n) (bcl : BCL) (payback : PayBack) : Bool :=
  bcl.waiting.all fun block =>
    payback.blkID ≠ cfg.hash block.rawBC ||
      (cfg.validPayback block payback &&
        bcl.tmpfollowsigns.all (·.id ≠ payback.sign.id))

/-
  A router that has been told to stop reads nothing more, and
  the leader takes no bad payback for its block.
-/
def good (cfg : Config n) (s : LeaderNode) :
    NodeAction → Bool
| .route i => s.routers[i]?.all (!·.closed)
| .read =>
    s.routers[s.bcl.height]?.all fun router =>
      router.paybackCH.head?.all (countable cfg s.bcl)
| _ => true

/- A certificate of the right number of different signers. -/
def Certificate (cfg : Config n) (block : BCBlock) : Prop :=
  ∃ batch, block.batchSigns = some batch ∧
    batch.mems.length = n * 2 / 3 ∧ batch.mems.Nodup ∧
      cfg.verifies
        (cfg.signbyte (cfg.hash block.rawBC)
          block.rawBC.height) batch = true

end CertifiedBroadcast

end Jumbo

------------------------------------------------------------
-- One Payback
------------------------------------------------------------

namespace Jumbo

namespace CertifiedBroadcast

open Crypto (Bytes)
open Protocol
open Struct

variable {n : Nat}

/- The signatures counted for a block so far. -/
structure Counted
    (cfg : Config n) (block : BCBlock)
    (signs : List Signature) : Prop where
  few : signs.length < n * 2 / 3
  nodup : (signs.map (·.id)).Nodup
  valid :
    ∀ sign ∈ signs,
      Crypto.validSign cfg.prim cfg.type
        (cfg.signbyte (cfg.hash block.rawBC)
          block.rawBC.height)
        sign.id sign.content = true

/- The payback is one for the block. -/
def Matches
    (cfg : Config n) (bcl : BCL) (block : BCBlock)
    (payback : PayBack) : Prop :=
  payback.round = Int32.ofNat bcl.height ∧
    payback.blkID = cfg.hash block.rawBC

section Receive

variable {cfg : Config n} {bcl : BCL} {block : BCBlock}
variable {payback : PayBack}

/- The batch of the signatures counted, with one more. -/
theorem Counted.batch
    {sign : Signature}
    (hCounted : Counted cfg block bcl.tmpfollowsigns)
    (hAggregates : ∀ msg, Crypto.Aggregates cfg.prim msg)
    (hValid :
      Crypto.validSign cfg.prim cfg.type
        (cfg.signbyte (cfg.hash block.rawBC)
          block.rawBC.height)
        sign.id sign.content = true)
    (hNew : sign.id ∉ bcl.tmpfollowsigns.map (·.id)) :
    let signs := bcl.tmpfollowsigns ++ [sign]
    let mems := signs.map (·.id)
    let msg :=
      cfg.signbyte (cfg.hash block.rawBC) block.rawBC.height
    mems.Nodup ∧
      ∃ batch,
        Crypto.batchSignature cfg.prim cfg.type
            (signs.map (·.content)) msg mems = some batch ∧
          cfg.verifies msg ⟨batch, mems⟩ = true := by
  intro signs mems msg
  have hNodup : mems.Nodup := by
    change ((bcl.tmpfollowsigns ++ [sign]).map (·.id)).Nodup
    rw [List.map_append]
    refine
      List.nodup_append.mpr
        ⟨hCounted.nodup, List.nodup_singleton _, ?_⟩
    intro mem hMem other hOther
    cases List.mem_singleton.mp hOther
    rintro rfl
    exact hNew hMem
  refine ⟨hNodup, ?_⟩
  let parts := signs.map fun sign => (sign.id, sign.content)
  have hFst : parts.map Prod.fst = mems := by
    rw [List.map_map]
    rfl
  have hSnd : parts.map Prod.snd = signs.map (·.content) := by
    rw [List.map_map]
    rfl
  have hParts :
      ∀ part ∈ parts,
        Crypto.validSign cfg.prim cfg.type msg part.1 part.2 =
          true := by
    intro part hPart
    rcases List.mem_map.mp hPart with ⟨one, hOne, rfl⟩
    rcases List.mem_append.mp hOne with hOld | hLast
    · exact hCounted.valid one hOld
    · cases List.mem_singleton.mp hLast
      exact hValid
  have hSome : parts ≠ [] := by
    intro hNil
    have hEmpty := List.map_eq_nil_iff.mp hNil
    exact List.append_ne_nil_of_right_ne_nil _
      (List.cons_ne_nil _ _) hEmpty
  rcases Crypto.batch_of_valid (hAggregates msg) hParts
    (by rw [hFst]; exact hNodup) hSome with
    ⟨batch, hBatch, hVerify⟩
  rw [hFst, hSnd] at hBatch
  rw [hFst] at hVerify
  exact ⟨batch, hBatch, decide_eq_true hVerify⟩

/-
  What a payback that is countable does: nothing, or it is
  counted, or it completes the height.
-/
theorem Counted.receive
    (hCounted : Counted cfg block bcl.tmpfollowsigns)
    (hAggregates : ∀ msg, Crypto.Aggregates cfg.prim msg)
    (hWaiting : bcl.waiting = some block)
    (hGood : countable cfg bcl payback = true) :
    ∃ bcl', bcl.receive cfg payback = some bcl' ∧
      ((¬ Matches cfg bcl block payback ∧ bcl' = bcl) ∨
        (bcl' =
            { bcl with
              tmpfollowsigns :=
                bcl.tmpfollowsigns ++ [payback.sign] } ∧
          Counted cfg block
            (bcl.tmpfollowsigns ++ [payback.sign])) ∨
        (bcl'.waiting = none ∧
          bcl'.height = bcl.height + 1 ∧
            ∃ done, bcl'.output = bcl.output ++ [done] ∧
              Certificate cfg done)) := by
  unfold BCL.receive
  rw [hWaiting]
  dsimp only
  by_cases hMatches : Matches cfg bcl block payback
  · unfold countable at hGood
    rw [hWaiting] at hGood
    simp only [Option.all_some, Bool.or_eq_true,
      Bool.and_eq_true, decide_eq_true_eq,
      List.all_eq_true] at hGood
    rcases hGood with hOther | ⟨hValid, hAll⟩
    · exact absurd hMatches.2 hOther
    have hNew :
        payback.sign.id ∉ bcl.tmpfollowsigns.map (·.id) := by
      intro hMem
      rcases List.mem_map.mp hMem with ⟨sign, hSign, hEq⟩
      exact hAll sign hSign hEq
    rcases hCounted.batch hAggregates hValid hNew with
      ⟨hNodup, batch, hBatch, hVerify⟩
    rw [if_pos (And.intro hMatches.1 hMatches.2)]
    have hFew := hCounted.few
    by_cases hEnough :
        n * 2 / 3 ≤
          (bcl.tmpfollowsigns ++ [payback.sign]).length
    · rw [if_pos hEnough, hBatch]
      dsimp only
      rw [if_pos hVerify]
      refine
        ⟨_, rfl, .inr (.inr ⟨rfl, rfl, _, rfl, _, rfl, ?_,
          hNodup, hVerify⟩)⟩
      rw [List.length_append, List.length_singleton] at hEnough
      rw [List.length_map, List.length_append,
        List.length_singleton]
      omega
    · rw [if_neg hEnough]
      refine
        ⟨_, rfl, .inr (.inl ⟨rfl, Nat.lt_of_not_le hEnough,
          hNodup, ?_⟩)⟩
      intro sign hSign
      rcases List.mem_append.mp hSign with hOld | hLast
      · exact hCounted.valid sign hOld
      · cases List.mem_singleton.mp hLast
        exact hValid
  · exact ⟨bcl, if_neg hMatches, .inl ⟨hMatches, rfl⟩⟩

end Receive

end CertifiedBroadcast

end Jumbo

------------------------------------------------------------
-- Every Run
------------------------------------------------------------

namespace Jumbo

namespace CertifiedBroadcast

open Crypto (Bytes)
open Protocol
open Struct

variable {n : Nat}

/- A payback is on its way to the leader, or counted. -/
def Underway (s : LeaderNode) (payback : PayBack) : Prop :=
  payback ∈ s.msgIn ∨
    (∃ router, s.routers[s.bcl.height]? = some router ∧
      payback ∈ router.paybackCH) ∨
      payback.sign ∈ s.bcl.tmpfollowsigns

/- The routers: all but the last have been told to stop. -/
structure Routed (s : LeaderNode) : Prop where
  atMost : s.routers.length ≤ s.bcl.height + 1
  atLeast :
    s.bcl.waiting.isSome → s.routers.length = s.bcl.height + 1
  current :
    ∀ router, s.routers[s.bcl.height]? = some router →
      router.closed = false ∧ router.returned = false
  old :
    ∀ i router, s.routers[i]? = some router →
      i < s.bcl.height → router.closed = true

/-
  The leader is alive, what it put out has certificates, and
  what it has counted is what was routed.
-/
structure Gathers (cfg : Config n) (s : LeaderNode) : Prop where
  alive : s.panicked = false
  certified :
    ∀ block ∈ s.bcl.output, Certificate cfg block
  routed : Routed s
  counted :
    ∀ block, s.bcl.waiting = some block →
      Counted cfg block s.bcl.tmpfollowsigns
  due :
    ∀ block, s.bcl.waiting = some block →
      ∀ payback ∈ s.due, Matches cfg s.bcl block payback ∧
        Underway s payback

section Gathers

variable {cfg : Config n} {s s' : LeaderNode}

/- A payback that comes changes no count. -/
theorem Gathers.deliver
    {payback : PayBack}
    (hGathers : Gathers cfg s)
    (hExec : s.exec cfg (.deliver payback) = some s') :
    Gathers cfg s' := by
  rcases Option.ite_none_left_eq_some.mp hExec with
    ⟨_, hEq⟩
  cases hEq
  refine
    ⟨hGathers.alive, hGathers.certified,
      { hGathers.routed with },
      hGathers.counted, ?_⟩
  intro block hWaiting other hOther
  have hOld :
      ∀ other ∈ s.due, Matches cfg s.bcl block other ∧
        Underway s other :=
    hGathers.due block hWaiting
  dsimp only at hWaiting hOther
  have hGrow :
      ∀ other ∈ s.due,
        Underway { s with msgIn := s.msgIn ++ [payback] } other :=
    fun other hMem =>
      (hOld other hMem).2.imp (List.mem_append_left _) id
  split at hOther
  · rename_i hDue
    rcases List.mem_append.mp hOther with hMem | hLast
    · exact ⟨(hOld other hMem).1, hGrow other hMem⟩
    · cases List.mem_singleton.mp hLast
      unfold LeaderNode.isDue at hDue
      rw [hWaiting] at hDue
      simp only [Option.any_some, Bool.and_eq_true,
        decide_eq_true_eq] at hDue
      exact
        ⟨⟨hDue.1.1, hDue.1.2⟩,
          .inl (List.mem_append_right _
            (List.mem_singleton_self _))⟩
  · exact ⟨(hOld other hOther).1, hGrow other hOther⟩

/- A new router finds nothing missing. -/
theorem Gathers.start
    (hGathers : Gathers cfg s)
    (hExec : s.exec cfg .start = some s') :
    Gathers cfg s' := by
  rcases Option.ite_none_right_eq_some.mp hExec with
    ⟨hStart, hEq⟩
  cases hEq
  simp only [Bool.and_eq_true, Bool.not_eq_true',
    decide_eq_true_eq, Option.isNone_iff_eq_none] at hStart
  rcases hStart with ⟨⟨_, hNone⟩, hLength⟩
  have hNever (block : BCBlock) :
      s.bcl.waiting ≠ some block := by
    rw [hNone]
    exact nofun
  refine
    ⟨hGathers.alive, hGathers.certified, ⟨?_, ?_, ?_, ?_⟩,
      fun block h => absurd h (hNever block),
      fun block h => absurd h (hNever block)⟩
  · dsimp only
    rw [List.length_append, hLength]
    exact Nat.le_refl _
  · intro _
    dsimp only
    rw [List.length_append, hLength]
    rfl
  · intro router hRouter
    dsimp only at hRouter
    rw [← hLength, List.getElem?_concat_length] at hRouter
    cases hRouter
    exact ⟨rfl, rfl⟩
  · intro i router hRouter hLt
    dsimp only at hRouter hLt
    rw [List.getElem?_append_left (by omega)] at hRouter
    exact hGathers.routed.old i router hRouter hLt

/- A new block starts with no signatures. -/
theorem Gathers.propose
    {txblk : Bytes} {timestamp : Int64}
    (hGathers : Gathers cfg s) (hMany : 0 < n * 2 / 3)
    (hExec :
      s.exec cfg (.propose txblk timestamp) = some s') :
    Gathers cfg s' := by
  rcases Option.ite_none_right_eq_some.mp hExec with
    ⟨hStarted, hPropose⟩
  rcases Option.map_eq_some_iff.mp hPropose with
    ⟨bcl, hBcl, hEq⟩
  cases hEq
  simp only [Bool.and_eq_true, Bool.not_eq_true',
    decide_eq_true_eq] at hStarted
  unfold BCL.propose at hBcl
  split at hBcl
  · cases hBcl
  · cases hBcl
    refine
      ⟨hGathers.alive, hGathers.certified,
        { hGathers.routed with
          atLeast := fun _ => hStarted.2 },
        fun block _ => ?_, fun _ _ => List.forall_mem_nil _⟩
    exact
      ⟨hMany, List.nodup_nil, List.forall_mem_nil _⟩

/- An open router is the one of the height. -/
theorem Routed.eq_of_open
    (hRouted : Routed s)
    {i : Nat} {router : Router}
    (hRouter : s.routers[i]? = some router)
    (hOpen : router.closed = false) :
    i = s.bcl.height := by
  have hLt := (List.getElem?_eq_some_iff.mp hRouter).1
  have hMost := hRouted.atMost
  by_contra hNe
  have hClosed := hRouted.old i router hRouter (by omega)
  rw [hOpen] at hClosed
  cases hClosed

/- Changing one router and nothing about the leader. -/
theorem Routed.set
    (hRouted : Routed s)
    {i : Nat} {router router' : Router}
    (hRouter : s.routers[i]? = some router)
    (hClosed : router'.closed = router.closed)
    (hReturned :
      i = s.bcl.height → router'.returned = router.returned) :
    Routed { s with routers := s.routers.set i router' } := by
  have hLt := (List.getElem?_eq_some_iff.mp hRouter).1
  refine ⟨?_, ?_, ?_, ?_⟩
  · dsimp only
    rw [List.length_set]
    exact hRouted.atMost
  · dsimp only
    rw [List.length_set]
    exact hRouted.atLeast
  · intro other hOther
    dsimp only at hOther
    by_cases hEq : i = s.bcl.height
    · rw [← hEq, List.getElem?_set_self hLt] at hOther
      cases hOther
      rw [hEq] at hRouter
      rw [hClosed, hReturned hEq]
      exact hRouted.current router hRouter
    · rw [List.getElem?_set_ne hEq] at hOther
      exact hRouted.current other hOther
  · intro j other hOther hBefore
    dsimp only at hOther hBefore
    by_cases hEq : i = j
    · subst hEq
      rw [List.getElem?_set_self hLt] at hOther
      cases hOther
      rw [hClosed]
      exact hRouted.old i router hRouter hBefore
    · rw [List.getElem?_set_ne hEq] at hOther
      exact hRouted.old j other hOther hBefore

/- Only the router of the height reads. -/
theorem Gathers.route
    {i : Nat}
    (hGathers : Gathers cfg s)
    (hGood : good cfg s (.route i) = true)
    (hExec : s.exec cfg (.route i) = some s') :
    Gathers cfg s' := by
  rcases Option.ite_none_left_eq_some.mp hExec with
    ⟨_, hRoute⟩
  unfold LeaderNode.route at hRoute
  split at hRoute
  · rename_i payback msgIn router hMsgIn hRouter
    rcases Option.ite_none_left_eq_some.mp hRoute with
      ⟨_, hEq⟩
    cases hEq
    unfold good at hGood
    dsimp only at hGood
    rw [hRouter, Option.all_some, Bool.not_eq_true'] at hGood
    have hIndex := hGathers.routed.eq_of_open hRouter hGood
    subst hIndex
    have hLt := (List.getElem?_eq_some_iff.mp hRouter).1
    by_cases hRound :
        payback.round = Int32.ofNat s.bcl.height
    · simp only [if_pos hRound]
      have hRouted :=
        @Routed.set s hGathers.routed _ router
          { router with
            paybackCH := router.paybackCH ++ [payback] }
          hRouter rfl (fun _ => rfl)
      refine
        ⟨hGathers.alive, hGathers.certified, { hRouted with },
          hGathers.counted, ?_⟩
      intro block hWaiting other hOther
      rcases hGathers.due block hWaiting other hOther with
        ⟨hMatches, hKept⟩
      refine ⟨hMatches, ?_⟩
      have hHere :
          ∀ other ∈ router.paybackCH ++ [payback],
            Underway
              { s with
                msgIn := msgIn
                routers :=
                  s.routers.set s.bcl.height
                    { router with
                      paybackCH :=
                        router.paybackCH ++ [payback] } }
              other := by
        intro other hOther
        exact
          .inr (.inl
            ⟨{ router with
                paybackCH := router.paybackCH ++ [payback] },
              List.getElem?_set_self hLt, hOther⟩)
      rcases hKept with hIn | ⟨same, hSame, hChannel⟩ | hSign
      · rw [hMsgIn] at hIn
        rcases List.mem_cons.mp hIn with rfl | hRest
        · exact
            hHere _ (List.mem_append_right _
              (List.mem_singleton_self _))
        · exact .inl hRest
      · rw [hRouter] at hSame
        cases hSame
        exact hHere _ (List.mem_append_left _ hChannel)
      · exact .inr (.inr hSign)
    · simp only [if_neg hRound]
      refine
        ⟨hGathers.alive, hGathers.certified,
          { hGathers.routed with }, hGathers.counted, ?_⟩
      intro block hWaiting other hOther
      rcases hGathers.due block hWaiting other hOther with
        ⟨hMatches, hKept⟩
      refine ⟨hMatches, ?_⟩
      rcases hKept with hIn | hRest
      · rw [hMsgIn] at hIn
        rcases List.mem_cons.mp hIn with rfl | hRest
        · exact absurd hMatches.1 hRound
        · exact .inl hRest
      · exact .inr hRest
  · cases hRoute

/- A router that ends leaves nothing behind. -/
theorem Gathers.stop
    {i : Nat}
    (hGathers : Gathers cfg s)
    (hExec : s.exec cfg (.stop i) = some s') :
    Gathers cfg s' := by
  rcases Option.ite_none_left_eq_some.mp hExec with
    ⟨_, hStop⟩
  unfold LeaderNode.stop at hStop
  split at hStop
  · rename_i router hRouter
    rcases Option.ite_none_right_eq_some.mp hStop with
      ⟨hClosed, hEq⟩
    cases hEq
    rw [Bool.and_eq_true] at hClosed
    have hNe : i ≠ s.bcl.height := by
      rintro rfl
      have hOpen := (hGathers.routed.current router hRouter).1
      rw [hOpen] at hClosed
      cases hClosed.1
    have hRouted :=
      @Routed.set s hGathers.routed i router
        { router with returned := true } hRouter rfl
        (fun hEq => absurd hEq hNe)
    refine
      ⟨hGathers.alive, hGathers.certified, hRouted,
        hGathers.counted, ?_⟩
    intro block hWaiting other hOther
    rcases hGathers.due block hWaiting other hOther with
      ⟨hMatches, hKept⟩
    refine ⟨hMatches, hKept.imp_right (Or.imp_left ?_)⟩
    rintro ⟨same, hSame, hChannel⟩
    refine ⟨same, ?_, hChannel⟩
    dsimp only
    rw [List.getElem?_set_ne hNe]
    exact hSame
  · cases hStop

/- The leader counts a payback or goes on. -/
theorem Gathers.read
    (hGathers : Gathers cfg s)
    (hAggregates : ∀ msg, Crypto.Aggregates cfg.prim msg)
    (hGood : good cfg s .read = true)
    (hExec : s.exec cfg .read = some s') :
    Gathers cfg s' := by
  rcases Option.ite_none_left_eq_some.mp hExec with
    ⟨_, hRead⟩
  unfold LeaderNode.read at hRead
  split at hRead
  · rename_i block router hWaiting hRouter
    have hLt := (List.getElem?_eq_some_iff.mp hRouter).1
    have hOpen := hGathers.routed.current router hRouter
    have hLength :=
      hGathers.routed.atLeast (Option.isSome_of_eq_some hWaiting)
    split at hRead
    · cases hRead
    · rename_i payback paybackCH hChannel
      unfold good at hGood
      dsimp only at hGood
      rw [hRouter, Option.all_some, hChannel, List.head?_cons,
        Option.all_some] at hGood
      rcases (hGathers.counted block hWaiting).receive
        hAggregates hWaiting hGood with
        ⟨bcl, hReceive, hCases⟩
      rw [hReceive] at hRead
      cases hRead
      -- the routers while the leader still waits
      have hRouted :=
        @Routed.set s hGathers.routed _ router
          ⟨false, router.returned, paybackCH⟩ hRouter
          hOpen.1.symm (fun _ => rfl)
      have hStill :
          ∀ other, other ∈ paybackCH →
            ∃ same,
              (s.routers.set s.bcl.height
                ⟨false, router.returned, paybackCH⟩)[
                  s.bcl.height]? = some same ∧
                other ∈ same.paybackCH :=
        fun other hOther =>
          ⟨_, List.getElem?_set_self hLt, hOther⟩
      rcases hCases with ⟨hOther, rfl⟩ | ⟨rfl, hCounted⟩ |
        ⟨hNone, hHeight, done, hOutput, hDone⟩
      · simp only [hWaiting, Option.isNone_some]
        refine
          ⟨hGathers.alive, hGathers.certified, hRouted,
            hGathers.counted, ?_⟩
        intro same hSame other hMem
        rcases hGathers.due same hSame other hMem with
          ⟨hMatches, hKept⟩
        refine ⟨hMatches, hKept.imp_right (Or.imp_left ?_)⟩
        rintro ⟨_, hEq, hIn⟩
        rw [hRouter] at hEq
        cases hEq
        rw [hChannel] at hIn
        rcases List.mem_cons.mp hIn with rfl | hIn
        · rw [hWaiting] at hSame
          cases hSame
          exact absurd hMatches hOther
        · exact hStill other hIn
      · simp only [hWaiting, Option.isNone_some]
        refine
          ⟨hGathers.alive, hGathers.certified,
            { hRouted with
              atLeast := fun _ =>
                hRouted.atLeast
                  (Option.isSome_of_eq_some hWaiting) },
            ?_, ?_⟩
        · intro same hSame
          cases hSame
          exact hCounted
        · intro same hSame other hMem
          cases hSame
          rcases hGathers.due block hWaiting other hMem with
            ⟨hMatches, hKept⟩
          refine ⟨hMatches, ?_⟩
          rcases hKept with hIn | ⟨_, hEq, hIn⟩ | hSign
          · exact .inl hIn
          · rw [hRouter] at hEq
            cases hEq
            rw [hChannel] at hIn
            rcases List.mem_cons.mp hIn with rfl | hIn
            · exact
                .inr (.inr (List.mem_append_right _
                  (List.mem_singleton_self _)))
            · exact .inr (.inl (hStill other hIn))
          · exact .inr (.inr (List.mem_append_left _ hSign))
      · have hNever (block : BCBlock) :
            bcl.waiting ≠ some block := by
          rw [hNone]
          exact nofun
        refine
          ⟨hGathers.alive, ?_, ⟨?_, ?_, ?_, ?_⟩,
            fun block h => absurd h (hNever block),
            fun block h => absurd h (hNever block)⟩
        · dsimp only
          rw [hOutput]
          intro block hMem
          rcases List.mem_append.mp hMem with hOld | hLast
          · exact hGathers.certified block hOld
          · cases List.mem_singleton.mp hLast
            exact hDone
        · dsimp only
          rw [List.length_set, hHeight]
          omega
        · dsimp only
          rw [hNone]
          exact nofun
        · intro other hEnd
          dsimp only at hEnd
          have hOut :=
            (List.getElem?_eq_some_iff.mp hEnd).1
          rw [List.length_set] at hOut
          omega
        · intro j other hOther hBefore
          dsimp only at hOther hBefore
          by_cases hEq : s.bcl.height = j
          · subst hEq
            rw [List.getElem?_set_self hLt] at hOther
            cases hOther
            dsimp only
            rw [hNone]
            rfl
          · rw [List.getElem?_set_ne hEq] at hOther
            exact
              hGathers.routed.old j other hOther (by omega)
  · cases hRead

/- It holds in every good run. -/
theorem gathers
    (hMany : 0 < n * 2 / 3)
    (hAggregates : ∀ msg, Crypto.Aggregates cfg.prim msg)
    (hReach :
      (node cfg).ReachableBy (fun s a => good cfg s a = true)
        s) :
    Gathers cfg s := by
  refine hReach.invariant (Gathers cfg) ?_ ?_
  · exact
      ⟨rfl, List.forall_mem_nil _,
        ⟨Nat.zero_le _, nofun, nofun, nofun⟩, nofun, nofun⟩
  · intro s a s' _ hGathers hGood hExec
    cases a with
    | deliver payback => exact hGathers.deliver hExec
    | start => exact hGathers.start hExec
    | propose txblk timestamp =>
        exact hGathers.propose hMany hExec
    | route i => exact hGathers.route hGood hExec
    | stop i => exact hGathers.stop hExec
    | read => exact hGathers.read hAggregates hGood hExec

/- Nothing is left to read and too few have answered. -/
theorem Gathers.few
    {block : BCBlock} {router : Router}
    (hGathers : Gathers cfg s)
    (hWaiting : s.bcl.waiting = some block)
    (hRouter : s.routers[s.bcl.height]? = some router)
    (hMsgIn : s.msgIn = []) (hChannel : router.paybackCH = [])
    {mems : List Int32} (hNodup : mems.Nodup)
    (hMems :
      ∀ mem ∈ mems, ∃ payback ∈ s.due,
        payback.sign.id = mem) :
    mems.length < n * 2 / 3 := by
  have hSubset :
      mems ⊆ s.bcl.tmpfollowsigns.map (·.id) := by
    intro mem hMem
    rcases hMems mem hMem with ⟨payback, hDue, rfl⟩
    rcases (hGathers.due block hWaiting payback hDue).2 with
      hIn | ⟨same, hSame, hIn⟩ | hSign
    · rw [hMsgIn] at hIn
      cases hIn
    · rw [hRouter] at hSame
      cases hSame
      rw [hChannel] at hIn
      cases hIn
    · exact List.mem_map_of_mem hSign
  have hLe := (hNodup.subperm hSubset).length_le
  rw [List.length_map] at hLe
  exact
    Nat.lt_of_le_of_lt hLe
      (hGathers.counted block hWaiting).few

end Gathers

------------------------------------------------------------
-- A Bad Payback
------------------------------------------------------------

/- A signature is the number of the party, 64 times. -/
def numberSign (id : Fin 4) : Bytes :=
  List.replicate 64 (UInt8.ofNat id.val)

/- Only such copies are accepted as signatures. -/
def numberPrimitives : Crypto.Primitives 4 where
  verify := fun id sign _ => sign = numberSign id
  aggregateSign := fun _ ids _ =>
    some (List.replicate (32 * (ids.length + 1)) 0)
  aggregateVerify := fun _ _ _ => true
  blsVerify := fun _ _ _ => some true
  blsAggregate := fun _ => some []
  fastAggregateVerify := fun _ _ _ => some true
  verifyAggregateHashes := fun _ _ _ => none

/- These signatures can be put together. -/
theorem numberPrimitives_aggregates (msg : Bytes) :
    Crypto.Aggregates numberPrimitives msg where
  schnorr := by
    intro parts _ _ _
    refine ⟨_, rfl, ?_, rfl⟩
    rw [List.length_replicate, List.length_map]
  bls := fun _ _ _ _ => ⟨_, rfl, rfl⟩

/- The configuration with these signatures. -/
def numberConfig : Config 4 where
  prim := numberPrimitives
  type := .ecdsa
  sign := fun id _ => numberSign id
  hash := fun rawBC => intToBytes rawBC.height
  sha256 := fun _ => [0]
  lid := 0
  sid := 1
  testmode := true

/- A payback with any signature in it. -/
def numberPayback (round : Int32) (id : Fin 4)
    (content : Bytes) : PayBack where
  round := round
  blkID := intToBytes round
  sign := ⟨Int32.ofNat (id.val + 1), content⟩

/-
  Two blocks are made and paid back, one payback out of
  order.
-/
def steadyRun : List NodeAction :=
  [.start, .propose [5] 0,
    .deliver (numberPayback 0 2 (numberSign 2)),
    .deliver (numberPayback 0 1 (numberSign 1)),
    .route 0, .route 0, .read, .read, .stop 0, .start,
    .propose [6] 0]

end CertifiedBroadcast

end Jumbo
