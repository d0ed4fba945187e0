import Jumbo.Lib.Quorum
import Jumbo.CertifiedBroadcast.Leader

/-
  All certified broadcasts of a system with Byzantine
  parties.

  Every party follows every instance and leads its own ones.
  A Byzantine party sends what it likes to whom it likes; it
  cannot make a signature of a correct party, so every
  signature in a message that arrives is genuine for what
  has been signed so far.

  Main declarations:
    * `Net`
    * `Net.exec` and `network`
    * `Net.Signed`
    * `Net.Ideal`
    * `held_of_exec`
    * `projected`
-/

------------------------------------------------------------
-- Blocks and Signatures of a Follower
------------------------------------------------------------

namespace Jumbo

namespace CertifiedBroadcast

open Protocol
open Struct

variable {n : Nat}

/- A block in the hands of a follower. -/
def BCF.Holds (bcf : BCF) (block : BCBlock) : Prop :=
  block ∈ bcf.futurebuffer.bcblocks ∨
    block ∈ bcf.calling ∨ block ∈ bcf.accepted

/- Every signature sent is for a block accepted. -/
def BCF.Answers (cfg : Config n) (bcf : BCF) : Prop :=
  ∀ payback ∈ bcf.paybacks, ∃ block ∈ bcf.accepted,
    payback.blkID = cfg.hash block.rawBC ∧
      payback.round = block.rawBC.height

section Held

variable {cfg : Config n} {nid : Fin n} {bcf bcf' : BCF}
variable {block other : BCBlock}

/- Cleaning adds no block. -/
theorem holds_clean
    (hHolds : bcf.clean.Holds block) :
    bcf.Holds block :=
  hHolds.imp_left mem_of_mem_clean

/- Accepting a block adds it at most. -/
theorem holds_generatepayback
    (hHolds :
      (bcf.generatepayback cfg nid block).Holds other) :
    bcf.Holds other ∨ other = block := by
  unfold BCF.Holds at hHolds
  rw [BCF.generatepayback_futurebuffer,
    BCF.generatepayback_calling,
    BCF.generatepayback_accepted, List.mem_append,
    List.mem_singleton] at hHolds
  rcases hHolds with h | h | h | h
  · exact .inl (.inl h)
  · exact .inl (.inr (.inl h))
  · exact .inl (.inr (.inr h))
  · exact .inr h

/- Handling a block adds it at most. -/
theorem holds_handle
    {isfuture : Bool}
    (hHandle : bcf.handle cfg nid isfuture block = some bcf')
    (hHolds : bcf'.Holds other) :
    bcf.Holds other ∨ other = block := by
  unfold BCF.handle at hHandle
  split at hHandle
  · cases hHandle
    exact .inl hHolds
  split at hHandle
  · split at hHandle
    · rcases Option.ite_none_right_eq_some.mp hHandle with
        ⟨_, hEq⟩
      cases hEq
      exact holds_generatepayback hHolds
    · unfold BCF.check_bcblock at hHandle
      rcases Option.ite_none_right_eq_some.mp hHandle with
        ⟨_, hEq⟩
      cases hEq
      exact holds_generatepayback hHolds
  · rcases Option.ite_none_right_eq_some.mp hHandle with
      ⟨_, hEq⟩
    split at hEq
    · cases hEq
      rcases hHolds with h | h
      · rcases mem_of_mem_put h with h | h
        · exact .inr h
        · exact .inl (.inl h)
      · exact .inl (.inr h)
    · cases hEq
      rcases hHolds with h | h | h
      · exact .inl (.inl h)
      · rcases List.mem_append.mp h with h | h
        · exact .inl (.inr (.inl h))
        · exact .inr (List.mem_singleton.mp h)
      · exact .inl (.inr (.inr h))

/- A block held is not made up: it was held or received. -/
theorem held_of_exec
    {a : FollowerAction}
    (hExec : bcf.exec cfg nid a = some bcf')
    (hHolds : bcf'.Holds block) :
    bcf.Holds block ∨ a = .receive block := by
  cases a with
  | next =>
      left
      change bcf.next cfg nid = some bcf' at hExec
      unfold BCF.next at hExec
      rcases Option.ite_none_right_eq_some.mp hExec with
        ⟨_, hMatch⟩
      split at hMatch
      · rename_i first futurebuffer hGet
        have hBlocks := getlowwest_eq_some hGet
        apply holds_clean
        rcases holds_handle hMatch hHolds with h | h
        · refine h.imp_left fun hMem => ?_
          rw [hBlocks]
          exact List.mem_cons_of_mem _ hMem
        · left
          rw [hBlocks, h]
          exact List.mem_cons_self
      · cases hMatch
  | receive first =>
      change bcf.receive cfg nid first = some bcf' at hExec
      unfold BCF.receive at hExec
      dsimp only at hExec
      split at hExec
      · cases hExec
      · split at hExec
        · rcases holds_handle hExec hHolds with h | rfl
          · exact .inl (holds_clean h)
          · exact .inr rfl
        · cases hExec
          exact .inl (holds_clean hHolds)
  | called i =>
      left
      change bcf.called i = some bcf' at hExec
      unfold BCF.called at hExec
      split at hExec
      · rename_i first hFirst
        cases hExec
        rcases hHolds with h | h | h
        · rcases mem_of_mem_put h with rfl | h
          · exact .inr (.inl (List.mem_of_getElem? hFirst))
          · exact .inl h
        · exact .inr (.inl (List.mem_of_mem_eraseIdx h))
        · exact .inr (.inr h)
      · cases hExec

/- A block with a root is paid back. -/
theorem generatepayback_paybacks :
    (bcf.generatepayback cfg nid block).paybacks =
      if block.rawBC.root = [] then bcf.paybacks
      else bcf.paybacks ++ [bcf.payback cfg nid block] := by
  unfold BCF.generatepayback
  dsimp only
  split <;> rfl

/- A payback that was sent stays sent. -/
theorem BCF.Step.paybacks_subset
    {handled : Option BCBlock} {payback : PayBack}
    (hStep : BCF.Step cfg nid bcf handled bcf')
    (hMem : payback ∈ bcf.paybacks) :
    payback ∈ bcf'.paybacks := by
  cases hStep with
  | keep => exact hMem
  | accept futurebuffer block hAccept =>
      rw [generatepayback_paybacks]
      split
      · exact hMem
      · exact List.mem_append_left _ hMem

/- A step pays back accepted blocks only. -/
theorem BCF.Step.answers
    {handled : Option BCBlock}
    (hStep : BCF.Step cfg nid bcf handled bcf')
    (hAnswers : bcf.Answers cfg) :
    bcf'.Answers cfg := by
  cases hStep with
  | keep => exact hAnswers
  | accept futurebuffer block hAccept =>
      intro payback hMem
      rw [generatepayback_paybacks] at hMem
      rw [BCF.generatepayback_accepted]
      have hOld :
          payback ∈ bcf.paybacks →
            ∃ other ∈ bcf.accepted ++ [block],
              payback.blkID = cfg.hash other.rawBC ∧
                payback.round = other.rawBC.height := by
        intro hMem
        rcases hAnswers payback hMem with ⟨other, hIn, hSame⟩
        exact ⟨other, List.mem_append_left _ hIn, hSame⟩
      split at hMem
      · exact hOld hMem
      · rcases List.mem_append.mp hMem with hMem | hMem
        · exact hOld hMem
        · cases List.mem_singleton.mp hMem
          exact
            ⟨block,
              List.mem_append_right _
                (List.mem_singleton_self _),
              rfl, hAccept.height.symm⟩

/- In every run the paybacks are for accepted blocks. -/
theorem answers
    (hReach : (follower cfg nid).Reachable bcf) :
    bcf.Answers cfg := by
  refine hReach.invariant (BCF.Answers cfg) ?_ ?_
  · intro payback hMem
    cases hMem
  · intro s a s' hBefore hAnswers hExec
    exact
      (exec_step (buffered hBefore) hExec).1.answers hAnswers

end Held

end CertifiedBroadcast

end Jumbo

------------------------------------------------------------
-- The System
------------------------------------------------------------

namespace Jumbo

namespace CertifiedBroadcast

open Crypto (Bytes)
open Protocol
open Struct

variable {n : Nat}

/- The instance `sid` of a leader. -/
def Config.of
    (cfg : Config n) (lid : Fin n) (sid : Int32) :
    Config n :=
  { cfg with lid := lid, sid := sid }

/- What the correct parties know, instance by instance. -/
structure Net (n : Nat) where
  follower : Fin n → Int32 → Fin n → BCF
  leader : Fin n → Int32 → BCL

/- A step of a follower or of a leader of an instance. -/
inductive NetAction (n : Nat)
| follow
  (lid : Fin n) (sid : Int32) (nid : Fin n)
  (a : FollowerAction)
| lead (lid : Fin n) (sid : Int32) (a : LeaderAction)

namespace Net

/- Nobody has done anything. -/
def new : Net n where
  follower := fun _ _ _ => BCF.new
  leader := fun _ _ => BCL.new

/- What one follower has changed. -/
def setFollower
    (s : Net n) (lid : Fin n) (sid : Int32) (nid : Fin n)
    (bcf : BCF) : Net n :=
  { s with
    follower := fun lid' sid' nid' =>
      if lid' = lid ∧ sid' = sid ∧ nid' = nid then bcf
      else s.follower lid' sid' nid' }

/- What one leader has changed. -/
def setLeader
    (s : Net n) (lid : Fin n) (sid : Int32) (bcl : BCL) :
    Net n :=
  { s with
    leader := fun lid' sid' =>
      if lid' = lid ∧ sid' = sid then bcl
      else s.leader lid' sid' }

/- A step of a correct party; faulty ones are free to send. -/
def exec
    (cfg : Config n) (faulty : Finset (Fin n)) (s : Net n) :
    NetAction n → Option (Net n)
| .follow lid sid nid a =>
    if nid ∈ faulty then none
    else
      ((s.follower lid sid nid).exec (cfg.of lid sid) nid
        a).map (s.setFollower lid sid nid)
| .lead lid sid a =>
    if lid ∈ faulty then none
    else
      ((s.leader lid sid).exec (cfg.of lid sid) a).map
        (s.setLeader lid sid)

/- What a party has signed; Byzantine ones sign anything. -/
def Signed
    (cfg : Config n) (faulty : Finset (Fin n)) (s : Net n)
    (id : Fin n) (msg : Bytes) : Prop :=
  id ∈ faulty ∨
    (∃ lid sid, ∃ payback ∈ (s.follower lid sid id).paybacks,
      msg =
        (cfg.of lid sid).signbyte payback.blkID
          payback.round) ∨
    ∃ sid, ∃ block ∈ (s.leader id sid).sent,
      msg =
        (cfg.of id sid).signbyte (cfg.hash block.rawBC)
          block.rawBC.height

/- No signature in the block is forged. -/
structure Authentic
    (cfg : Config n) (faulty : Finset (Fin n)) (s : Net n)
    (block : BCBlock) : Prop where
  sign :
    ∀ sign, block.sign = some sign →
      Crypto.Genuine cfg.prim (s.Signed cfg faulty)
        sign.content
  batchSigns :
    ∀ batch, block.batchSigns = some batch →
      Crypto.Genuine cfg.prim (s.Signed cfg faulty)
        batch.signs

/- Signatures are ideal. -/
def Ideal
    (cfg : Config n) (faulty : Finset (Fin n)) (s : Net n) :
    NetAction n → Prop
| .follow _ _ _ (.receive block) =>
    s.Authentic cfg faulty block
| _ => True

end Net

/- All instances and parties as a machine. -/
def network
    (cfg : Config n) (faulty : Finset (Fin n)) :
    Machine (Net n) (NetAction n) where
  init := Net.new
  exec := Net.exec cfg faulty

section Network

variable {cfg : Config n} {faulty : Finset (Fin n)}
variable {s s' : Net n} {a : NetAction n}

/- Instance by instance, a step is one of the instance. -/
theorem follower_of_exec
    (hExec : s.exec cfg faulty a = some s')
    (lid : Fin n) (sid : Int32) (nid : Fin n) :
    s'.follower lid sid nid = s.follower lid sid nid ∨
      nid ∉ faulty ∧ ∃ action,
        a = .follow lid sid nid action ∧
          (s.follower lid sid nid).exec (cfg.of lid sid) nid
            action = some (s'.follower lid sid nid) := by
  cases a with
  | follow lid' sid' nid' action =>
      rcases Option.ite_none_left_eq_some.mp hExec with
        ⟨hCorrect, hMap⟩
      rcases Option.map_eq_some_iff.mp hMap with
        ⟨bcf, hStep, rfl⟩
      unfold Net.setFollower
      dsimp only
      split
      · rename_i hSame
        rcases hSame with ⟨rfl, rfl, rfl⟩
        exact .inr ⟨hCorrect, action, rfl, hStep⟩
      · exact .inl rfl
  | lead lid' sid' action =>
      rcases Option.ite_none_left_eq_some.mp hExec with
        ⟨_, hMap⟩
      rcases Option.map_eq_some_iff.mp hMap with
        ⟨bcl, _, rfl⟩
      exact .inl rfl

/- A step leaves a leader alone or is its own. -/
theorem leader_of_exec
    (hExec : s.exec cfg faulty a = some s')
    (lid : Fin n) (sid : Int32) :
    s'.leader lid sid = s.leader lid sid ∨
      ∃ action, a = .lead lid sid action ∧
        (s.leader lid sid).exec (cfg.of lid sid) action =
          some (s'.leader lid sid) := by
  cases a with
  | follow lid' sid' nid' action =>
      rcases Option.ite_none_left_eq_some.mp hExec with
        ⟨_, hMap⟩
      rcases Option.map_eq_some_iff.mp hMap with
        ⟨bcf, _, rfl⟩
      exact .inl rfl
  | lead lid' sid' action =>
      rcases Option.ite_none_left_eq_some.mp hExec with
        ⟨_, hMap⟩
      rcases Option.map_eq_some_iff.mp hMap with
        ⟨bcl, hStep, rfl⟩
      unfold Net.setLeader
      dsimp only
      split
      · rename_i hSame
        rcases hSame with ⟨rfl, rfl⟩
        exact .inr ⟨action, rfl, hStep⟩
      · exact .inl rfl

/- A run of the system is a run of each of its instances. -/
theorem projected_follower
    (hReach : (network cfg faulty).Reachable s)
    (lid : Fin n) (sid : Int32) (nid : Fin n) :
    (follower (cfg.of lid sid) nid).Reachable
      (s.follower lid sid nid) := by
  refine
    Machine.Reachable.map (M := network cfg faulty)
      (fun s : Net n => s.follower lid sid nid) ?_ ?_ hReach
  · exact Machine.ReachableBy.init
  intro s a s' _ hBefore hExec
  rcases follower_of_exec hExec lid sid nid with
    hSame | ⟨_, action, _, hStep⟩
  · rw [hSame]
    exact hBefore
  · exact hBefore.step hStep

/- Every leader runs as if it were alone. -/
theorem projected_leader
    (hReach : (network cfg faulty).Reachable s)
    (lid : Fin n) (sid : Int32) :
    (leader (cfg.of lid sid)).Reachable
      (s.leader lid sid) := by
  refine
    Machine.Reachable.map (M := network cfg faulty)
      (fun s : Net n => s.leader lid sid) ?_ ?_ hReach
  · exact Machine.ReachableBy.init
  intro s a s' _ hBefore hExec
  rcases leader_of_exec hExec lid sid with
    hSame | ⟨action, _, hStep⟩
  · rw [hSame]
    exact hBefore
  · exact hBefore.step hStep

end Network

end CertifiedBroadcast

end Jumbo
