import Jumbo.Lib.LeaderLoops
import Jumbo.Lib.Quorum
import Jumbo.SpeedingMVBA.Network

/-
  What the messages of a round say about one another.

  Everything a loop is decided by is in the log of messages:
  the inputs, who has released a share for the leader of the
  coin, who has told that it holds no combined signature, and
  the votes. A party takes one stance in a loop, and casts
  one vote. The log is an instance of loops with a leader.

  Main declarations:
    * `Input` and `Quorum`
    * `SentOk`
    * `Slot` and `Clash`
    * `LogOk`
    * `LogOk.sound`
-/

------------------------------------------------------------
-- Messages
------------------------------------------------------------

namespace Jumbo

namespace SpeedingMVBA

namespace Agreement

open Crypto (Bytes)
open Protocol
open Struct

variable {n : Nat}

/- The messages with where they are at each party. -/
abbrev Log (n : Nat) :=
  BroadcastLog n (Packet n) Loc

/- A message of a type in a loop. -/
def isKind (type : MsgType) (l : Nat) (packet : Packet n) :
    Bool :=
  decide (packet.msg.rawMsg.type = type) &&
    decide (packet.msg.rawMsg.loop = l)

/- The message names this party. -/
def names (c : Fin n) (packet : Packet n) : Bool :=
  decide (packet.msg.rawMsg.id = c.val + 1)

/- A share of the certificate pi of a party. -/
def isShare (c : Fin n) (l : Nat) (packet : Packet n) :
    Bool :=
  isKind .pbc4 l packet && names c packet

/-
  A party that collects shares counts its own without sending
  it, and has sent its combined signature before.
-/
def isRelease (c : Fin n) (l : Nat) (packet : Packet n) :
    Bool :=
  isShare c l packet ||
    (isKind .pbc3 l packet && names c packet)

/- A party has started a loop with these values. -/
def Input
    (log : Log n) (l : Nat) (c : Fin n) (values : Bytes) :
    Prop :=
  ∃ packet ∈ log.sent,
    isKind .pbc1 l packet = true ∧ packet.src = c ∧
      packet.msg.rawMsg.values = values

/- More than two thirds of the parties have sent such. -/
def Quorum (log : Log n) (P : Packet n → Bool) : Prop :=
  maxCount n < (log.senders Packet.src P).card

/- A batch of enough signatures. -/
def Many (n : Nat) (batch : BatchSignature) : Prop :=
  maxCount n < batch.mems.length

section Sent

variable (cfg : Config n) (log : Log n)

/-
  A loop is settled for the coin by a quorum of releases or
  of votes.
-/
def Settled (l : Nat) : Prop :=
  Quorum log (isRelease (cfg.coin l) l) ∨
    Quorum log (isKind .voteYes l)

/- Where the input of a later loop comes from. -/
def Carried (id : Fin n) (values : Bytes) : Nat → Prop
| 0 => True
| l + 1 =>
    Input log l (cfg.coin l) values ∨
      (Input log l id values ∧
        Quorum log (isKind .voteNo l))

/- A message of the values that may be output. -/
def HaltOk (msg : Msg) : Prop :=
  Input log msg.rawMsg.loop (cfg.coin msg.rawMsg.loop)
      msg.rawMsg.values ∧
    Settled cfg log msg.rawMsg.loop

/- What a message says about those sent before it. -/
def SentOk (packet : Packet n) : Prop :=
  let msg := packet.msg
  let l := msg.rawMsg.loop
  match msg.rawMsg.type with
  | .pbc1 =>
      names packet.src packet = true ∧
        Carried cfg log packet.src msg.rawMsg.values l
  | .pbc3 =>
      names packet.src packet = true ∧
        ∀ batch ∈ msg.ss, Many n batch
  | .pbc4 =>
      names packet.src packet = false ∧
        ∀ q, packet.dest q = true → names q packet = true
  | .pi =>
      names packet.src packet = true ∧
        Input log l packet.src msg.rawMsg.values ∧
          Quorum log (isRelease packet.src l)
  | .prevYes | .voteYes =>
      Input log l (cfg.coin l) msg.rawMsg.values ∧
        ∀ batch ∈ msg.ss, Many n batch
  | .voteNo => Quorum log (isKind .prevNo l)
  | .halt => HaltOk cfg log msg
  | _ => True

end Sent

/-
  What a party says once in a loop. With a share, or with the
  combined signature of its own input, it takes the side of a
  party; without the one of the leader it refuses the side of
  the leader.
-/
inductive Slot where
| input
| side (id : Int)
| vote
deriving DecidableEq

/-
  The place that a message takes; each party has one message
  for each place and loop.
-/
def slot (cfg : Config n) (msg : Msg) : Option Slot :=
  match msg.rawMsg.type with
  | .pbc1 => some .input
  | .pbc3 | .pbc4 => some (.side msg.rawMsg.id)
  | .prevNo =>
      some (.side ((cfg.coin msg.rawMsg.loop).val + 1))
  | .voteYes | .voteNo => some .vote
  | _ => none

/- Two messages of which a party sends only one. -/
def Clash (cfg : Config n) (x y : Packet n) : Prop :=
  x.src = y.src ∧
    x.msg.rawMsg.loop = y.msg.rawMsg.loop ∧
      ∃ s, slot cfg x.msg = some s ∧ slot cfg y.msg = some s

/-
  Every message was allowed when it was sent, and no two of
  a party clash.
-/
structure LogOk (cfg : Config n) (log : Log n) : Prop where
  sent : ∀ packet ∈ log.sent, SentOk cfg log packet
  once : log.sent.Pairwise fun x y => ¬ Clash cfg x y

end Agreement

end SpeedingMVBA

end Jumbo

------------------------------------------------------------
-- The Log Only Grows
------------------------------------------------------------

namespace Jumbo

namespace SpeedingMVBA

namespace Agreement

open Crypto (Bytes)
open Protocol

variable {n : Nat} {cfg : Config n} {log log' : Log n}
variable {l : Nat}

/- More messages keep an input. -/
theorem Input.mono
    {c : Fin n} {values : Bytes}
    (hInput : Input log l c values)
    (hSub : log.sent ⊆ log'.sent) :
    Input log' l c values := by
  rcases hInput with ⟨packet, hMem, hKind⟩
  exact ⟨packet, hSub hMem, hKind⟩

/- More messages have more senders. -/
theorem senders_mono
    (hSub : log.sent ⊆ log'.sent) (P : Packet n → Bool) :
    log.senders Packet.src P ⊆
      log'.senders Packet.src P := by
  intro q hq
  rw [BroadcastLog.mem_senders_iff] at hq ⊢
  rcases hq with ⟨packet, hMem, hP⟩
  exact ⟨packet, hSub hMem, hP⟩

/- More messages keep a quorum. -/
theorem Quorum.mono
    {P : Packet n → Bool}
    (hQuorum : Quorum log P)
    (hSub : log.sent ⊆ log'.sent) :
    Quorum log' P :=
  Nat.lt_of_lt_of_le hQuorum
    (Finset.card_le_card (senders_mono hSub P))

/- More messages keep a loop settled. -/
theorem Settled.mono
    (hSettled : Settled cfg log l)
    (hSub : log.sent ⊆ log'.sent) :
    Settled cfg log' l :=
  hSettled.imp (fun h => h.mono hSub) fun h => h.mono hSub

/- More messages keep an input carried. -/
theorem Carried.mono
    {id : Fin n} {values : Bytes}
    (hCarried : Carried cfg log id values l)
    (hSub : log.sent ⊆ log'.sent) :
    Carried cfg log' id values l := by
  cases l with
  | zero => trivial
  | succ l =>
      rcases hCarried with hLeader | ⟨hOwn, hQuorum⟩
      · exact .inl (hLeader.mono hSub)
      · exact .inr ⟨hOwn.mono hSub, hQuorum.mono hSub⟩

/- More messages keep a halt in order. -/
theorem HaltOk.mono
    {msg : Msg}
    (hHalt : HaltOk cfg log msg)
    (hSub : log.sent ⊆ log'.sent) :
    HaltOk cfg log' msg :=
  ⟨hHalt.1.mono hSub, hHalt.2.mono hSub⟩

/- More messages keep a message allowed. -/
theorem SentOk.mono
    {packet : Packet n}
    (hSent : SentOk cfg log packet)
    (hSub : log.sent ⊆ log'.sent) :
    SentOk cfg log' packet := by
  unfold SentOk at hSent ⊢
  dsimp only at hSent ⊢
  cases hType : packet.msg.rawMsg.type <;>
    rw [hType] at hSent <;>
    dsimp only at hSent ⊢
  case pbc1 => exact ⟨hSent.1, hSent.2.mono hSub⟩
  case pbc3 => exact hSent
  case pbc4 => exact hSent
  case pi =>
    exact
      ⟨hSent.1, hSent.2.1.mono hSub, hSent.2.2.mono hSub⟩
  case prevYes => exact ⟨hSent.1.mono hSub, hSent.2⟩
  case voteYes => exact ⟨hSent.1.mono hSub, hSent.2⟩
  case voteNo => exact Quorum.mono hSent hSub
  case halt => exact HaltOk.mono hSent hSub

end Agreement

end SpeedingMVBA

end Jumbo

------------------------------------------------------------
-- Quorums of What Is Sent Once
------------------------------------------------------------

namespace Jumbo

namespace SpeedingMVBA

namespace Agreement

open Crypto (Bytes)
open Protocol

variable {n : Nat} {cfg : Config n} {log : Log n}
variable {l : Nat}

/- Two messages clash with each other. -/
theorem Clash.symm
    {x y : Packet n} (hClash : Clash cfg x y) :
    Clash cfg y x := by
  rcases hClash with ⟨hSrc, hLoop, s, hx, hy⟩
  exact ⟨hSrc.symm, hLoop.symm, s, hy, hx⟩

instance : Std.Symm fun x y : Packet n => ¬ Clash cfg x y :=
  ⟨fun _ _ hNot hClash => hNot hClash.symm⟩

/- Messages sent that clash are the same one. -/
theorem LogOk.eq_of_clash
    (hLog : LogOk cfg log) {x y : Packet n}
    (hx : x ∈ log.sent) (hy : y ∈ log.sent)
    (hClash : Clash cfg x y) :
    x = y := by
  by_contra hNe
  exact hLog.once.forall hx hy hNe hClash

/- The type and the loop of a message. -/
theorem isKind_iff
    {type : MsgType} {packet : Packet n} :
    isKind type l packet = true ↔
      packet.msg.rawMsg.type = type ∧
        packet.msg.rawMsg.loop = l := by
  simp [isKind]

/- All messages of a kind have one slot in one loop. -/
def Takes
    (cfg : Config n) (l : Nat) (s : Slot)
    (P : Packet n → Bool) : Prop :=
  ∀ packet, P packet = true →
    packet.msg.rawMsg.loop = l ∧ slot cfg packet.msg = some s

/- An input takes the place of the input. -/
theorem takes_input :
    Takes cfg l .input (isKind .pbc1 l) := by
  intro packet hKind
  rcases isKind_iff.mp hKind with ⟨hType, hLoop⟩
  exact ⟨hLoop, by simp [slot, hType]⟩

/- A prevote against the coin takes the side of the coin. -/
theorem takes_prevNo :
    Takes cfg l (.side ((cfg.coin l).val + 1))
      (isKind .prevNo l) := by
  intro packet hKind
  rcases isKind_iff.mp hKind with ⟨hType, hLoop⟩
  exact ⟨hLoop, by simp [slot, hType, hLoop]⟩

/- A vote for the coin takes the place of the vote. -/
theorem takes_voteYes :
    Takes cfg l .vote (isKind .voteYes l) := by
  intro packet hKind
  rcases isKind_iff.mp hKind with ⟨hType, hLoop⟩
  exact ⟨hLoop, by simp [slot, hType]⟩

/- So does a vote against it. -/
theorem takes_voteNo :
    Takes cfg l .vote (isKind .voteNo l) := by
  intro packet hKind
  rcases isKind_iff.mp hKind with ⟨hType, hLoop⟩
  exact ⟨hLoop, by simp [slot, hType]⟩

/- A release takes the side of its leader. -/
theorem takes_release (c : Fin n) :
    Takes cfg l (.side (c.val + 1)) (isRelease c l) := by
  intro packet hRelease
  simp only [isRelease, isShare, Bool.or_eq_true,
    Bool.and_eq_true, isKind_iff, names, decide_eq_true_eq]
    at hRelease
  rcases hRelease with
    ⟨⟨hType, hLoop⟩, hId⟩ | ⟨⟨hType, hLoop⟩, hId⟩
  · exact ⟨hLoop, by simp [slot, hType, hId]⟩
  · exact ⟨hLoop, by simp [slot, hType, hId]⟩

theorem takes_share (c : Fin n) :
    Takes cfg l (.side (c.val + 1)) (isShare c l) :=
  fun packet hShare =>
    takes_release c packet (by simp [isRelease, hShare])

/- A party has one message for each place. -/
theorem LogOk.oncePerSender
    (hLog : LogOk cfg log) {P : Packet n → Bool} {s : Slot}
    (hTakes : Takes cfg l s P) :
    log.OncePerSender Packet.src P := by
  apply BroadcastLog.oncePerSender_of_pairwise
  refine hLog.once.imp fun {x y} hNot hx hy hSrc => ?_
  rcases hTakes x hx with ⟨hLoop, hSlot⟩
  rcases hTakes y hy with ⟨hLoop', hSlot'⟩
  exact hNot ⟨hSrc, hLoop.trans hLoop'.symm, s, hSlot, hSlot'⟩

/- Messages handled come from as many senders. -/
theorem LogOk.tally_le
    (hLog : LogOk cfg log) {P : Packet n → Bool} {s : Slot}
    (hTakes : Takes cfg l s P) (id : Fin n) :
    log.tally id .handled P ≤
      (log.senders Packet.src P).card :=
  log.tally_le_card_senders Packet.src P id .handled
    (hLog.oncePerSender hTakes)

/- Two quorums have a party in common. -/
theorem quorum_intersect
    {A B : Finset (Fin n)}
    (hA : maxCount n < A.card) (hB : maxCount n < B.card) :
    ∃ a ∈ A, a ∈ B := by
  have hCard : Fintype.card (Fin n) = n := Fintype.card_fin n
  unfold maxCount at hA hB
  exact
    twoThirds_intersect (by rw [hCard]; exact hA)
      (by rw [hCard]; exact hB)

end Agreement

end SpeedingMVBA

end Jumbo

------------------------------------------------------------
-- Loops with a Leader
------------------------------------------------------------

namespace Jumbo

namespace SpeedingMVBA

namespace Agreement

open Crypto (Bytes)
open Protocol

variable {n : Nat}

/- The loops of a round, as the log has them. -/
def loops (cfg : Config n) (log : Log n) :
    LeaderLoops (Fin n) Bytes where
  leader := cfg.coin
  input := Input log
  released := fun l =>
    log.senders Packet.src (isRelease (cfg.coin l) l)
  refused := fun l => log.senders Packet.src (isKind .prevNo l)
  voteYes := fun l => log.senders Packet.src (isKind .voteYes l)
  voteNo := fun l => log.senders Packet.src (isKind .voteNo l)
  quorum := fun A => maxCount n < A.card

variable {cfg : Config n} {log : Log n}

/- A sender of two kinds with one slot has sent one message. -/
theorem LogOk.same
    (hLog : LogOk cfg log) {P Q : Packet n → Bool}
    {l : Nat} {a : Fin n} {s : Slot}
    (hTakes : Takes cfg l s P) (hTakes' : Takes cfg l s Q)
    (hP : a ∈ log.senders Packet.src P)
    (hQ : a ∈ log.senders Packet.src Q) :
    ∃ packet, P packet = true ∧ Q packet = true := by
  rw [BroadcastLog.mem_senders_iff] at hP hQ
  rcases hP with ⟨x, hx, hPx, hSrc⟩
  rcases hQ with ⟨y, hy, hQy, hSrc'⟩
  rcases hTakes x hPx with ⟨hLoop, hSlot⟩
  rcases hTakes' y hQy with ⟨hLoop', hSlot'⟩
  have hEq := hLog.eq_of_clash hx hy
    ⟨hSrc.trans hSrc'.symm, hLoop.trans hLoop'.symm, s,
      hSlot, hSlot'⟩
  exact ⟨x, hPx, hEq ▸ hQy⟩

/- So the loops lead to one value. -/
theorem LogOk.sound (hLog : LogOk cfg log) :
    (loops cfg log).Sound where
  intersect := quorum_intersect
  functional := by
    rintro l a v w ⟨x, hx, hKind, hSrc, rfl⟩
      ⟨y, hy, hKind', hSrc', rfl⟩
    have hTakes : Takes cfg l .input (isKind .pbc1 l) :=
      takes_input
    rcases hTakes x hKind with ⟨hLoop, hSlot⟩
    rcases hTakes y hKind' with ⟨hLoop', hSlot'⟩
    have hEq := hLog.eq_of_clash hx hy
      ⟨hSrc.trans hSrc'.symm, hLoop.trans hLoop'.symm, .input,
        hSlot, hSlot'⟩
    rw [hEq]
  stance := by
    intro l a hRelease hRefuse
    rcases hLog.same (takes_release _) takes_prevNo hRelease
        hRefuse with
      ⟨packet, hBoth, hKind⟩
    have hType := (isKind_iff.mp hKind).1
    simp [isRelease, isShare, isKind, hType] at hBoth
  ballot := by
    intro l a hYes hNo
    rcases hLog.same takes_voteYes takes_voteNo hYes hNo with
      ⟨packet, hVoteYes, hVoteNo⟩
    have hType := (isKind_iff.mp hVoteYes).1
    rw [(isKind_iff.mp hVoteNo).1] at hType
    cases hType
  founded := by
    intro l a hNo
    rcases (BroadcastLog.mem_senders_iff _ _ _ _).mp hNo with
      ⟨packet, hMem, hKind, _⟩
    rcases isKind_iff.mp hKind with ⟨hType, rfl⟩
    have hSent := hLog.sent packet hMem
    unfold SentOk at hSent
    dsimp only at hSent
    rw [hType] at hSent
    exact hSent
  carried := by
    rintro l a v ⟨packet, hMem, hKind, rfl, rfl⟩
    rcases isKind_iff.mp hKind with ⟨hType, hLoop⟩
    have hSent := hLog.sent packet hMem
    unfold SentOk at hSent
    dsimp only at hSent
    rw [hType, hLoop] at hSent
    exact hSent.2

end Agreement

end SpeedingMVBA

end Jumbo
