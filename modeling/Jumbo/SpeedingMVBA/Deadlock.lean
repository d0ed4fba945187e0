import Jumbo.SpeedingMVBA.Inbox

/-
  What holds of a state in which nobody can act.

  No handler refuses what a party that runs the code sends.
  So in the least loop of the live parties everything that is
  waited for and due has been handled, and all of it counts.

  Main declarations:
    * `Stuck`
    * `Deadlock`
    * `Deadlock.gather`
-/

------------------------------------------------------------
-- Nothing Is Refused
------------------------------------------------------------

namespace Jumbo

namespace SpeedingMVBA

namespace Agreement

open Crypto (Bytes)
open Protocol
open Struct

variable {n : Nat}

section Enabled

variable {cfg : Config n} {id c : Fin n} {log : Log n}
variable {m : MVBA n} {l : Nat} {li : LoopInfo n}
variable {msg : Msg} {packet : Packet n} {bytes : Bytes}
variable {signs : List Signature} {certs : List Cert}

/- A certificate that verifies is accepted. -/
theorem accept_of_verifies
    {ss : Option BatchSignature}
    (hVerifies : Verifies cfg bytes ss) :
    ∃ cert, accept cfg bytes ss = some cert := by
  rcases hVerifies with ⟨batch, rfl, hVerify⟩
  exact ⟨_, accept_isSome hVerify⟩

/- The signature of a party is accepted. -/
theorem acceptSign_own
    (hCombines : Combines cfg) (q : Fin n) (bytes : Bytes) :
    acceptSign cfg bytes (some (sign cfg q bytes)) =
      some (sign cfg q bytes) := by
  unfold acceptSign
  rw [Option.bind_some, if_pos (hCombines.own q bytes)]

/- A party has one hash for a loop. -/
theorem LogOk.hash_unique
    (hLog : LogOk cfg log) {hash hash' : Bytes}
    (hFirst : HashOf cfg log l c hash)
    (hSecond : HashOf cfg log l c hash') :
    hash = hash' := by
  rcases hSecond with ⟨values, hInput, rfl⟩
  exact hLog.hash_eq hFirst hInput

/- The input of a leader is taken. -/
theorem handlePBC1_isSome
    (hAccepts : cfg.checkInput msg.rawMsg.values = true)
    (hWait : (m.loops l).pbc c = .wait1)
    (hValues : (checkValues cfg m.oldCoins l msg).isSome) :
    (handlePBC1 cfg m l c msg).isSome := by
  unfold handlePBC1
  dsimp only
  rw [if_neg (not_not.mpr hWait), if_pos hAccepts,
    Option.isSome_map]
  exact hValues

/- The first answer is sent. -/
theorem sendPBC2_isSome
    {hash : Bytes} (hAt : (m.loops l).pbc c = .send2 hash) :
    (sendPBC2 cfg id m l c).isSome := by
  unfold sendPBC2
  dsimp only
  rw [hAt]
  dsimp only
  split
  · rfl
  · rfl

/- The combined signature of a leader is taken. -/
theorem handlePBC3_isSome
    {hash : Bytes} (hAt : (m.loops l).pbc c = .wait3 hash)
    (hSame : hash = msg.rawMsg.values)
    (hVerifies :
      Verifies cfg
        (cfg.marshal (cfg.rawMsg .pbc2 c hash l)) msg.ss) :
    (handlePBC3 cfg m l c msg).isSome := by
  rcases accept_of_verifies hVerifies with ⟨cert, hCert⟩
  unfold handlePBC3
  dsimp only
  rw [hAt]
  dsimp only
  rw [if_pos hSame, hCert]
  rfl

/- The second answer is sent. -/
theorem sendPBC4_isSome
    {hash : Bytes} (hAt : (m.loops l).pbc c = .send4 hash) :
    (sendPBC4 cfg id m l c).isSome := by
  unfold sendPBC4
  dsimp only
  rw [hAt]
  dsimp only
  split
  · rfl
  · rfl

/- A signature on the own input is taken. -/
theorem handleMinePBC2_isSome
    (hCombines : Combines cfg) (hAggregates : Aggregates cfg)
    {hash : Bytes} {q : Fin n}
    (hAt : (m.loops l).mine = .wait2 hash signs)
    (hMade :
      ∀ s ∈ signs,
        Made cfg (cfg.marshal (cfg.rawMsg .pbc2 id hash l)) s)
    (hSame : hash = msg.rawMsg.values)
    (hSign :
      msg.sign =
        some
          (sign cfg q
            (cfg.marshal (cfg.rawMsg .pbc2 id hash l)))) :
    (handleMinePBC2 cfg id m l msg).isSome := by
  have hMore :=
    made_append (made_append hMade (made_self q _))
      (made_self id _)
  rcases Option.isSome_iff_exists.mp
      (batchSign_isSome hCombines hAggregates
        (snoc_ne_nil _ _) hMore) with
    ⟨batch, hBatch⟩
  unfold handleMinePBC2
  dsimp only
  rw [hAt]
  dsimp only
  rw [if_pos hSame, hSign, acceptSign_own hCombines,
    Option.bind_eq_bind, Option.bind_some]
  split
  · rw [hBatch]
    rfl
  · rfl

/- The own combined signature is sent. -/
theorem sendPBC3_isSome
    {hash : Bytes} {batch : BatchSignature}
    (hAt : (m.loops l).mine = .send3 hash batch) :
    (sendPBC3 cfg id m l).isSome := by
  unfold sendPBC3
  dsimp only
  rw [hAt]
  dsimp only
  split
  · rfl
  · rfl

/- Another OK is counted. -/
theorem countPi_isSome
    (hCombines : Combines cfg) (hAggregates : Aggregates cfg)
    (hMade : ∀ s ∈ li.ok, Made cfg (cfg.tagged l .ok) s)
    {okSign : Signature}
    (hOk : Made cfg (cfg.tagged l .ok) okSign) :
    ∃ li' certs, countPi cfg l li okSign = some (li', certs) := by
  rcases Option.isSome_iff_exists.mp
      (batchSign_isSome hCombines hAggregates
        (snoc_ne_nil _ _) (made_append hMade hOk)) with
    ⟨batch, hBatch⟩
  unfold countPi
  dsimp only
  split
  · rw [hBatch]
    exact ⟨_, _, rfl⟩
  · exact ⟨_, _, rfl⟩

/- An answer to the own combined signature is taken. -/
theorem handleMinePBC4_isSome
    (hCombines : Combines cfg) (hAggregates : Aggregates cfg)
    {hash : Bytes} {q : Fin n}
    (hAt : (m.loops l).mine = .wait4 hash signs)
    (hMade :
      ∀ s ∈ signs,
        Made cfg (cfg.marshal (cfg.rawMsg .pbc4 id hash l)) s)
    (hOk :
      ∀ s ∈ (m.loops l).ok, Made cfg (cfg.tagged l .ok) s)
    (hSame : hash = msg.rawMsg.values)
    (hSign :
      msg.sign =
        some
          (sign cfg q
            (cfg.marshal (cfg.rawMsg .pbc4 id hash l)))) :
    (handleMinePBC4 cfg id m l msg).isSome := by
  have hMore :=
    made_append (made_append hMade (made_self q _))
      (made_self id _)
  rcases Option.isSome_iff_exists.mp
      (batchSign_isSome hCombines hAggregates
        (snoc_ne_nil _ _) hMore) with
    ⟨batch, hBatch⟩
  have hCounts :
      ∃ li' certs,
        countPi cfg l { m.loops l with mine := .done }
            (sign cfg id (cfg.tagged l .ok)) =
          some (li', certs) := by
    refine
      countPi_isSome hCombines hAggregates ?_ (made_self id _)
    exact hOk
  rcases hCounts with ⟨li', certs, hCount⟩
  unfold handleMinePBC4
  dsimp only
  rw [hAt]
  dsimp only
  rw [if_pos hSame, hSign, acceptSign_own hCombines,
    Option.bind_eq_bind, Option.bind_some]
  split
  · simp only [hBatch, hCount, Option.bind_eq_bind,
      Option.bind_some, Option.isSome_some]
  · rfl

/- A pi is taken. -/
theorem handlePi_isSome
    (hCombines : Combines cfg) (hAggregates : Aggregates cfg)
    {q : Fin n}
    (hWaits : (m.loops l).handlesPi = true)
    (hOk :
      ∀ s ∈ (m.loops l).ok, Made cfg (cfg.tagged l .ok) s)
    (hIndex : index n msg.rawMsg.id = some c)
    (hVerifies :
      Verifies cfg
        (cfg.marshal
          (cfg.rawMsg .pbc4 c (cfg.sha msg.rawMsg.values) l))
        msg.ss)
    (hSign :
      msg.sign = some (sign cfg q (cfg.tagged l .ok))) :
    (handlePi cfg m l msg).isSome := by
  rcases accept_of_verifies hVerifies with ⟨cert, hCert⟩
  have hCounts :
      ∃ li' certs,
        countPi cfg l
            { m.loops l with
              inputs :=
                Function.update (m.loops l).inputs c
                  msg.rawMsg.values
              pis :=
                Function.update (m.loops l).pis c cert.2 }
            (sign cfg q (cfg.tagged l .ok)) =
          some (li', certs) := by
    refine
      countPi_isSome hCombines hAggregates ?_ (made_self q _)
    exact hOk
  rcases hCounts with ⟨li', certs, hCount⟩
  unfold handlePi
  dsimp only
  rw [if_pos hWaits, hIndex, hSign]
  simp only [hCert, acceptSign_own hCombines, hCount,
    Option.bind_eq_bind, Option.bind_some, Option.isSome_some]

/- A share is counted. -/
theorem countShare_isSome
    (hCombines : Combines cfg) (hAggregates : Aggregates cfg)
    (hMade :
      ∀ s ∈ (m.loops l).shares, Made cfg (cfg.share l) s)
    {share : Signature} (hShare : Made cfg (cfg.share l) share)
    (ss : BatchSignature) :
    (countShare cfg m l share ss certs).isSome := by
  rcases Option.isSome_iff_exists.mp
      (batchSign_isSome hCombines hAggregates
        (snoc_ne_nil _ _) (made_append hMade hShare)) with
    ⟨batch, hBatch⟩
  unfold countShare
  dsimp only
  split
  · rw [hBatch]
    rfl
  · rfl

/- A share of another party is taken. -/
theorem handleShare_isSome
    (hCombines : Combines cfg) (hAggregates : Aggregates cfg)
    {q : Fin n}
    (hWaits : (m.loops l).handlesShare = true)
    (hMade :
      ∀ s ∈ (m.loops l).shares, Made cfg (cfg.share l) s)
    (hVerifies : Verifies cfg (cfg.tagged l .ok) msg.ss)
    (hSign : msg.sign = some (sign cfg q (cfg.share l))) :
    (handleShare cfg m l msg).isSome := by
  rcases accept_of_verifies hVerifies with ⟨cert, hCert⟩
  unfold handleShare
  rw [if_pos hWaits, hSign, hCert,
    acceptSign_own hCombines]
  exact
    countShare_isSome hCombines hAggregates hMade
      (made_self q _) _

/- The own share is taken. -/
theorem handleShareMine_isSome
    (hCombines : Combines cfg) (hAggregates : Aggregates cfg)
    (hWaits : (m.loops l).handlesShare = true)
    (hValid : LoopValid cfg id log l (m.loops l))
    (hMine : (m.loops l).shareMine = some msg) :
    (handleShareMine cfg m l).isSome := by
  rcases hValid.shareMine msg hMine with
    ⟨⟨batch, hBatch, _⟩, hSign⟩
  unfold handleShareMine
  dsimp only
  rw [if_pos hWaits, hMine]
  simp only [Option.bind_eq_bind, Option.bind_some, hSign,
    hBatch]
  refine
    countShare_isSome hCombines hAggregates ?_
      (made_self id _) _
  rw [setLoop_same]
  exact hValid.shares

/- The coin is read. -/
theorem handleCoin_isSome
    (hFinish : (m.loops l).finish = .coin)
    (hCoin : (m.loops l).coinReady ≠ none) :
    (handleCoin cfg id m l).isSome := by
  rcases Option.ne_none_iff_exists'.mp hCoin with
    ⟨coin, hReady⟩
  unfold handleCoin
  dsimp only
  rw [hFinish, hReady]
  dsimp only
  split
  · rfl
  · split
    · rfl
    · rfl

/- The next share is sent. -/
theorem sendShare_isSome
    (hSends : (m.loops l).sendsShare = true)
    (hReady : (m.loops l).shareReady ≠ []) :
    (sendShare cfg id m l).isSome := by
  rcases List.exists_cons_of_ne_nil hReady with
    ⟨batch, rest, hCons⟩
  unfold sendShare
  dsimp only
  rw [hSends, hCons]
  dsimp only
  split
  · rfl
  · rfl

section Votes

variable {coin : Fin n} {yesFlag : Bool}
variable {noCombins yes no : List Signature}
variable {prevCount : Nat} {values : Bytes}

/- A prevote is counted. -/
theorem countPrev_isSome
    (hCombines : Combines cfg) (hAggregates : Aggregates cfg)
    (hNo :
      yesFlag = false →
        noCombins ≠ [] ∧
          ∀ s ∈ noCombins, Made cfg (cfg.tagged l .prevno) s) :
    (countPrev cfg id m l li coin yesFlag noCombins prevCount
      certs).isSome := by
  unfold countPrev
  split
  · unfold castVote
    dsimp only
    split
    · rfl
    · rename_i hFlag
      rcases hNo (Bool.eq_false_of_not_eq_true hFlag) with
        ⟨hSome, hMade⟩
      rw [Option.isSome_map]
      exact batchSign_isSome hCombines hAggregates hSome hMade
  · rfl

/- A prevote for the coin is taken. -/
theorem handlePrevYes_isSome
    (hCombines : Combines cfg) (hAggregates : Aggregates cfg)
    (hFinish :
      (m.loops l).finish =
        .prev coin yesFlag noCombins prevCount)
    (hVerifies :
      Verifies cfg
        (cfg.marshal
          (cfg.rawMsg .pbc2 coin (cfg.sha msg.rawMsg.values)
            l))
        msg.ss) :
    (handlePrevYes cfg id m l msg).isSome := by
  rcases hVerifies with ⟨batch, hBatch, hVerify⟩
  unfold handlePrevYes
  dsimp only
  rw [hFinish]
  dsimp only
  split
  · exact countPrev_isSome hCombines hAggregates nofun
  · rw [hBatch, Option.bind_some, hVerify, Option.bind_some,
      if_pos rfl]
    exact countPrev_isSome hCombines hAggregates nofun

/- A prevote against the coin is taken. -/
theorem handlePrevNo_isSome
    (hCombines : Combines cfg) (hAggregates : Aggregates cfg)
    {q : Fin n}
    (hFinish :
      (m.loops l).finish =
        .prev coin yesFlag noCombins prevCount)
    (hMade :
      ∀ s ∈ noCombins, Made cfg (cfg.tagged l .prevno) s)
    (hSign :
      msg.sign = some (sign cfg q (cfg.tagged l .prevno))) :
    (handlePrevNo cfg id m l msg).isSome := by
  unfold handlePrevNo
  dsimp only
  rw [hFinish]
  dsimp only
  split
  · exact countPrev_isSome hCombines hAggregates nofun
  · rw [hSign, acceptSign_own hCombines, Option.bind_some]
    exact
      countPrev_isSome hCombines hAggregates fun _ =>
        ⟨snoc_ne_nil _ _, made_append hMade (made_self q _)⟩

/- A vote is counted. -/
theorem countVotes_isSome
    (hCombines : Combines cfg) (hAggregates : Aggregates cfg)
    (hYes :
      maxCount n < yes.length →
        ∀ s ∈ yes,
          Made cfg
            (cfg.marshal
              (cfg.rawMsg .pbc4 coin (cfg.sha values) l)) s)
    (hNo : ∀ s ∈ no, Made cfg (cfg.tagged l .voteno) s) :
    (countVotes cfg id m l li coin yes no values
      certs).isSome := by
  have hSome :
      ∀ {signs : List Signature},
        maxCount n < signs.length → signs ≠ [] := by
    rintro _ hMany rfl
    exact absurd hMany (Nat.not_lt_zero _)
  unfold countVotes
  split
  · split
    · rename_i hMany
      split
      · rfl
      · dsimp only
        rw [Option.isSome_map]
        exact
          batchSign_isSome hCombines hAggregates (hSome hMany)
            (hYes hMany)
    · split
      · rename_i hMany
        dsimp only
        rw [Option.isSome_map]
        exact
          batchSign_isSome hCombines hAggregates (hSome hMany)
            hNo
      · rfl
  · rfl

/- A vote for the coin is taken. -/
theorem handleVoteYes_isSome
    (hCombines : Combines cfg) (hAggregates : Aggregates cfg)
    (hLog : LogOk cfg log) {q : Fin n}
    (hFinish : (m.loops l).finish = .vote coin yes no)
    (hVotes : FinishValid cfg log l (.vote coin yes no))
    (hInput : Input log l coin msg.rawMsg.values)
    (hVerifies :
      Verifies cfg
        (cfg.marshal
          (cfg.rawMsg .pbc2 coin (cfg.sha msg.rawMsg.values)
            l))
        msg.ss)
    (hSign :
      msg.sign =
        some
          (sign cfg q
            (cfg.marshal
              (cfg.rawMsg .pbc4 coin
                (cfg.sha msg.rawMsg.values) l)))) :
    (handleVoteYes cfg id m l msg).isSome := by
  rcases accept_of_verifies hVerifies with ⟨cert, hCert⟩
  have hYes :
      ∀ s ∈ yes,
        Made cfg
          (cfg.marshal
            (cfg.rawMsg .pbc4 coin
              (cfg.sha msg.rawMsg.values) l)) s := by
    intro s hMem
    rcases hVotes.1 s hMem with ⟨v, hV, hMade⟩
    rw [hLog.input_eq hV hInput] at hMade
    exact hMade
  unfold handleVoteYes
  dsimp only
  rw [hFinish]
  dsimp only
  rw [hCert, hSign, acceptSign_own hCombines]
  exact
    countVotes_isSome hCombines hAggregates
      (fun _ => made_append hYes (made_self q _)) hVotes.2

/- A vote against the coin is taken. -/
theorem handleVoteNo_isSome
    (hCombines : Combines cfg) (hAggregates : Aggregates cfg)
    {q : Fin n}
    (hFinish : (m.loops l).finish = .vote coin yes no)
    (hVotes : FinishValid cfg log l (.vote coin yes no))
    (hFew : yes.length ≤ maxCount n)
    (hVerifies : Verifies cfg (cfg.tagged l .prevno) msg.ss)
    (hSign :
      msg.sign = some (sign cfg q (cfg.tagged l .voteno))) :
    (handleVoteNo cfg id m l msg).isSome := by
  rcases accept_of_verifies hVerifies with ⟨cert, hCert⟩
  unfold handleVoteNo
  dsimp only
  rw [hFinish]
  dsimp only
  rw [hCert, hSign, acceptSign_own hCombines]
  exact
    countVotes_isSome hCombines hAggregates
      (fun hMany => absurd hMany (Nat.not_lt.mpr hFew))
      (made_append hVotes.2 (made_self q _))

end Votes

/- A halt is stored. -/
theorem handleHalt_isSome
    (hWaits : m.halt = .waits)
    (hHalt : HaltValid cfg msg) :
    (handleHalt cfg m msg).isSome := by
  rcases accept_of_verifies hHalt.2.2 with ⟨cert, hCert⟩
  unfold handleHalt
  rw [if_pos hWaits, hCert]
  rfl

/- It is adopted. -/
theorem adoptHalt_isSome
    (hStored : m.halt = .stored msg)
    (hHalt : HaltValid cfg msg) :
    (adoptHalt cfg id m).isSome := by
  rcases accept_of_verifies hHalt.2.1 with ⟨cert, hCert⟩
  unfold adoptHalt
  rw [hStored]
  dsimp only
  rw [if_pos hHalt.1, hCert]
  rfl

end Enabled

end Agreement

end SpeedingMVBA

end Jumbo

------------------------------------------------------------
-- Nobody Acts
------------------------------------------------------------

namespace Jumbo

namespace SpeedingMVBA

namespace Agreement

open Crypto (Bytes)
open Protocol
open Struct

variable {n : Nat}

/-
  Every message of a live party has been delivered, and no
  goroutine of a live party can take a step.
-/
def Stuck (cfg : Config n) (s : Net n) : Prop :=
  ∀ id,
    (∀ a, Net.exec cfg s (.act id a) = none) ∧
      ∀ i, Net.exec cfg s (.receive id i) = none ∧
        Net.exec cfg s (.transmit id i) = none

/- A live party. -/
def Live (s : Net n) (id : Fin n) : Prop :=
  s.crashed id = false

/- The live parties. -/
def alive (s : Net n) : Finset (Fin n) :=
  Finset.univ.filter fun id => s.crashed id = false

/-
  A stuck state in which the round is not over for any live
  party, and a loop that none of them is behind of.
-/
structure Deadlock
    (cfg : Config n) (s : Net n) (l : Nat) : Prop where
  honest : NetHonest cfg s
  counts : NetCounts s
  stuck : Stuck cfg s
  going : ∀ id, Live s id → (s.party id).mvbaDone = false
  lowest : ∀ id, Live s id → l ≤ (s.party id).loop

section Stuck

variable {cfg : Config n} {s : Net n} {l : Nat}
variable {p q c : Fin n} {packet : Packet n} {i : Nat}

/- They are those that have not crashed. -/
theorem mem_alive : p ∈ alive s ↔ Live s p := by
  unfold alive Live
  rw [Finset.mem_filter]
  exact and_iff_right (Finset.mem_univ p)

/- No live party acts on its own. -/
theorem Stuck.act
    (hStuck : Stuck cfg s) (hLive : Live s p)
    {a : PartyAction n} (hInternal : a.internal = true) :
    step cfg p (s.party p) a = none := by
  have hNone := (hStuck p).1 a
  unfold Net.exec at hNone
  dsimp only at hNone
  rw [if_neg (by
    rw [show s.crashed p = false from hLive, hInternal]
    exact nofun)] at hNone
  exact Option.map_eq_none_iff.mp hNone

/- No live party reads a message. -/
theorem Stuck.receive
    (hStuck : Stuck cfg s) (hLive : Live s p)
    (hAt : s.log.sent[i]? = some packet)
    (hDest : packet.dest p = true)
    (hLoc : s.log.loc p i = .net) :
    step cfg p (s.party p) (.receive packet.msg) = none := by
  have hNone := ((hStuck p).2 i).1
  have hPacket : s.packet p i .net = some packet := by
    unfold Net.packet
    rw [hAt]
    simp [hDest, hLoc]
  unfold Net.exec at hNone
  dsimp only at hNone
  rw [if_neg (by
    rw [show s.crashed p = false from hLive]
    exact nofun), hPacket, Option.bind_some] at hNone
  exact Option.map_eq_none_iff.mp hNone

/- The messages of a live party have arrived. -/
theorem Stuck.arrived
    (hStuck : Stuck cfg s)
    (hAt : s.log.sent[i]? = some packet)
    (hLive : Live s packet.src)
    (hDest : packet.dest p = true) :
    s.log.loc p i ≠ .queued := by
  intro hLoc
  have hNone := ((hStuck p).2 i).2
  have hPacket : s.packet p i .queued = some packet := by
    unfold Net.packet
    rw [hAt]
    simp [hDest, hLoc]
  unfold Net.exec at hNone
  dsimp only at hNone
  rw [hPacket, Option.bind_some, if_neg (by
    rw [show s.crashed packet.src = false from hLive]
    exact nofun)] at hNone
  cases hNone

/- A party for which the round goes on acts. -/
theorem step_of_going
    (hValid : PartyValid cfg p s.log (s.party p))
    (hGoing : (s.party p).mvbaDone = false)
    (a : PartyAction n) :
    step cfg p (s.party p) a =
      partyStep cfg p (s.party p) a := by
  unfold step
  rw [if_neg]
  intro hReturned
  rw [hValid.returned hReturned] at hGoing
  cases hGoing

section Going

variable (hDead : Deadlock cfg s l)
include hDead

/- Nothing is to be done. -/
theorem Deadlock.idle
    (hLive : Live s p) {a : PartyAction n}
    (hInternal : a.internal = true) :
    partyStep cfg p (s.party p) a = none := by
  rw [← step_of_going (hDead.honest.party p)
    (hDead.going p hLive)]
  exact hDead.stuck.act hLive hInternal

/- A live party is in its last loop. -/
theorem Deadlock.started
    (hLive : Live s p) :
    (s.party p).started = (s.party p).loop + 1 := by
  have hAhead := (hDead.honest.net.party p).ahead
  have hPos : 0 < (s.party p).started := by
    by_contra hZero
    have hNone :=
      hDead.idle hLive (a := .launch []) rfl
    change launch cfg p (s.party p) [] = none at hNone
    unfold launch at hNone
    rw [if_pos (by omega)] at hNone
    cases hNone
  by_contra hOther
  have hEq : (s.party p).loop = (s.party p).started := by
    omega
  have hNone := hDead.idle hLive (a := .startLoop) rfl
  change startLoop cfg p (s.party p) = none at hNone
  unfold startLoop at hNone
  rw [if_pos ⟨hPos, hEq, by
    rw [hDead.going p hLive]
    exact nofun⟩] at hNone
  cases hNone

/- So it has started the loop. -/
theorem Deadlock.lt
    (hLive : Live s p) : l < (s.party p).started := by
  rw [hDead.started hLive]
  exact Nat.lt_succ_of_le (hDead.lowest p hLive)

/- What it holds of the loop is in order. -/
theorem Deadlock.loopOk
    (hLive : Live s p) :
    LoopOk cfg p s.log l ((s.party p).loops l) :=
  (hDead.honest.net.party p).loops l (hDead.lt hLive)

/- And it verifies. -/
theorem Deadlock.loopValid
    (hLive : Live s p) :
    LoopValid cfg p s.log l ((s.party p).loops l) :=
  (hDead.honest.party p).loops l (hDead.lt hLive)

/- And it is bounded. -/
theorem Deadlock.bounded (p : Fin n) :
    Bounded ((s.party p).loops l) :=
  (hDead.honest.party p).bounded l

/- A step in the loop is none. -/
theorem Deadlock.inLoop
    (hLive : Live s p) {a : PartyAction n}
    {effect : Option (Effect n)}
    (hInternal : a.internal = true)
    (hStep :
      partyStep cfg p (s.party p) a =
        inLoop (s.party p) l effect) :
    ¬ effect.isSome := by
  intro hSome
  have hNone := hDead.idle hLive hInternal
  rw [hStep] at hNone
  unfold SpeedingMVBA.inLoop at hNone
  rw [if_pos (hDead.lt hLive)] at hNone
  rw [hNone] at hSome
  cases hSome

/- A message of a live party that is taken is handled. -/
theorem Deadlock.reached
    (hp : Live s p) (hHere : (s.party p).loop = l)
    (hMem : packet ∈ s.log.sent) (hSrc : Live s packet.src)
    {kind : Kind n} (hReaches : Reaches p kind l packet)
    (hTaken :
      (receiveLoop cfg p (s.party p) packet.msg).isSome) :
    ∃ i, s.log.sent[i]? = some packet ∧
      s.log.loc p i = .handled := by
  rcases List.mem_iff_getElem?.mp hMem with ⟨i, hAt⟩
  refine ⟨i, hAt, ?_⟩
  have hStarted := hDead.started hp
  have hType : packet.msg.rawMsg.type ≠ .halt := by
    intro hHalt
    have hKind := hReaches.2.2
    unfold kindOf at hKind
    rw [hHalt] at hKind
    cases hKind
  cases hLoc : s.log.loc p i with
  | handled => rfl
  | queued =>
      exact
        absurd hLoc
          (hDead.stuck.arrived hAt hSrc hReaches.1)
  | dropped =>
      have hLeft := (hDead.counts.dropped p i packet hAt hLoc).2
      rw [hReaches.2.1, hStarted, hHere] at hLeft
      exact absurd hLeft (Nat.lt_irrefl _)
  | net =>
      have hNone :=
        hDead.stuck.receive hp hAt hReaches.1 hLoc
      rw [step_of_going (hDead.honest.party p)
        (hDead.going p hp)] at hNone
      change receive cfg p (s.party p) packet.msg = none
        at hNone
      unfold receive at hNone
      rw [if_neg, if_neg hType, if_pos] at hNone
      · rw [hNone] at hTaken
        cases hTaken
      · rw [hReaches.2.1]
        exact hDead.lt hp
      · have hRound := (hDead.honest.valid packet hMem).1
        rintro (hOther | hZero)
        · exact hOther hRound
        · omega

/- What another party owes in the loop has been handled. -/
theorem Deadlock.handled
    (hp : Live s p) (hHere : (s.party p).loop = l)
    (hq : Live s q) (hNe : q ≠ p) {kind : Kind n}
    (hDue : Due q p kind ((s.party q).loops l))
    (hTakes :
      ∀ packet ∈ s.log.sent, Reaches p kind l packet →
        (receiveLoop cfg p (s.party p)
          packet.msg).isSome) :
    ∃ i packet, s.log.sent[i]? = some packet ∧
      decide (Reaches p kind l packet) = true ∧
        packet.src = q ∧ s.log.loc p i = .handled := by
  rcases hDead.counts.paid q p l kind (hDead.going q hq)
      hNe.symm hDue with
    ⟨packet, hMem, hSrc, hReaches⟩
  rcases hDead.reached hp hHere hMem (hSrc ▸ hq) hReaches
      (hTakes packet hMem hReaches) with
    ⟨i, hAt, hLoc⟩
  exact
    ⟨i, packet, hAt, decide_eq_true hReaches, hSrc, hLoc⟩

/- So one message has been counted. -/
theorem Deadlock.one
    (hp : Live s p) (hHere : (s.party p).loop = l)
    (hq : Live s q) (hNe : q ≠ p) {kind : Kind n} {k : Nat}
    (hCount : count kind ((s.party p).loops l) = some k)
    (hDue : Due q p kind ((s.party q).loops l))
    (hTakes :
      ∀ packet ∈ s.log.sent, Reaches p kind l packet →
        (receiveLoop cfg p (s.party p)
          packet.msg).isSome) :
    0 < k := by
  have hCard :=
    s.log.card_le_tally Packet.src
      (fun packet => decide (Reaches p kind l packet)) p
      .handled {q} (by
        intro r hr
        rw [Finset.mem_singleton.mp hr]
        exact hDead.handled hp hHere hq hNe hDue hTakes)
  have hCounted :=
    hDead.counts.counted p l kind k (hDead.going p hp) hCount
  rw [Finset.card_singleton] at hCard
  omega

/- What all others owe in the loop has been counted. -/
theorem Deadlock.gather
    (hMany : maxCount n < (alive s).card)
    (hp : Live s p) (hHere : (s.party p).loop = l)
    {kind : Kind n} {k : Nat}
    (hCount : count kind ((s.party p).loops l) = some k)
    (hDue :
      ∀ q, Live s q → q ≠ p →
        Due q p kind ((s.party q).loops l))
    (hTakes :
      ∀ packet ∈ s.log.sent, Reaches p kind l packet →
        (receiveLoop cfg p (s.party p)
          packet.msg).isSome) :
    maxCount n + own kind ((s.party p).loops l) ≤ k := by
  have hCard :=
    s.log.card_le_tally Packet.src
      (fun packet => decide (Reaches p kind l packet)) p
      .handled ((alive s).erase p) (by
        intro q hq
        rcases Finset.mem_erase.mp hq with ⟨hNe, hIn⟩
        have hq := mem_alive.mp hIn
        exact
          hDead.handled hp hHere hq hNe (hDue q hq hNe)
            hTakes)
  have hCounted :=
    hDead.counts.counted p l kind k (hDead.going p hp) hCount
  rw [Finset.card_erase_of_mem (mem_alive.mpr hp)] at hCard
  omega

end Going

end Stuck

end Agreement

end SpeedingMVBA

end Jumbo

------------------------------------------------------------
-- What Is Taken
------------------------------------------------------------

namespace Jumbo

namespace SpeedingMVBA

namespace Agreement

open Crypto (Bytes)
open Protocol
open Struct

variable {n : Nat}

section Takes

variable {cfg : Config n} {s : Net n} {l : Nat}
variable {p q c : Fin n} {packet : Packet n}
variable (hCombines : Combines cfg)
variable (hAggregates : Aggregates cfg)
variable (hDead : Deadlock cfg s l)

/- The input of a leader, by the kind of the message. -/
theorem kind_pbc1
    {msg : Msg} (hKind : kindOf n msg = some (.pbc1 c)) :
    msg.rawMsg.type = .pbc1 ∧
      index n msg.rawMsg.id = some c := by
  unfold kindOf at hKind
  cases hType : msg.rawMsg.type with
  | pbc1 =>
      rw [hType] at hKind
      rcases Option.map_eq_some_iff.mp hKind with
        ⟨d, hIndex, hEq⟩
      cases hEq
      exact ⟨rfl, hIndex⟩
  | pbc3 =>
      rw [hType] at hKind
      rcases Option.map_eq_some_iff.mp hKind with ⟨d, _, hEq⟩
      cases hEq
  | pbc2 | pbc4 | pi | share | prevYes | prevNo | voteYes
  | voteNo | halt =>
      rw [hType] at hKind
      cases hKind

/- The combined signature of a leader. -/
theorem kind_pbc3
    {msg : Msg} (hKind : kindOf n msg = some (.pbc3 c)) :
    msg.rawMsg.type = .pbc3 ∧
      index n msg.rawMsg.id = some c := by
  unfold kindOf at hKind
  cases hType : msg.rawMsg.type with
  | pbc3 =>
      rw [hType] at hKind
      rcases Option.map_eq_some_iff.mp hKind with
        ⟨d, hIndex, hEq⟩
      cases hEq
      exact ⟨rfl, hIndex⟩
  | pbc1 =>
      rw [hType] at hKind
      rcases Option.map_eq_some_iff.mp hKind with ⟨d, _, hEq⟩
      cases hEq
  | pbc2 | pbc4 | pi | share | prevYes | prevNo | voteYes
  | voteNo | halt =>
      rw [hType] at hKind
      cases hKind

/- Messages that are for one goroutine only. -/
theorem kind_plain
    {msg : Msg} {kind : Kind n}
    (hKind : kindOf n msg = some kind) :
    match kind with
    | .pbc2 => msg.rawMsg.type = .pbc2
    | .pbc4 => msg.rawMsg.type = .pbc4
    | .pi => msg.rawMsg.type = .pi
    | .share => msg.rawMsg.type = .share
    | .prev =>
        msg.rawMsg.type = .prevYes ∨
          msg.rawMsg.type = .prevNo
    | .vote =>
        msg.rawMsg.type = .voteYes ∨
          msg.rawMsg.type = .voteNo
    | _ => True := by
  unfold kindOf at hKind
  cases hType : msg.rawMsg.type with
  | pbc1 | pbc3 =>
      rw [hType] at hKind
      rcases Option.map_eq_some_iff.mp hKind with ⟨d, _, rfl⟩
      trivial
  | pbc2 | pbc4 | pi | share =>
      rw [hType] at hKind
      cases hKind
      rfl
  | prevYes | voteYes =>
      rw [hType] at hKind
      cases hKind
      exact .inl rfl
  | prevNo | voteNo =>
      rw [hType] at hKind
      cases hKind
      exact .inr rfl
  | halt =>
      rw [hType] at hKind
      cases hKind

/- An answer is for the party that it reaches. -/
theorem answer_for
    {type : MsgType}
    (hAnswers : Answers cfg s.log type packet)
    (hDest : packet.dest p = true) :
    HashOf cfg s.log packet.msg.rawMsg.loop p
        packet.msg.rawMsg.values ∧
      packet.msg.sign =
        some
          (sign cfg packet.src
            (cfg.marshal
              (cfg.rawMsg type p packet.msg.rawMsg.values
                packet.msg.rawMsg.loop))) := by
  rcases hAnswers with ⟨leader, hOnly, hHash, hSign⟩
  rw [hOnly p hDest]
  exact ⟨hHash, hSign⟩

include hDead

/- The input of a leader is taken. -/
theorem Deadlock.takes_pbc1
    (hAccepts : ∀ values, cfg.checkInput values = true)
    (hHere : (s.party p).loop = l)
    (hWait : ((s.party p).loops l).pbc c = .wait1)
    (hMem : packet ∈ s.log.sent)
    (hReaches : Reaches p (.pbc1 c) l packet) :
    (receiveLoop cfg p (s.party p) packet.msg).isSome := by
  rcases hReaches with ⟨_, hLoop, hKind⟩
  rcases kind_pbc1 hKind with ⟨hType, hIndex⟩
  subst hLoop
  unfold receiveLoop
  dsimp only
  rw [hType]
  dsimp only
  rw [hIndex, Option.bind_some]
  refine handlePBC1_isSome (hAccepts _) hWait ?_
  rcases hDead.honest.carried packet hMem hType with
    hZero | hCarries
  · unfold checkValues
    rw [if_pos hZero]
    rfl
  · refine hCarries.checkValues fun i hi => ?_
    refine (hDead.honest.strict p).coins trivial i ?_
    rw [hHere]
    exact hi

include hCombines hAggregates

/- A signature on the own input is taken. -/
theorem Deadlock.takes_pbc2
    {hash : Bytes} {signs : List Signature}
    (hp : Live s p)
    (hWait : ((s.party p).loops l).mine = .wait2 hash signs)
    (hMem : packet ∈ s.log.sent)
    (hReaches : Reaches p .pbc2 l packet) :
    (receiveLoop cfg p (s.party p) packet.msg).isSome := by
  rcases hReaches with ⟨hDest, hLoop, hKind⟩
  have hType : packet.msg.rawMsg.type = .pbc2 :=
    kind_plain hKind
  subst hLoop
  have hSays := (hDead.honest.valid packet hMem).2
  rw [hType] at hSays
  rcases answer_for hSays hDest with ⟨hFirst, hSign⟩
  have hMine := (hDead.loopValid hp).mine
  rw [hWait] at hMine
  have hSame :=
    hDead.honest.net.log.hash_unique hMine.1 hFirst
  unfold receiveLoop
  dsimp only
  rw [hType]
  exact
    handleMinePBC2_isSome hCombines hAggregates hWait hMine.2
      hSame (hSame ▸ hSign)

/- An answer to the own combined signature is taken. -/
theorem Deadlock.takes_pbc4
    {hash : Bytes} {signs : List Signature}
    (hp : Live s p)
    (hWait : ((s.party p).loops l).mine = .wait4 hash signs)
    (hMem : packet ∈ s.log.sent)
    (hReaches : Reaches p .pbc4 l packet) :
    (receiveLoop cfg p (s.party p) packet.msg).isSome := by
  rcases hReaches with ⟨hDest, hLoop, hKind⟩
  have hType : packet.msg.rawMsg.type = .pbc4 :=
    kind_plain hKind
  subst hLoop
  have hSays := (hDead.honest.valid packet hMem).2
  rw [hType] at hSays
  rcases answer_for hSays hDest with ⟨hFirst, hSign⟩
  have hMine := (hDead.loopValid hp).mine
  rw [hWait] at hMine
  have hSame :=
    hDead.honest.net.log.hash_unique hMine.1 hFirst
  unfold receiveLoop
  dsimp only
  rw [hType]
  exact
    handleMinePBC4_isSome hCombines hAggregates hWait hMine.2
      (hDead.loopValid hp).ok hSame (hSame ▸ hSign)

omit hCombines hAggregates in
/- The combined signature of a leader is taken. -/
theorem Deadlock.takes_pbc3
    {hash : Bytes} (hp : Live s p)
    (hWait : ((s.party p).loops l).pbc c = .wait3 hash)
    (hMem : packet ∈ s.log.sent)
    (hReaches : Reaches p (.pbc3 c) l packet) :
    (receiveLoop cfg p (s.party p) packet.msg).isSome := by
  rcases hReaches with ⟨_, hLoop, hKind⟩
  rcases kind_pbc3 hKind with ⟨hType, hIndex⟩
  subst hLoop
  have hSays := (hDead.honest.valid packet hMem).2
  have hSent := hDead.honest.net.log.sent packet hMem
  unfold SentOk at hSent
  dsimp only at hSays hSent
  rw [hType] at hSays hSent
  have hLeader := leader_of_names hSent.1 hIndex
  subst hLeader
  have hHash :=
    (hDead.loopValid hp).pbc packet.src hash
      (by rw [hWait]; rfl)
  have hSame :=
    hDead.honest.net.log.hash_unique hHash hSays.1
  unfold receiveLoop
  dsimp only
  rw [hType]
  dsimp only
  rw [hIndex, Option.bind_some]
  exact handlePBC3_isSome hWait hSame (hSame ▸ hSays.2)

/- A pi is taken. -/
theorem Deadlock.takes_pi
    (hp : Live s p)
    (hWait : ((s.party p).loops l).handlesPi = true)
    (hMem : packet ∈ s.log.sent)
    (hReaches : Reaches p .pi l packet) :
    (receiveLoop cfg p (s.party p) packet.msg).isSome := by
  rcases hReaches with ⟨_, hLoop, hKind⟩
  have hType : packet.msg.rawMsg.type = .pi :=
    kind_plain hKind
  subst hLoop
  have hSays := (hDead.honest.valid packet hMem).2
  have hSent := hDead.honest.net.log.sent packet hMem
  unfold SentOk at hSent
  dsimp only at hSays hSent
  rw [hType] at hSays hSent
  have hIndex :
      index n packet.msg.rawMsg.id = some packet.src := by
    rw [of_decide_eq_true hSent.1]
    exact index_self packet.src
  unfold receiveLoop
  dsimp only
  rw [hType]
  exact
    handlePi_isSome hCombines hAggregates hWait
      (hDead.loopValid hp).ok hIndex hSays.1 hSays.2

/- A share is taken. -/
theorem Deadlock.takes_share
    (hp : Live s p)
    (hWait : ((s.party p).loops l).handlesShare = true)
    (hMem : packet ∈ s.log.sent)
    (hReaches : Reaches p .share l packet) :
    (receiveLoop cfg p (s.party p) packet.msg).isSome := by
  rcases hReaches with ⟨_, hLoop, hKind⟩
  have hType : packet.msg.rawMsg.type = .share :=
    kind_plain hKind
  subst hLoop
  have hSays := (hDead.honest.valid packet hMem).2
  rw [hType] at hSays
  unfold receiveLoop
  dsimp only
  rw [hType]
  exact
    handleShare_isSome hCombines hAggregates hWait
      (hDead.loopValid hp).shares hSays.1 hSays.2

/- A prevote is taken. -/
theorem Deadlock.takes_prev
    {coin : Fin n} {yesFlag : Bool}
    {noCombins : List Signature} {prevCount : Nat}
    (hp : Live s p)
    (hWait :
      ((s.party p).loops l).finish =
        .prev coin yesFlag noCombins prevCount)
    (hMem : packet ∈ s.log.sent)
    (hReaches : Reaches p .prev l packet) :
    (receiveLoop cfg p (s.party p) packet.msg).isSome := by
  rcases hReaches with ⟨_, hLoop, hKind⟩
  have hTypes := kind_plain hKind
  subst hLoop
  have hSays := (hDead.honest.valid packet hMem).2
  have hHeld := (hDead.loopOk hp).finish
  have hFinish := (hDead.loopValid hp).finish
  rw [hWait] at hHeld hFinish
  unfold receiveLoop
  dsimp only
  rcases hTypes with hType | hType
  · rw [hType] at hSays ⊢
    rw [← hHeld.1] at hSays
    exact
      handlePrevYes_isSome hCombines hAggregates hWait hSays
  · rw [hType] at hSays ⊢
    exact
      handlePrevNo_isSome hCombines hAggregates hWait
        hFinish.2 hSays

/- A vote is taken. -/
theorem Deadlock.takes_vote
    {coin : Fin n} {yes no : List Signature}
    (hp : Live s p)
    (hWait :
      ((s.party p).loops l).finish = .vote coin yes no)
    (hMem : packet ∈ s.log.sent)
    (hReaches : Reaches p .vote l packet) :
    (receiveLoop cfg p (s.party p) packet.msg).isSome := by
  rcases hReaches with ⟨_, hLoop, hKind⟩
  have hTypes := kind_plain hKind
  subst hLoop
  have hLog := hDead.honest.net.log
  have hSays := (hDead.honest.valid packet hMem).2
  have hSent := hLog.sent packet hMem
  have hHeld := (hDead.loopOk hp).finish
  have hFinish := (hDead.loopValid hp).finish
  have hFew := (hDead.bounded p).vote coin yes no hWait
  rw [hWait] at hHeld hFinish
  unfold SentOk at hSent
  dsimp only at hSays hSent
  unfold receiveLoop
  dsimp only
  rcases hTypes with hType | hType
  · rw [hType] at hSays hSent ⊢
    rw [← hHeld.1] at hSays hSent
    exact
      handleVoteYes_isSome hCombines hAggregates hLog hWait
        hFinish hSent.1 hSays.1 hSays.2
  · rw [hType] at hSays ⊢
    exact
      handleVoteNo_isSome hCombines hAggregates hWait hFinish
        (by omega) hSays.1 hSays.2

end Takes

end Agreement

end SpeedingMVBA

end Jumbo
