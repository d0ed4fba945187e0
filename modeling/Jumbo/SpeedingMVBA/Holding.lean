import Jumbo.SpeedingMVBA.Sent

/-
  What a party holds in a loop, against the log.

  Values are held for a party that has started the loop with
  them, a combined signature is one of enough parties, and
  what is counted has been handled. A party that has sent a
  message is past the place where it sends it, so it sends it
  once and never both of two messages that clash.

  Main declarations:
    * `LoopOk` and `PartyOk`
    * `Later` and `Past`
    * `Sends` and `LoopStep`
    * `LoopStep.stay`
-/

------------------------------------------------------------
-- The Invariant
------------------------------------------------------------

namespace Jumbo

namespace SpeedingMVBA

namespace Agreement

open Crypto (Bytes)
open Protocol
open Struct

variable {n : Nat}

/-
  What is stored for a leader, values and signature, where
  `handle_PBC` is.
-/
def PbcOk
    (log : Log n) (l : Nat) (c : Fin n) (values : Bytes)
    (sigma : BatchSignature) : PBC → Prop
| .send2 _ | .wait3 _ => Input log l c values
| .send4 _ => Many n sigma
| _ => True

/- What is stored where `handle_mine_PBC` is. -/
def MineOk
    (id : Fin n) (log : Log n) (l : Nat)
    (sigma : BatchSignature) : MinePBC → Prop
| .send3 _ batch => Many n batch ∧ Many n sigma
| .wait4 _ signs =>
    signs.length ≤ log.tally id .handled (isShare id l) ∧
      id ∈ log.senders Packet.src (isRelease id l)
| _ => True

/- What is counted where `handle_finish` is. -/
def FinishOk
    (cfg : Config n) (id : Fin n) (log : Log n) (l : Nat)
    (inputs : Fin n → Bytes) (sigmas : Fin n → BatchSignature)
    (lastinput : Bytes) : Finish n → Prop
| .prev coin yesFlag no count =>
    coin = cfg.coin l ∧
      (yesFlag = true → Many n (sigmas coin)) ∧
        (yesFlag = false →
          count < no.length ∧
            no.length ≤
              log.tally id .handled (isKind .prevNo l))
| .vote coin yes no =>
    coin = cfg.coin l ∧
      yes.length ≤
          log.tally id .handled (isKind .voteYes l) ∧
        no.length ≤
            log.tally id .handled (isKind .voteNo l) ∧
          (yes ≠ [] → Input log l coin (inputs coin))
| .next => Input log (l + 1) id lastinput
| _ => True

/-
  What a party holds in a loop has been sent, with as many
  signatures as it should have.
-/
structure LoopOk
    (cfg : Config n) (id : Fin n) (log : Log n) (l : Nat)
    (li : LoopInfo n) : Prop where
  own : Input log l id (li.inputs id)
  input :
    ∀ c, li.inputs c = [] ∨ Input log l c (li.inputs c)
  sigma :
    ∀ c, li.sigmas c = ⟨[], []⟩ ∨
      (Many n (li.sigmas c) ∧ Input log l c (li.inputs c))
  pi :
    ∀ c, li.pis c = ⟨[], []⟩ ∨
      (Quorum log (isRelease c l) ∧
        Input log l c (li.inputs c))
  ownPbc : li.pbc id = .done
  pbc :
    ∀ c, PbcOk log l c (li.inputs c) (li.sigmas c) (li.pbc c)
  mine : MineOk id log l (li.sigmas id) li.mine
  coin :
    ∀ c, li.coinReady = some c →
      c = cfg.coin l ∧ li.pbcDone = true
  first : li.firstShare = false → li.pbcDone = true
  finish :
    FinishOk cfg id log l li.inputs li.sigmas li.lastinput
      li.finish

/-
  All loops that were started are in order, one after
  another.
-/
structure PartyOk
    (cfg : Config n) (id : Fin n) (log : Log n)
    (m : MVBA n) : Prop where
  loops : ∀ l < m.started, LoopOk cfg id log l (m.loops l)
  ahead : m.loop ≤ m.started ∧ m.started ≤ m.loop + 1
  left :
    ∀ l < m.started,
      (m.loops l).finish = .next ↔ l < m.loop
  outputs : ∀ msg ∈ m.outputs, HaltOk cfg log msg
  halt :
    ∀ msg, m.halt = .stored msg →
      msg.rawMsg.type = .halt ∧ HaltOk cfg log msg

/- A log that has grown, as the party `id` sees it. -/
structure Grows (id : Fin n) (log log' : Log n) : Prop where
  sent : log.sent ⊆ log'.sent
  held :
    ∀ P, log.tally id .handled P ≤ log'.tally id .handled P

/- A party has handled one more message. -/
structure Moved
    (id : Fin n) (log log' : Log n) (packet : Packet n) :
    Prop extends Grows id log log' where
  same : log'.sent = log.sent
  mem : packet ∈ log'.sent
  more :
    ∀ P, P packet = true →
      log.tally id .handled P + 1 ≤
        log'.tally id .handled P

/- The log after a party has sent messages. -/
abbrev posted
    (log : Log n) (id : Fin n) (sent : List (Packet n)) :
    Log n :=
  log.postAll id .handled .queued sent

end Agreement

end SpeedingMVBA

end Jumbo

------------------------------------------------------------
-- What Is Never Taken Back
------------------------------------------------------------

namespace Jumbo

namespace SpeedingMVBA

namespace Agreement

open Crypto (Bytes)
open Protocol

variable {n : Nat}

/- How far `handle_finish` is. -/
def rank : Finish n → Nat
| .coin => 0
| .prev .. => 1
| .vote .. => 2
| _ => 3

/- `handle_mine_PBC` is past its combined signature. -/
def tried3 : MinePBC → Bool
| .wait2 .. => false
| .send3 .. => false
| _ => true

/- A later state of a loop. -/
structure Later (li li' : LoopInfo n) : Prop where
  rank : rank li.finish ≤ rank li'.finish
  pbcDone : li.pbcDone = true → li'.pbcDone = true
  mine : tried3 li.mine = true → tried3 li'.mine = true
  pbc : ∀ c, li.pbc c = .done → li'.pbc c = .done
  sigmas : ∀ c, Many n (li.sigmas c) → Many n (li'.sigmas c)

/- Where a party is once it has sent a message. -/
def Past (id : Fin n) (m : MVBA n) (packet : Packet n) :
    Prop :=
  let l := packet.msg.rawMsg.loop
  let li := m.loops l
  match packet.msg.rawMsg.type with
  | .pbc1 =>
      0 < m.started ∧
        ∀ k, l = k + 1 →
          k < m.started ∧ 3 ≤ rank (m.loops k).finish
  | .pbc3 =>
      l < m.started ∧ names id packet = true ∧
        tried3 li.mine = true ∧ Many n (li.sigmas id)
  | .pbc4 =>
      l < m.started ∧
        ∃ c, names c packet = true ∧ c ≠ id ∧
          li.pbc c = .done ∧ Many n (li.sigmas c)
  | .prevNo =>
      l < m.started ∧ li.pbcDone = true ∧
        1 ≤ rank li.finish
  | .voteYes | .voteNo =>
      l < m.started ∧ 2 ≤ rank li.finish
  | _ => True

/- A message that the party `id` sends in a step. -/
structure Sends
    (cfg : Config n) (id : Fin n) (log : Log n)
    (m m' : MVBA n) (packet : Packet n) : Prop where
  src : packet.src = id
  ok : SentOk cfg log packet
  past : Past id m' packet
  fresh :
    ∀ old, old.src = id → Past id m old →
      ¬ Clash cfg old packet

/- The party stays in its loop, or leaves it for the next. -/
def Turn (m : MVBA n) (l : Nat) (m' : MVBA n) : Prop :=
  (m'.loop = m.loop ∧
      ((m'.loops l).finish = .next ↔
        (m.loops l).finish = .next)) ∨
    (m'.loop = m.loop + 1 ∧ (m.loops l).finish ≠ .next ∧
      (m'.loops l).finish = .next)

/- A step in the loop `l`. -/
structure LoopStep
    (cfg : Config n) (id : Fin n) (log : Log n)
    (m : MVBA n) (l : Nat) (m' : MVBA n)
    (sent : List (Packet n)) : Prop where
  started : m'.started = m.started
  loops : ∀ k, k ≠ l → m'.loops k = m.loops k
  ok :
    LoopOk cfg id (posted log id sent) l (m'.loops l)
  later : Later (m.loops l) (m'.loops l)
  turn : Turn m l m'
  halt : m'.halt = m.halt
  outputs :
    ∀ msg ∈ m'.outputs, msg ∈ m.outputs ∨ HaltOk cfg log msg
  few : sent.length ≤ 1
  sent : ∀ packet ∈ sent, Sends cfg id log m m' packet

end Agreement

end SpeedingMVBA

end Jumbo

------------------------------------------------------------
-- Growing Logs
------------------------------------------------------------

namespace Jumbo

namespace SpeedingMVBA

namespace Agreement

open Crypto (Bytes)
open Protocol
open Struct

variable {n : Nat} {cfg : Config n} {id : Fin n}
variable {log log' : Log n} {l : Nat} {li : LoopInfo n}

/- Posting keeps what was sent. -/
theorem sent_posted (src : Fin n) (sent : List (Packet n)) :
    log.sent ⊆ (posted log src sent).sent := by
  rw [BroadcastLog.postAll_sent]
  exact List.subset_append_left _ _

/- Whoever sends, nothing handled is taken away. -/
theorem grows_from (src : Fin n) (sent : List (Packet n)) :
    Grows id log (posted log src sent) where
  sent := sent_posted src sent
  held := fun P =>
    log.tally_le_postAll src id .handled .queued .handled sent
      P

/- Posting only adds to the log. -/
theorem grows_posted (sent : List (Packet n)) :
    Grows id log (posted log id sent) :=
  grows_from id sent

/- What is posted was sent. -/
theorem mem_posted
    {sent : List (Packet n)} {packet : Packet n}
    (hMem : packet ∈ sent) :
    packet ∈ (posted log id sent).sent := by
  rw [BroadcastLog.postAll_sent]
  exact List.mem_append_right _ hMem

/- So its sender is among the senders. -/
theorem mem_senders_posted
    {sent : List (Packet n)} {packet : Packet n}
    {P : Packet n → Bool}
    (hMem : packet ∈ sent) (hSrc : packet.src = id)
    (hP : P packet = true) :
    id ∈ (posted log id sent).senders Packet.src P := by
  rw [BroadcastLog.mem_senders_iff]
  exact ⟨packet, mem_posted hMem, hP, hSrc⟩

/- Weaken what is known about a broadcast. -/
theorem PbcOk.imp
    {c : Fin n} {values values' : Bytes}
    {sigma sigma' : BatchSignature} {pbc : PBC}
    (hPbc : PbcOk log l c values sigma pbc)
    (hInput : Input log l c values → Input log' l c values')
    (hMany : Many n sigma → Many n sigma') :
    PbcOk log' l c values' sigma' pbc := by
  cases pbc with
  | wait1 | done => trivial
  | send2 hash | wait3 hash => exact hInput hPbc
  | send4 hash => exact hMany hPbc

/- Weaken what is known about the own broadcast. -/
theorem MineOk.imp
    {sigma sigma' : BatchSignature} {mine : MinePBC}
    (hMine : MineOk id log l sigma mine)
    (hGrows : Grows id log log')
    (hMany : Many n sigma → Many n sigma') :
    MineOk id log' l sigma' mine := by
  cases mine with
  | wait2 hash signs => trivial
  | send3 hash batch => exact ⟨hMine.1, hMany hMine.2⟩
  | wait4 hash signs =>
      exact
        ⟨hMine.1.trans (hGrows.held _),
          senders_mono hGrows.sent _ hMine.2⟩
  | done => trivial

/- Weaken what is known about the votes. -/
theorem FinishOk.imp
    {inputs inputs' : Fin n → Bytes}
    {sigmas sigmas' : Fin n → BatchSignature}
    {lastinput : Bytes} {finish : Finish n}
    (hFinish :
      FinishOk cfg id log l inputs sigmas lastinput finish)
    (hGrows : Grows id log log')
    (hInput :
      ∀ c, Input log l c (inputs c) →
        Input log' l c (inputs' c))
    (hMany : ∀ c, Many n (sigmas c) → Many n (sigmas' c)) :
    FinishOk cfg id log' l inputs' sigmas' lastinput
      finish := by
  cases finish with
  | coin | done => trivial
  | prev coin yesFlag no count =>
      rcases hFinish with ⟨hCoin, hYes, hNo⟩
      refine
        ⟨hCoin, fun h => hMany coin (hYes h), fun h => ?_⟩
      rcases hNo h with ⟨hCount, hLe⟩
      exact ⟨hCount, hLe.trans (hGrows.held _)⟩
  | vote coin yes no =>
      rcases hFinish with ⟨hCoin, hYes, hNo, hHeld⟩
      exact
        ⟨hCoin, hYes.trans (hGrows.held _),
          hNo.trans (hGrows.held _),
          fun hSome => hInput coin (hHeld hSome)⟩
  | next => exact Input.mono hFinish hGrows.sent

theorem grows_rfl : Grows id log log :=
  ⟨fun _ h => h, fun _ => Nat.le_refl _⟩

/- More messages keep a loop in order. -/
theorem LoopOk.mono
    (hOk : LoopOk cfg id log l li)
    (hGrows : Grows id log log') :
    LoopOk cfg id log' l li where
  own := hOk.own.mono hGrows.sent
  input := fun c =>
    (hOk.input c).imp_right fun h => h.mono hGrows.sent
  sigma := fun c =>
    (hOk.sigma c).imp_right fun h =>
      ⟨h.1, h.2.mono hGrows.sent⟩
  pi := fun c =>
    (hOk.pi c).imp_right fun h =>
      ⟨h.1.mono hGrows.sent, h.2.mono hGrows.sent⟩
  ownPbc := hOk.ownPbc
  pbc := fun c =>
    (hOk.pbc c).imp (fun h => h.mono hGrows.sent) fun h => h
  mine := hOk.mine.imp hGrows fun h => h
  coin := hOk.coin
  first := hOk.first
  finish :=
    hOk.finish.imp hGrows (fun _ h => h.mono hGrows.sent)
      fun _ h => h

/- More messages keep a party in order. -/
theorem PartyOk.mono
    {m : MVBA n}
    (hOk : PartyOk cfg id log m)
    (hGrows : Grows id log log') :
    PartyOk cfg id log' m where
  loops := fun k hk => (hOk.loops k hk).mono hGrows
  ahead := hOk.ahead
  left := hOk.left
  outputs := fun msg hMem =>
    (hOk.outputs msg hMem).mono hGrows.sent
  halt := fun msg hStored =>
    ⟨(hOk.halt msg hStored).1,
      (hOk.halt msg hStored).2.mono hGrows.sent⟩

end Agreement

end SpeedingMVBA

end Jumbo

------------------------------------------------------------
-- Fields of a Loop
------------------------------------------------------------

namespace Jumbo

namespace SpeedingMVBA

namespace Agreement

open Crypto (Bytes)
open Protocol
open Struct

variable {n : Nat} {cfg : Config n} {id : Fin n}
variable {log : Log n} {l : Nat} {li : LoopInfo n}

/- The place of `handle_PBC` for one leader. -/
theorem LoopOk.setPbc
    (hOk : LoopOk cfg id log l li) {c : Fin n} {pbc : PBC}
    (hOwn : c = id → pbc = .done)
    (hPbc :
      PbcOk log l c (li.inputs c) (li.sigmas c) pbc) :
    LoopOk cfg id log l
      { li with pbc := Function.update li.pbc c pbc } :=
  { hOk with
    ownPbc := by
      by_cases hEq : id = c
      · subst hEq
        simpa using hOwn rfl
      · simpa [Function.update_of_ne hEq] using hOk.ownPbc
    pbc := by
      intro c'
      by_cases hEq : c' = c
      · subst hEq
        simpa using hPbc
      · simpa [Function.update_of_ne hEq] using hOk.pbc c' }

/- Values are stored that a party has started with. -/
theorem LoopOk.setInput
    (hOk : LoopOk cfg id log l li) {c : Fin n}
    {values : Bytes} (hInput : Input log l c values) :
    LoopOk cfg id log l
      { li with inputs := Function.update li.inputs c values }
    := by
  have hStays :
      ∀ c', Input log l c' (li.inputs c') →
        Input log l c'
          (Function.update li.inputs c values c') := by
    intro c' hOld
    by_cases hEq : c' = c
    · subst hEq
      rw [Function.update_self]
      exact hInput
    · rw [Function.update_of_ne hEq]
      exact hOld
  refine
    { hOk with
      own := hStays id hOk.own
      input := fun c' => ?_
      sigma := fun c' =>
        (hOk.sigma c').imp_right fun h => ⟨h.1, hStays c' h.2⟩
      pi := fun c' =>
        (hOk.pi c').imp_right fun h => ⟨h.1, hStays c' h.2⟩
      pbc := fun c' => (hOk.pbc c').imp (hStays c') fun h => h
      finish :=
        hOk.finish.imp grows_rfl hStays fun _ h => h }
  by_cases hEq : c' = c
  · subst hEq
    right
    dsimp only
    rw [Function.update_self]
    exact hInput
  · dsimp only
    rw [Function.update_of_ne hEq]
    exact hOk.input c'

/- A combined signature is stored beside its values. -/
theorem LoopOk.setSigma
    (hOk : LoopOk cfg id log l li) {c : Fin n}
    {batch : BatchSignature} (hMany : Many n batch)
    (hInput : Input log l c (li.inputs c)) :
    LoopOk cfg id log l
      { li with sigmas := Function.update li.sigmas c batch }
    := by
  have hStays :
      ∀ c', Many n (li.sigmas c') →
        Many n (Function.update li.sigmas c batch c') := by
    intro c' hOld
    by_cases hEq : c' = c
    · subst hEq
      rw [Function.update_self]
      exact hMany
    · rw [Function.update_of_ne hEq]
      exact hOld
  refine
    { hOk with
      sigma := fun c' => ?_
      pbc := fun c' => (hOk.pbc c').imp (fun h => h) (hStays c')
      mine := hOk.mine.imp grows_rfl (hStays id)
      finish :=
        hOk.finish.imp grows_rfl (fun _ h => h) hStays }
  by_cases hEq : c' = c
  · subst hEq
    right
    dsimp only
    rw [Function.update_self]
    exact ⟨hMany, hInput⟩
  · dsimp only
    rw [Function.update_of_ne hEq]
    exact hOk.sigma c'

/- A certificate pi is stored beside its values. -/
theorem LoopOk.setPi
    (hOk : LoopOk cfg id log l li) {c : Fin n}
    (batch : BatchSignature)
    (hQuorum : Quorum log (isRelease c l))
    (hInput : Input log l c (li.inputs c)) :
    LoopOk cfg id log l
      { li with pis := Function.update li.pis c batch } :=
  { hOk with
    pi := by
      intro c'
      by_cases hEq : c' = c
      · subst hEq
        exact .inr ⟨hQuorum, hInput⟩
      · dsimp only
        rw [Function.update_of_ne hEq]
        exact hOk.pi c' }

/- The values stored where a signature or certificate is. -/
theorem LoopOk.input_of_many
    (hOk : LoopOk cfg id log l li) {c : Fin n}
    (hMany : Many n (li.sigmas c)) :
    Input log l c (li.inputs c) := by
  rcases hOk.sigma c with hNone | ⟨_, hInput⟩
  · rw [hNone] at hMany
    exact absurd hMany (Nat.not_lt_zero _)
  · exact hInput

end Agreement

end SpeedingMVBA

end Jumbo
