import Jumbo.Lib.RouterProgress
import Jumbo.Routing.Rounds

/-
  The routers of the loops of one speeding MVBA.

  The router of a loop does not end with its loop: those of
  all loops started take messages from the one channel, and
  a message of a later loop goes from buffer to buffer.

  Main declarations:
    * `LoopChannel` and `loopChannel`
    * `loopRouting` and `loops`
    * `Delivered` and `LoopsRouted`
    * `loops_routed`
-/

------------------------------------------------------------
-- The Routers
------------------------------------------------------------

namespace Jumbo

namespace Routing

open Protocol

/- The channels of one loop. -/
inductive LoopChannel where
| pbc1 (id : Int32)
| pbc2
| pbc3 (id : Int32)
| pbc4
| pi
| share
| prev
| vote
deriving DecidableEq, Repr

section Messages

variable {α : Type*}

/- A halt goes past all loops. -/
def Msg.isHalt (m : Msg α) : Bool :=
  m.type = 11

/-
  The channel for a message of the loop. There is none for
  another type, and for a sender that there is not.
-/
def loopChannel (N : Nat) (m : Msg α) : Option LoopChannel :=
  if m.type = 1 then
    if 1 ≤ m.id.toInt ∧ m.id.toInt ≤ N then some (.pbc1 m.id)
    else none
  else if m.type = 2 then some .pbc2
  else if m.type = 3 then
    if 1 ≤ m.id.toInt ∧ m.id.toInt ≤ N then some (.pbc3 m.id)
    else none
  else if m.type = 4 then some .pbc4
  else if m.type = 5 then some .pi
  else if m.type = 6 then some .share
  else if m.type = 7 ∨ m.type = 8 then some .prev
  else if m.type = 9 ∨ m.type = 10 then some .vote
  else none

end Messages

/-
  `handle_loop_msg`. A message of an earlier round is dropped
  by every loop, as one below all of them; one of a later
  round panics, and so does one of the loop without channel.
-/
def loopRouting (α : Type*) (N round : Nat) :
    Routing (Msg α) where
  level m :=
    if m.round.toInt < round then -1 else m.loop.toInt
  express m := decide (round ≤ m.round.toInt) && m.isHalt
  panics l m :=
    decide (round < m.round.toInt) ||
      (decide (m.round.toInt = round) && !m.isHalt &&
        decide (m.loop.toInt = l) &&
          (loopChannel N m).isNone)
  drains := false
  stops := false
  halts := true

/- The routers of the loops of one round. -/
def loops (α : Type*) (N round : Nat) :
    Machine (RouterChain (Numbered (Msg α)))
      (ChainAction (Msg α)) :=
  chain (loopRouting α N round)

end Routing

end Jumbo

------------------------------------------------------------
-- What Reaches the Loops
------------------------------------------------------------

namespace Jumbo

namespace Routing

open Protocol
open RouterChain (Chained Placed Located Quiet Alive)

variable {α : Type*} {N round : Nat}

/- What is in a channel of a loop. -/
def channel
    (N : Nat) (c : RouterChain (Numbered (Msg α)))
    (l : Nat) (ch : LoopChannel) :
    List (Numbered (Msg α)) :=
  (c.handed l).filter fun m => loopChannel N m.msg = some ch

/- It is once in the channel for it, and in no other one. -/
def Delivered
    [DecidableEq α] (N : Nat) (c : RouterChain (Numbered (Msg α)))
    (m : Numbered (Msg α)) (l : Nat) : Prop :=
  ∃ ch,
    loopChannel N m.msg = some ch ∧
      (channel N c l ch).count m = 1 ∧
        ∀ l' ch', m ∈ channel N c l' ch' → l' = l ∧ ch' = ch

/- On the way to its loop. -/
def OnTheWay
    (c : RouterChain (Numbered (Msg α)))
    (m : Numbered (Msg α)) : Prop :=
  m ∈ c.input ∨
    (∃ l < c.rounds, m ∈ (c.routers l).hand) ∨
      ∃ l : Nat, (l : Int) ≤ m.msg.loop.toInt ∧
        m ∈ c.buffers l

/-
  Every message that has been handed on is in the channel of
  its type and its own loop, and once.
-/
structure LoopsRouted
    [DecidableEq α] (N round : Nat) (c : RouterChain (Numbered (Msg α))) :
    Prop where
  own :
    ∀ l ch, ∀ m ∈ channel N c l ch,
      m.msg.isHalt = false ∧ Delivered N c m l ∧
        m.msg.loop.toInt = l
  halt_own :
    ∀ m ∈ c.expressed,
      m.msg.isHalt = true ∧ c.expressed.count m = 1
  -- a message of a loop that has not ended
  kept :
    ∀ m ∈ c.arrived, m.msg.round.toInt = round →
      m.msg.isHalt = false →
        (c.firstOpen : Int) ≤ m.msg.loop.toInt →
          OnTheWay c m ∨
            ∃ l : Nat, m.msg.loop.toInt = l ∧
              Delivered N c m l
  halt_kept :
    ∀ m ∈ c.arrived, m.msg.round.toInt = round →
      m.msg.isHalt = true →
        OnTheWay c m ∨ c.expressed.count m = 1
  -- nothing that can still be taken further
  quiet :
    Quiet c → ∀ m ∈ c.arrived,
      m.msg.round.toInt = round →
        (m.msg.isHalt = false → c.switch = .running →
          m.msg.loop.toInt = c.firstOpen →
            Delivered N c m c.firstOpen) ∧
          (m.msg.isHalt = true → c.expressed.count m = 1)

/- No router panics at such messages. -/
def Known (N round : Nat) (m : Msg α) : Prop :=
  m.round.toInt = round ∧
    (m.isHalt = true ∨ (loopChannel N m).isSome = true)

section State

variable {c : RouterChain (Numbered (Msg α))}
variable {m : Numbered (Msg α)}

/- In its own round only a halt goes past the loops. -/
theorem express_of_round
    (hRound : m.msg.round.toInt = round) :
    (loopRouting α N round).numbered.express m =
      m.msg.isHalt := by
  simp [Routing.numbered, loopRouting, hRound]

/- In its own round a message goes to its loop. -/
theorem level_of_round
    (hRound : m.msg.round.toInt = round) :
    (loopRouting α N round).numbered.level m =
      m.msg.loop.toInt := by
  simp [Routing.numbered, loopRouting, hRound]

/- What is handed to a loop is its own. -/
theorem handed_own
    (hPlaced : Placed (loopRouting α N round).numbered c)
    {l : Nat} (hMem : m ∈ c.handed l) :
    m.msg.isHalt = false ∧ m.msg.loop.toInt = l ∧
      (loopChannel N m.msg).isSome = true := by
  have hOk : _ ∧ _ ∧ _ ∧ _ :=
    hPlaced.place (.handed l) m hMem
  rcases hOk with ⟨hSlow, hLevel, _, hPanics⟩
  have hLow : ¬ m.msg.round.toInt < round := by
    intro h
    simp only [Routing.numbered, loopRouting, if_pos h]
      at hLevel
    omega
  have hHigh : ¬ (round : Int) < m.msg.round.toInt := by
    intro h
    simp [Routing.numbered, loopRouting, h] at hPanics
  have hRound : m.msg.round.toInt = round := by omega
  rw [express_of_round hRound] at hSlow
  rw [level_of_round hRound] at hLevel
  refine ⟨hSlow, hLevel, ?_⟩
  rw [← Option.not_isNone, Bool.not_eq_true']
  simpa [Routing.numbered, loopRouting, hRound, hSlow,
    hLevel] using hPanics

/- A channel has the messages of its type. -/
theorem mem_channel_iff {l : Nat} {ch : LoopChannel} :
    m ∈ channel N c l ch ↔
      m ∈ c.handed l ∧ loopChannel N m.msg = some ch := by
  simp [channel]

/- Nothing is on the way at rest but to loops to come. -/
theorem later_of_quiet
    (hPlaced : Placed (loopRouting α N round).numbered c)
    (hQuiet : Quiet c)
    (hRound : m.msg.round.toInt = round)
    (hWay : OnTheWay c m) :
    (c.rounds : Int) ≤ m.msg.loop.toInt ∧
      m.msg.isHalt = false := by
  rcases hWay with h | ⟨l, hLt, h⟩ | ⟨l, hLevel, h⟩
  · rw [hQuiet.input] at h
    cases h
  · rw [hQuiet.select l hLt] at h
    cases h
  · have hOk : _ ∧ _ ∧ _ ∧ _ :=
      hPlaced.place (.buffer l) m h
    rcases hOk with ⟨hSlow, _, _, _⟩
    rw [express_of_round hRound] at hSlow
    refine ⟨?_, hSlow⟩
    by_contra hNot
    rw [hQuiet.buffers l (by omega)] at h
    cases h

/- A message that is known makes no router panic. -/
theorem Known.panics
    {m : Msg α} (hKnown : Known N round m) (l : Nat) :
    (loopRouting α N round).panics l m = false := by
  rcases hKnown with ⟨hRound, hHalt | hChannel⟩
  · simp [loopRouting, hRound, hHalt]
  · have hNone : (loopChannel N m).isNone = false := by
      rw [← Option.not_isSome, hChannel]
      rfl
    simp [loopRouting, hRound, hNone]

section Once

variable [DecidableEq α]

/- What is handed on has come for this loop. -/
theorem delivered_of_handed
    (hPlaced : Placed (loopRouting α N round).numbered c)
    (hLocated : Located c) {l : Nat}
    (hMem : m ∈ c.handed l) :
    Delivered N c m l := by
  rcases Option.isSome_iff_exists.mp
      (handed_own hPlaced hMem).2.2 with ⟨ch, hCh⟩
  refine ⟨ch, hCh, ?_, ?_⟩
  · unfold channel
    rw [List.count_filter (by simp [hCh])]
    exact hLocated.count_eq (.handed l) hMem
  · intro l' ch' hMem'
    rcases mem_channel_iff.mp hMem' with ⟨hHanded, hCh'⟩
    have hPlace :=
      hLocated.unique (.handed l') (.handed l) hHanded hMem
    rw [hCh] at hCh'
    exact ⟨by injection hPlace, (Option.some.inj hCh').symm⟩

/- Where a message is that has not been delivered. -/
theorem onTheWay_or
    (hPlaced : Placed (loopRouting α N round).numbered c)
    (hLocated : Located c)
    (hMem : m ∈ c.arrived)
    (hRound : m.msg.round.toInt = round) :
    OnTheWay c m ∨
      (∃ l, m ∈ c.handed l) ∨
        m ∈ c.expressed ∨
          m.msg.isHalt = false ∧
            m.msg.loop.toInt < c.firstOpen := by
  rcases hLocated.exists_place hMem with ⟨place, hPlace⟩
  have hOk := hPlaced.place place m hPlace
  cases place with
  | input => exact .inl (.inl hPlace)
  | held l => exact .inl (.inr (.inl ⟨l, hOk, hPlace⟩))
  | buffer l =>
      have hLevel := hOk.2.1
      rw [level_of_round hRound] at hLevel
      exact .inl (.inr (.inr ⟨l, hLevel, hPlace⟩))
  | handed l => exact .inr (.inl ⟨l, hPlace⟩)
  | expressed => exact .inr (.inr (.inl hPlace))
  | dropped =>
      rcases hOk with ⟨hSlow, hLevel⟩
      rw [express_of_round hRound] at hSlow
      rw [level_of_round hRound] at hLevel
      exact .inr (.inr (.inr ⟨hSlow, hLevel⟩))

/- The routing is right wherever the messages are in place. -/
theorem loopsRouted
    (hPlaced : Placed (loopRouting α N round).numbered c)
    (hLocated : Located c) :
    LoopsRouted N round c where
  own := by
    intro l ch m hMem
    have hHanded := (mem_channel_iff.mp hMem).1
    have hOwn := handed_own hPlaced hHanded
    exact
      ⟨hOwn.1, delivered_of_handed hPlaced hLocated hHanded,
        hOwn.2.1⟩
  halt_own := by
    intro m hMem
    have hExpress :
        (loopRouting α N round).numbered.express m = true :=
      hPlaced.place .expressed m hMem
    simp only [Routing.numbered, loopRouting,
      Bool.and_eq_true] at hExpress
    exact
      ⟨hExpress.2,
        hLocated.count_eq .expressed hMem⟩
  kept := by
    intro m hMem hRound hHalt hOpen
    rcases onTheWay_or hPlaced hLocated hMem hRound with
      hWay | ⟨l, hHanded⟩ | hExpressed | ⟨_, hLow⟩
    · exact .inl hWay
    · exact
        .inr ⟨l, (handed_own hPlaced hHanded).2.1,
          delivered_of_handed hPlaced hLocated hHanded⟩
    · have hExpress :
          (loopRouting α N round).numbered.express m = true :=
        hPlaced.place .expressed m hExpressed
      rw [express_of_round hRound, hHalt] at hExpress
      cases hExpress
    · omega
  halt_kept := by
    intro m hMem hRound hHalt
    rcases onTheWay_or hPlaced hLocated hMem hRound with
      hWay | ⟨l, hHanded⟩ | hExpressed | ⟨hNot, _⟩
    · exact .inl hWay
    · rw [(handed_own hPlaced hHanded).1] at hHalt
      cases hHalt
    · exact
        .inr (hLocated.count_eq .expressed
          hExpressed)
    · rw [hNot] at hHalt
      cases hHalt
  quiet := by
    intro hQuiet m hMem hRound
    have hCases := onTheWay_or hPlaced hLocated hMem hRound
    constructor
    · intro hHalt hRunning hLevel
      have hOpen : c.firstOpen = c.rounds - 1 := by
        simp only [RouterChain.firstOpen, hRunning]
      rcases hCases with
        hWay | ⟨l, hHanded⟩ | hExpressed | ⟨_, hLow⟩
      · have hLater :=
          (later_of_quiet hPlaced hQuiet hRound hWay).1
        have hPos := hPlaced.running hRunning
        omega
      · have hSame := (handed_own hPlaced hHanded).2.1
        have hEq : l = c.firstOpen := by omega
        rw [← hEq]
        exact delivered_of_handed hPlaced hLocated hHanded
      · have hExpress :
            (loopRouting α N round).numbered.express m =
              true :=
          hPlaced.place .expressed m hExpressed
        rw [express_of_round hRound, hHalt] at hExpress
        cases hExpress
      · omega
    · intro hHalt
      rcases hCases with
        hWay | ⟨l, hHanded⟩ | hExpressed | ⟨hNot, _⟩
      · rw [(later_of_quiet hPlaced hQuiet hRound hWay).2]
          at hHalt
        cases hHalt
      · rw [(handed_own hPlaced hHanded).1] at hHalt
        cases hHalt
      · exact
          hLocated.count_eq .expressed hExpressed
      · rw [hNot] at hHalt
        cases hHalt

/-
  In every run each message of the round is on the way to its
  loop, or there once. As long as the MVBA is not done the
  routers come to rest after a number of steps, and then all
  are there.
-/
theorem loops_routed
    (hReach : (loops α N round).Reachable c) :
    LoopsRouted N round c ∧
      (c.stopped = false →
        (∀ as c',
          (∀ a ∈ as, a.isRouter = true) →
            c.steps (loopRouting α N round).numbered as =
                some c' →
              as.length ≤ c.weight) ∧
          (0 < c.rounds →
            (∀ m ∈ c.arrived, Known N round m.msg) →
              (∀ a, a.isRouter = true →
                c.exec (loopRouting α N round).numbered a =
                  none) →
                Quiet c)) := by
  have hChained := RouterChain.chained hReach
  refine
    ⟨loopsRouted hChained.placed hChained.located,
      fun hRuns => ⟨fun as c' hRouter hSteps => ?_,
        fun hPos hKnown hStuck => ?_⟩⟩
  · exact
      RouterChain.length_le_weight hChained.placed rfl hRuns
        hRouter hSteps
  · refine
      RouterChain.quiet_of_stuck (RouterChain.alive hReach)
        (fun l => ?_) (fun l m hHolding => ?_) hPos hStuck
    · rw [RouterChain.told, hRuns]
      rfl
    · have hHeld : m ∈ c.contents (.held l) := by
        simp only [RouterChain.contents, hHolding,
          Router.hand, List.mem_singleton]
      exact
        (hKnown m (hChained.located.arrived _ hHeld)).panics l

end Once

end State

------------------------------------------------------------
-- A Message that Skips a Loop and an Unknown One
------------------------------------------------------------

/- A message of round 0 from party 1. -/
def loopMsg (type loop : Int32) : Msg Unit :=
  ⟨1, 0, type, loop, ()⟩

/-
  The router of loop 0 takes a message of loop 1 and a halt
  while loop 1 is running.
-/
def passedRun : List (ChainAction (Msg Unit)) :=
  startRound ++ [.act .close] ++ startRound ++
    [.arrive (loopMsg 5 1), .arrive (loopMsg 11 3)] ++
      fromInput 0 ++ fromInput 0 ++ fromBuffer 1 ++
        [.act (.check 0), .act (.check 1)]

/- A message of the next loop and a halt are routed. -/
def passedChain : RouterChain (Numbered (Msg Unit)) :=
  (loops Unit 4 0).drive (fun _ _ => true) RouterChain.new
    passedRun

theorem loops_routed_passed :
    LoopsRouted 4 0 passedChain ∧
      passedChain.stopped = false ∧
        channel 4 passedChain 1 .pi = [⟨0, loopMsg 5 1⟩] ∧
          passedChain.expressed = [⟨1, loopMsg 11 3⟩] := by
  have hReach : (loops Unit 4 0).Reachable passedChain :=
    Machine.reachable_drive _ passedRun
  exact
    ⟨(loops_routed hReach).1, by decide +kernel,
      by decide +kernel, by decide +kernel⟩

/- A message of type 12 for the loop that is running. -/
def unknownRun : List (ChainAction (Msg Unit)) :=
  startRound ++ [.arrive (loopMsg 12 0), .act (.check 0),
    .act (.readInput 0)]

/- The router of loop 0 holds a message without a channel. -/
def unknownChain : RouterChain (Numbered (Msg Unit)) :=
  (loops Unit 4 0).drive (fun _ _ => true) RouterChain.new
    unknownRun

/- No other router runs. -/
theorem unknownChain_routers (r : Nat) :
    unknownChain.routers r =
      if r = 0 then .holding ⟨0, loopMsg 12 0⟩
      else .absent := by
  cases r with
  | zero => rfl
  | succ r => rfl

/- Its router panics, so it is never delivered. -/
theorem unknown_type_stays :
    (loops Unit 4 0).Reachable unknownChain ∧
      (∀ a, a.isRouter = true →
        unknownChain.exec (loopRouting Unit 4 0).numbered a =
          none) ∧
        ∃ m ∈ unknownChain.arrived,
          m.msg.round.toInt = 0 ∧ m.msg.isHalt = false ∧
            unknownChain.switch = .running ∧
              m.msg.loop.toInt = unknownChain.firstOpen ∧
                ¬ Delivered 4 unknownChain m 0 := by
  refine
    ⟨Machine.reachable_drive _ unknownRun, ?_,
      ⟨0, loopMsg 12 0⟩, by decide +kernel, rfl, rfl, rfl,
      rfl, ?_⟩
  · intro a hRouter
    cases a with
    | next | drain | start | close | stop => cases hRouter
    | check r | quit r | readInput r | readBuffer r =>
        simp only [RouterChain.exec, unknownChain_routers r]
        split_ifs <;> rfl
    | forward r =>
        simp only [RouterChain.exec, unknownChain_routers r]
        by_cases hr : r = 0
        · subst hr
          rfl
        · rw [if_neg hr]
  · rintro ⟨ch, hChannel, _⟩
    cases hChannel

end Routing

end Jumbo
