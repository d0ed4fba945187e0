import Jumbo.Lib.RouterDrains

/-
  Chains of routers whose channels have a bound. A step that
  puts a message into a full channel is not taken before
  there is room. As long as no put fills a buffer only the
  channels out of the chain can make a router wait, and a
  router that waits for them holds a message of its own
  round.

  Main declarations:
    * `RouterChain.puts`
    * `RouterChain.execBounded`
    * `RouterChain.Roomy`
    * `RouterChain.Resting` and `resting_of_stuck`
-/

------------------------------------------------------------
-- Steps that Wait for Room
------------------------------------------------------------

namespace Protocol

variable {M : Type*}

namespace RouterChain

/- Where a router puts a message; others are dropped. -/
def destination
    (cfg : Routing M) (r : Nat) (m : M) : Option Place :=
  if cfg.express m then some .expressed
  else if (r : Int) < cfg.level m then some (.buffer (r + 1))
  else if cfg.level m = r then some (.handed r)
  else none

/- The message that a step puts, and the channel it is for. -/
def puts
    (cfg : Routing M) (c : RouterChain M) :
    RouterAction → Option (Place × M)
| .drain =>
    match c.rounds with
    | 0 => none
    | r + 1 =>
        (c.buffers r).head?.bind fun m =>
          if ((r + 1 : Nat) : Int) ≤ cfg.level m then
            some (.buffer (r + 1), m)
          else none
| .forward r =>
    match c.routers r with
    | .holding m => (destination cfg r m).map (·, m)
    | _ => none
| _ => none

/- A step into one of the full channels waits. -/
def waits
    (cfg : Routing M) (full : Place → M → Bool)
    (c : RouterChain M) (a : RouterAction) : Bool :=
  (c.puts cfg a).any fun (place, m) => full place m

/- A step that would have to wait for room is not taken. -/
def execBounded
    (cfg : Routing M) (full : Place → M → Bool)
    (c : RouterChain M) (a : RouterAction) :
    Option (RouterChain M) :=
  if c.waits cfg full a then none else c.exec cfg a

/- Does a put leave room for one more in its buffer? -/
def leavesRoom
    (cfg : Routing M) (bound : Nat) (c : RouterChain M)
    (a : RouterAction) : Bool :=
  match c.puts cfg a with
  | some (.buffer r, _) =>
      decide ((c.buffers r).length + 1 < bound)
  | _ => true

/- There is room in every buffer. -/
def Roomy (bound : Nat) (c : RouterChain M) : Prop :=
  ∀ r, (c.buffers r).length < bound

section Step

variable {cfg : Routing M} {c c' : RouterChain M}
variable {a : RouterAction} {bound : Nat}

/- At the start there is room in every buffer. -/
theorem roomy_new (hPos : 0 < bound) :
    Roomy bound (new : RouterChain M) :=
  fun _ => hPos

/- Taking a message makes room. -/
theorem Roomy.take
    (hRoomy : Roomy bound c) {r : Nat} {m : M}
    {rest : List M} (hBuffer : c.buffers r = m :: rest)
    (r' : Nat) :
    (Function.update c.buffers r rest r').length < bound := by
  by_cases hEq : r' = r
  · subst hEq
    have hBefore := hRoomy r'
    rw [hBuffer, List.length_cons] at hBefore
    rw [Function.update_self]
    omega
  · rw [Function.update_of_ne hEq]
    exact hRoomy r'

/-
  A push into a buffer with room for two leaves room for
  one.
-/
theorem length_push
    {f : Nat → List M} {r : Nat} {m : M}
    (hAll : ∀ r', (f r').length < bound)
    (hRoom : (f r).length + 1 < bound) (r' : Nat) :
    (push f r m r').length < bound := by
  unfold push
  by_cases hEq : r' = r
  · subst hEq
    rw [Function.update_self, List.length_append]
    exact hRoom
  · rw [Function.update_of_ne hEq]
    exact hAll r'

/- No put that leaves room fills a buffer. -/
theorem Roomy.step
    (hRoomy : Roomy bound c) (hStep : Step cfg c a c')
    (hOk : c.leavesRoom cfg bound a = true) :
    Roomy bound c' := by
  cases hStep with
  | next | start | close | stop | check | quit
  | readInput => exact hRoomy
  | readBuffer r m rest _ hBuffer =>
      exact fun r' => hRoomy.take hBuffer r'
  | drainDrop r left m rest _ _ hBuffer =>
      exact fun r' => hRoomy.take hBuffer r'
  | drainKeep r left m rest _ hRounds hBuffer hLevel =>
      intro r'
      refine length_push (hRoomy.take hBuffer) ?_ r'
      simp only [leavesRoom, puts, hRounds, hBuffer,
        List.head?_cons, Option.bind_some, if_pos hLevel,
        decide_eq_true_eq] at hOk
      rw [Function.update_of_ne (Nat.succ_ne_self r)]
      exact hOk
  | forward r m hHolding =>
      intro r'
      change ((c.pass cfg r m).buffers r').length < bound
      unfold pass
      by_cases hExpress : cfg.express m = true
      · rw [if_pos hExpress]
        exact hRoomy r'
      · rw [if_neg hExpress]
        by_cases hLater : (r : Int) < cfg.level m
        · rw [if_pos hLater]
          refine length_push hRoomy ?_ r'
          simpa only [leavesRoom, puts, hHolding, destination,
            if_neg hExpress, if_pos hLater, Option.map_some,
            decide_eq_true_eq] using hOk
        · rw [if_neg hLater]
          split <;> exact hRoomy r'

/- The goroutine that empties the buffer finds room. -/
def Drains
    (cfg : Routing M) (full : Place → M → Bool)
    (c : RouterChain M) : Prop :=
  ∀ left, c.switch = .draining (left + 1) →
    (c.execBounded cfg full .drain).isSome = true

/- With room in the next buffer, draining goes on. -/
theorem Drained.drains
    (hDrained : Drained cfg c) {full : Place → M → Bool}
    (hRoom : ∀ r m, full (.buffer r) m = false) :
    Drains cfg full c := by
  intro left hDraining
  have hLength := hDrained.length _ hDraining
  cases hRounds : c.rounds with
  | zero =>
      simp only [oldLength, hRounds] at hLength
      omega
  | succ r =>
      rw [oldLength_of_rounds hRounds] at hLength
      cases hBuffer : c.buffers r with
      | nil =>
          simp only [hBuffer, List.length_nil] at hLength
          omega
      | cons m rest =>
          have hNot : c.waits cfg full .drain = false := by
            simp only [waits, puts, hRounds, hBuffer,
              List.head?_cons, Option.bind_some]
            split
            · exact hRoom _ _
            · rfl
          rw [execBounded, hNot]
          simp only [Bool.false_eq_true, if_false, exec,
            hDraining, hRounds, drain, hBuffer,
            Option.isSome_some]

end Step

end RouterChain

------------------------------------------------------------
-- Routers that Can Do No More
------------------------------------------------------------

namespace RouterChain

variable {cfg : Routing M} {c : RouterChain M} {r : Nat}

/-
  Nothing is left for the router of round `r`, and another
  one only waits to hand on a message of its own round.
-/
structure Resting
    (cfg : Routing M) (c : RouterChain M) (r : Nat) :
    Prop where
  input : c.input = []
  buffer : c.buffers r = []
  hands :
    ∀ r', ∀ m ∈ (c.routers r').hand,
      cfg.express m = false ∧ cfg.level m = r' ∧ r' ≠ r

/-
  When no router can take a step and neither the buffers nor
  the channels of the last round and of the messages passed
  on at once are full.
-/
theorem resting_of_stuck
    {full : Place → M → Bool}
    (hAlive : Alive cfg c) (hRounds : c.rounds = r + 1)
    (hTold : c.told cfg r = false)
    (hPanics :
      ∀ r m, c.routers r = .holding m →
        cfg.panics r m = false)
    (hBuffers : ∀ r m, full (.buffer r) m = false)
    (hExpressed : ∀ m, full .expressed m = false)
    (hHanded : ∀ m, full (.handed r) m = false)
    (hStuck :
      ∀ a, a.isRouter = true →
        c.execBounded cfg full a = none) :
    Resting cfg c r := by
  have hFree :
      ∀ a, a.isRouter = true →
        c.waits cfg full a = false → c.exec cfg a = none := by
    intro a hRouter hNot
    have hNone := hStuck a hRouter
    rw [execBounded, hNot] at hNone
    exact hNone
  have hHands :
      ∀ r' m, c.routers r' = .holding m →
        cfg.express m = false ∧ cfg.level m = r' ∧
          r' ≠ r := by
    intro r' m hHolding
    have hWaits : c.waits cfg full (.forward r') = true := by
      by_contra hNot
      have hNone :=
        hFree (.forward r') rfl (Bool.eq_false_iff.mpr hNot)
      simp only [exec, hHolding, hPanics r' m hHolding,
        Bool.false_eq_true, if_false] at hNone
      cases hNone
    simp only [waits, puts, hHolding, destination] at hWaits
    split_ifs at hWaits with hExpress hLater hSame
    · rw [Option.map_some, Option.any_some,
        hExpressed] at hWaits
      cases hWaits
    · rw [Option.map_some, Option.any_some,
        hBuffers] at hWaits
      cases hWaits
    · refine ⟨Bool.eq_false_iff.mpr hExpress, hSame, ?_⟩
      rintro rfl
      rw [Option.map_some, Option.any_some, hHanded] at hWaits
      cases hWaits
    · cases hWaits
  have hThere := hAlive r (by omega)
  have hSelect : c.routers r = .select := by
    cases hRouter : c.routers r with
    | absent => exact absurd hRouter hThere.1
    | top =>
        have hNone := hFree (.check r) rfl rfl
        simp only [exec, hRouter] at hNone
        cases hNone
    | select => rfl
    | holding m => exact absurd rfl (hHands r m hRouter).2.2
    | returned =>
        have hYes := hThere.2 hRouter
        rw [hTold] at hYes
        cases hYes
  refine ⟨?_, ?_, ?_⟩
  · cases hInput : c.input with
    | nil => rfl
    | cons m rest =>
        have hNone := hFree (.readInput r) rfl rfl
        simp only [exec, hSelect, hInput] at hNone
        cases hNone
  · cases hBuffer : c.buffers r with
    | nil => rfl
    | cons m rest =>
        have hNone := hFree (.readBuffer r) rfl rfl
        simp only [exec, hSelect, hBuffer] at hNone
        cases hNone
  · intro r' m hMem
    cases hRouter : c.routers r' with
    | holding x =>
        rw [hRouter, Router.hand,
          List.mem_singleton] at hMem
        subst hMem
        exact hHands r' m hRouter
    | absent | top | select | returned =>
        rw [hRouter] at hMem
        cases hMem

/- Then nothing is coming for that round. -/
theorem Resting.not_coming
    (hRest : Resting cfg c r) (hPlaced : Placed cfg c)
    (hRunning : c.switch = .running)
    (hRounds : c.rounds = r + 1)
    {m : M} (hLevel : cfg.level m = r) :
    ¬ c.Coming m := by
  rintro (h | h | ⟨r', _, h⟩ | ⟨r', hOpen, h⟩)
  · rw [hRest.input] at h
    cases h
  · simp only [waiting, hRunning] at h
    cases h
  · rcases hRest.hands r' m h with ⟨_, hSame, hNe⟩
    omega
  · have hLe := (hPlaced.place (.buffer r') m h).2.1
    simp only [firstOpen, hRunning, hRounds,
      Nat.add_sub_cancel] at hOpen
    obtain rfl : r' = r := by omega
    rw [hRest.buffer] at h
    cases h

/- Nor is one that would be passed on at once. -/
theorem Resting.not_held
    (hRest : Resting cfg c r) {m : M}
    (hExpress : cfg.express m = true) (r' : Nat) :
    m ∉ (c.routers r').hand := by
  intro h
  rw [(hRest.hands r' m h).1] at hExpress
  cases hExpress

end RouterChain

end Protocol
