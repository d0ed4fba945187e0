import Mathlib.Data.List.Dedup
import Mathlib.Data.Finset.Card

/-
  Handlers that count messages and fire at a threshold.

  A counter is a handler reading one message after another,
  together with the messages it counts and their senders. It
  is lawful when it goes up by one with each counted message
  until the handler returns, and fires only at its quota.

  Main declarations:
    * `Counter`
    * `Counter.Lawful`
    * `Counter.Lawful.fires_iff`
    * `Counter.ofHandler`
-/

------------------------------------------------------------
-- Counters
------------------------------------------------------------

namespace Protocol

/-
  A handler that counts messages: what it keeps, which
  messages it counts, from whom they are, and with how many
  of them it signals.
-/
structure Counter (n : Nat) where
  M : Type
  S : Type
  init : S
  read : S → M → S
  -- reading the message makes the handler signal
  fires : S → M → Bool
  counted : M → Bool
  sender : M → Fin n
  quota : Nat

namespace Counter

variable {n : Nat}

/- The handler after reading a list of messages. -/
def run (c : Counter n) (ms : List c.M) : c.S :=
  ms.foldl c.read c.init

/- The senders of the counted messages, with repeats. -/
def senders (c : Counter n) (ms : List c.M) :
    List (Fin n) :=
  (ms.filter c.counted).map c.sender

/- How many distinct parties sent a counted message. -/
def distinct (c : Counter n) (ms : List c.M) : Nat :=
  (c.senders ms).toFinset.card

/- Every firing has its quota of distinct senders. -/
def CountsSenders (c : Counter n) : Prop :=
  ∀ ms m, c.fires (c.run ms) m = true →
    c.quota ≤ c.distinct (ms ++ [m])

/-
  The state has the number of counted messages until the
  handler returns, and it signals when the quota is reached.
-/
structure Lawful
    (c : Counter n)
    (count : c.S → Nat) (returned : c.S → Bool) : Prop where
  init : count c.init = 0
  read :
    ∀ s m, returned s = false →
      count (c.read s m) =
        count s + if c.counted m then 1 else 0
  stop :
    ∀ s m, returned s = true →
      returned (c.read s m) = true
  fires :
    ∀ s m, c.fires s m = true →
      returned s = false ∧ count (c.read s m) = c.quota

/- Reading one message more. -/
theorem run_append
    (c : Counter n) (ms : List c.M) (m : c.M) :
    c.run (ms ++ [m]) = c.read (c.run ms) m := by
  simp [run]

/- A message has a sender if it is counted. -/
theorem length_senders_append
    (c : Counter n) (ms : List c.M) (m : c.M) :
    (c.senders (ms ++ [m])).length =
      (c.senders ms).length +
        if c.counted m then 1 else 0 := by
  by_cases h : c.counted m = true <;> simp [senders, h]

namespace Lawful

variable {c : Counter n}
variable {count : c.S → Nat} {returned : c.S → Bool}

/- Until the handler returns, it has counted all messages. -/
theorem count_eq
    (hLawful : c.Lawful count returned)
    (ms : List c.M)
    (hRuns : returned (c.run ms) = false) :
    count (c.run ms) = (c.senders ms).length := by
  induction ms using List.reverseRecOn with
  | nil => exact hLawful.init
  | append_singleton ms m ih =>
      rw [run_append] at hRuns ⊢
      have hBefore : returned (c.run ms) = false := by
        by_contra h
        have hStop := hLawful.stop (c.run ms) m (by simpa using h)
        rw [hStop] at hRuns
        cases hRuns
      rw [hLawful.read _ _ hBefore, ih hBefore,
        length_senders_append]

/- A firing handler has counted exactly its quota. -/
theorem quota_eq
    (hLawful : c.Lawful count returned)
    (ms : List c.M) (m : c.M)
    (hFires : c.fires (c.run ms) m = true) :
    (c.senders (ms ++ [m])).length = c.quota := by
  rcases hLawful.fires _ _ hFires with ⟨hRuns, hQuota⟩
  calc
    (c.senders (ms ++ [m])).length
        = (c.senders ms).length +
            if c.counted m then 1 else 0 :=
      c.length_senders_append ms m
    _ = count (c.run ms) +
            if c.counted m then 1 else 0 := by
      rw [hLawful.count_eq ms hRuns]
    _ = count (c.read (c.run ms) m) :=
      (hLawful.read _ _ hRuns).symm
    _ = c.quota := hQuota

/-
  A firing has its quota of distinct senders exactly when no
  sender has been counted twice.
-/
theorem fires_iff
    (hLawful : c.Lawful count returned)
    (ms : List c.M) (m : c.M)
    (hFires : c.fires (c.run ms) m = true) :
    c.quota ≤ c.distinct (ms ++ [m]) ↔
      (c.senders (ms ++ [m])).Nodup := by
  have hLength := hLawful.quota_eq ms m hFires
  unfold distinct
  constructor
  · intro hLe
    have hDedup :
        (c.senders (ms ++ [m])).length ≤
          (c.senders (ms ++ [m])).dedup.length := by
      rw [hLength]
      simpa [List.card_toFinset] using hLe
    rw [← List.dedup_eq_self]
    exact (List.dedup_sublist _).eq_of_length_le hDedup
  · intro hNodup
    rw [List.toFinset_card_of_nodup hNodup, hLength]

end Lawful

end Counter

end Protocol

------------------------------------------------------------
-- Handlers That Stop Reading
------------------------------------------------------------

namespace Protocol

namespace Counter

variable {n : Nat} {M S : Type}

/-
  The counter of a handler that is given the messages it
  accepts, stops reading once it has returned, and signals
  as `signal` says.
-/
def ofHandler
    (init : S)
    (returned : S → Bool)
    (accepts : M → Bool)
    (step : S → M → S)
    (signal : S → M → Bool)
    (counted : M → Bool)
    (sender : M → Fin n)
    (quota : Nat) : Counter n where
  M := M
  S := S
  init := init
  read := fun s m =>
    if !returned s && accepts m then step s m else s
  fires := fun s m =>
    !returned s && accepts m && signal s m
  counted := fun m => accepts m && counted m
  sender := sender
  quota := quota

/- A handler is lawful if one step of it is. -/
theorem lawful_ofHandler
    {init : S} {returned : S → Bool} {accepts : M → Bool}
    {step : S → M → S} {signal : S → M → Bool}
    {counted : M → Bool} {sender : M → Fin n}
    {quota : Nat} (count : S → Nat)
    (hInit : count init = 0)
    (hStep :
      ∀ s m, returned s = false → accepts m = true →
        count (step s m) =
          count s + if counted m then 1 else 0)
    (hSignal :
      ∀ s m, returned s = false → accepts m = true →
        signal s m = true → count (step s m) = quota) :
    (ofHandler init returned accepts step signal counted
      sender quota).Lawful count returned where
  init := hInit
  read := by
    intro s m hRuns
    cases hAccepts : accepts m with
    | true =>
        simpa [ofHandler, hRuns, hAccepts] using
          hStep s m hRuns hAccepts
    | false => simp [ofHandler, hAccepts]
  stop := by
    intro s m hReturned
    simp [ofHandler, hReturned]
  fires := by
    intro s m hFires
    simp only [ofHandler, Bool.and_eq_true,
      Bool.not_eq_true'] at hFires
    rcases hFires with ⟨⟨hRuns, hAccepts⟩, hSignal'⟩
    refine ⟨hRuns, ?_⟩
    simpa [ofHandler, hRuns, hAccepts] using
      hSignal s m hRuns hAccepts hSignal'

end Counter

end Protocol
