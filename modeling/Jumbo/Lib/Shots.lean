import Mathlib.Data.List.Infix
import Jumbo.Lib.Machine

/-
  One agreement after the other.

  A shot is one run of a protocol among the parties `P`. What
  a party gets out of a shot it takes into the next one, as
  the value `V` that it goes by there; the parties come to a
  shot at different times, and one that has left a shot may
  still act in it. Where every shot agrees among parties that
  go by one value, all of them do, and each party has a
  beginning of one common list of values.

  Main declarations:
    * `Shots` and `Shots.State`
    * `Shots.machine`
    * `Shots.Sound`
    * `Shots.Sound.reachable`
    * `Shots.Sound.commits_agree`
    * `Shots.Sound.comparable`
    * `Shots.Sound.commits_valid`
-/

------------------------------------------------------------
-- Shots
------------------------------------------------------------

namespace Protocol

/- A step is of one party, or of the network alone. -/
structure Shots (P σ α V : Type*) where
  -- what the first shot goes by
  start : V
  init : Nat → σ
  exec : Nat → V → σ → α → Option σ
  actor : α → Option P
  output : Nat → σ → P → Option V

namespace Shots

variable {P σ α V : Type*}

/- Where all parties of a shot go by one value. -/
def shot (S : Shots P σ α V) (k : Nat) (v : V) :
    Machine σ α where
  init := S.init k
  exec := S.exec k v

/- All shots, and what every party has got out of them. -/
structure State (P σ V : Type*) where
  shot : Nat → σ
  commits : P → List V

/- A step of one shot, or a party going on to the next. -/
inductive Action (P α : Type*) where
| act (k : Nat) (a : α)
| back (p : P)

/- What a party goes by in the shot `k`. -/
def goesBy
    (S : Shots P σ α V) (commits : List V) (k : Nat) :
    Option V :=
  (S.start :: commits)[k]?

variable [DecidableEq P]

/- A shot may only start after the commit before it. -/
def perform (S : Shots P σ α V) (s : State P σ V) :
    Action P α → Option (State P σ V)
| .act k a =>
    let value :=
      (S.actor a).elim (some S.start) fun p =>
        S.goesBy (s.commits p) k
    (value.bind fun v => S.exec k v (s.shot k) a).map
      fun next =>
        { s with shot := Function.update s.shot k next }
| .back p =>
    let k := (s.commits p).length
    (S.output k (s.shot k) p).map fun v =>
      { s with
        commits :=
          Function.update s.commits p (s.commits p ++ [v]) }

/- All shots, one after another, as a machine. -/
def machine (S : Shots P σ α V) :
    Machine (State P σ V) (Action P α) where
  init := ⟨S.init, fun _ => []⟩
  exec := S.perform

/-
  What is asked of a single shot. `decided` may say more of a
  value than that it has been put out.
-/
structure Sound
    (S : Shots P σ α V) (decided : Nat → σ → V → Prop)
    (Valid : Nat → V → V → Prop) : Prop where
  -- a step of the network goes by no value
  network :
    ∀ {k v w s a}, S.actor a = none →
      S.exec k v s a = S.exec k w s a
  output :
    ∀ {k v s p w}, (S.shot k v).Reachable s →
      S.output k s p = some w → decided k s w
  stable :
    ∀ {k v s s' a w}, (S.shot k v).Reachable s →
      S.exec k v s a = some s' → decided k s w →
        decided k s' w
  agree :
    ∀ {k v s w w'}, (S.shot k v).Reachable s →
      decided k s w → decided k s w' → w = w'
  valid :
    ∀ {k v s w}, (S.shot k v).Reachable s →
      decided k s w → Valid k v w

end Shots

end Protocol

------------------------------------------------------------
-- Runs
------------------------------------------------------------

namespace Protocol

namespace Shots

variable {P σ α V : Type*}

/- Every party that goes by a value there goes by this one. -/
def Agreed
    (S : Shots P σ α V) (s : State P σ V) (k : Nat) (v : V) :
    Prop :=
  ∀ p w, S.goesBy (s.commits p) k = some w → w = v

/-
  Each shot that is agreed on is a run of its own, and each
  commit is what its shot has decided.
-/
structure Ok
    (S : Shots P σ α V) (decided : Nat → σ → V → Prop)
    (s : State P σ V) : Prop where
  reach :
    ∀ k v, S.Agreed s k v → (S.shot k v).Reachable (s.shot k)
  commits :
    ∀ p (k : Nat) v, (s.commits p)[k]? = some v →
      decided k (s.shot k) v

namespace Sound

variable {S : Shots P σ α V}
variable {decided : Nat → σ → V → Prop}
variable {Valid : Nat → V → V → Prop}
variable {s s' : State P σ V}

/- For every shot there is a value that its parties go by. -/
theorem exists_agreed
    (hSound : S.Sound decided Valid)
    (hOk : S.Ok decided s) (k : Nat) :
    ∃ v, S.Agreed s k v := by
  induction k with
  | zero =>
      refine ⟨S.start, fun p w hw => ?_⟩
      exact (Option.some.inj hw).symm
  | succ k ih =>
      rcases ih with ⟨v, hAgreed⟩
      have hReach := hOk.reach k v hAgreed
      by_cases hSome :
          ∃ p w, S.goesBy (s.commits p) (k + 1) = some w
      · rcases hSome with ⟨p, w, hw⟩
        refine ⟨w, fun q w' hw' => ?_⟩
        exact
          hSound.agree hReach (hOk.commits q k w' hw')
            (hOk.commits p k w hw)
      · exact
          ⟨S.start, fun p w hw =>
            absurd ⟨p, w, hw⟩ hSome⟩

/- A party goes by what the others go by. -/
theorem agreed
    (hSound : S.Sound decided Valid)
    (hOk : S.Ok decided s) {p : P} {k : Nat} {v : V}
    (hBy : S.goesBy (s.commits p) k = some v) :
    S.Agreed s k v := by
  rcases hSound.exists_agreed hOk k with ⟨w, hAgreed⟩
  rw [hAgreed p v hBy]
  exact hAgreed

variable [DecidableEq P]

theorem ok_init : S.Ok decided S.machine.init where
  reach := fun _ _ _ => .init
  commits := fun _ _ _ hAt => by cases hAt

/- A step in one shot. -/
theorem ok_act
    (hSound : S.Sound decided Valid)
    (hOk : S.Ok decided s) {k : Nat} {a : α}
    (hExec : S.perform s (.act k a) = some s') :
    S.Ok decided s' := by
  rcases Option.map_eq_some_iff.mp hExec with
    ⟨next, hNext, rfl⟩
  rcases Option.bind_eq_some_iff.mp hNext with
    ⟨v, hValue, hStep⟩
  -- the step goes by a value that all of the shot go by
  have hSteps :
      ∀ w, S.Agreed s k w →
        S.exec k w (s.shot k) a = some next := by
    intro w hAgreed
    cases hActor : S.actor a with
    | none => rw [hSound.network hActor, hStep]
    | some p =>
        rw [hActor] at hValue
        rw [← hAgreed p v hValue, hStep]
  constructor
  · intro i w hAgreed
    by_cases hEq : i = k
    · subst hEq
      dsimp only
      rw [Function.update_self]
      exact
        (hOk.reach i w hAgreed).step (hSteps w hAgreed)
    · dsimp only
      rw [Function.update_of_ne hEq]
      exact hOk.reach i w hAgreed
  · intro p i w hAt
    have hOld := hOk.commits p i w hAt
    by_cases hEq : i = k
    · subst hEq
      dsimp only
      rw [Function.update_self]
      rcases hSound.exists_agreed hOk i with ⟨u, hAgreed⟩
      exact
        hSound.stable (hOk.reach i u hAgreed)
          (hSteps u hAgreed) hOld
    · dsimp only
      rw [Function.update_of_ne hEq]
      exact hOld

/- A party takes what a shot has put out for it. -/
theorem ok_back
    (hSound : S.Sound decided Valid)
    (hOk : S.Ok decided s) {p : P}
    (hExec : S.perform s (.back p) = some s') :
    S.Ok decided s' := by
  rcases Option.map_eq_some_iff.mp hExec with
    ⟨v, hOutput, rfl⟩
  constructor
  · intro k w hAgreed
    refine hOk.reach k w fun q u hBy => hAgreed q u ?_
    by_cases hEq : q = p
    · subst hEq
      dsimp only
      rw [Function.update_self]
      unfold goesBy at hBy ⊢
      rw [← List.cons_append]
      exact List.getElem?_append_left
        (List.getElem?_eq_some_iff.mp hBy).1 ▸ hBy
    · dsimp only
      rw [Function.update_of_ne hEq]
      exact hBy
  · intro q k w hAt
    dsimp only at hAt ⊢
    by_cases hEq : q = p
    · subst hEq
      rw [Function.update_self] at hAt
      by_cases hLt : k < (s.commits q).length
      · rw [List.getElem?_append_left hLt] at hAt
        exact hOk.commits q k w hAt
      · have hHere : k = (s.commits q).length := by
          have hBound := (List.getElem?_eq_some_iff.mp hAt).1
          rw [List.length_append, List.length_singleton]
            at hBound
          omega
        subst hHere
        rw [List.getElem?_concat_length] at hAt
        cases hAt
        rcases hSound.exists_agreed hOk
            (s.commits q).length with
          ⟨u, hAgreed⟩
        exact
          hSound.output (hOk.reach _ u hAgreed) hOutput
    · rw [Function.update_of_ne hEq] at hAt
      exact hOk.commits q k w hAt

/- This holds in every run, by induction on the steps. -/
theorem ok
    (hSound : S.Sound decided Valid)
    (hReach : S.machine.Reachable s) :
    S.Ok decided s := by
  refine hReach.invariant (S.Ok decided) ok_init ?_
  intro s a s' _ hOk hExec
  cases a with
  | act k a => exact hSound.ok_act hOk hExec
  | back p => exact hSound.ok_back hOk hExec

/- Each shot is a run among parties that go by one value. -/
theorem reachable
    (hSound : S.Sound decided Valid)
    (hReach : S.machine.Reachable s) {p : P} {k : Nat} {v : V}
    (hBy : S.goesBy (s.commits p) k = some v) :
    (S.shot k v).Reachable (s.shot k) := by
  have hOk := hSound.ok hReach
  exact hOk.reach k v (hSound.agreed hOk hBy)

/- Two parties get the same out of a shot. -/
theorem commits_agree
    (hSound : S.Sound decided Valid)
    (hReach : S.machine.Reachable s) {p q : P} {k : Nat}
    {v w : V} (hv : (s.commits p)[k]? = some v)
    (hw : (s.commits q)[k]? = some w) :
    v = w := by
  have hBy : S.goesBy (s.commits q) (k + 1) = some w := hw
  exact hSound.agreed (hSound.ok hReach) hBy p v hv

/- So one of them is only behind the other. -/
theorem comparable
    (hSound : S.Sound decided Valid)
    (hReach : S.machine.Reachable s) {p q : P}
    (hLe : (s.commits p).length ≤ (s.commits q).length) :
    s.commits p <+: s.commits q := by
  rw [List.prefix_iff_eq_take]
  apply List.ext_getElem?
  intro k
  rw [List.getElem?_take]
  split
  · rename_i hLt
    have hLt' := Nat.lt_of_lt_of_le hLt hLe
    rw [List.getElem?_eq_getElem hLt,
      List.getElem?_eq_getElem hLt']
    congr 1
    exact
      hSound.commits_agree hReach (List.getElem?_eq_getElem hLt)
        (List.getElem?_eq_getElem hLt')
  · rename_i hLe
    exact List.getElem?_eq_none (Nat.not_lt.mp hLe)

/- What a party gets is valid by what it goes by. -/
theorem commits_valid
    (hSound : S.Sound decided Valid)
    (hReach : S.machine.Reachable s) {p : P} {k : Nat}
    {v w : V} (hBy : S.goesBy (s.commits p) k = some v)
    (hAt : (s.commits p)[k]? = some w) :
    Valid k v w :=
  hSound.valid (hSound.reachable hReach hBy)
    ((hSound.ok hReach).commits p k w hAt)

end Sound

end Shots

end Protocol
