import Mathlib.Algebra.GroupWithZero.Nat
import Mathlib.Logic.Relation

/-
  Executable transition systems and their reachable states.

  A machine has one initial state and a partial step for each
  action. `ReachableBy ok` collects the states reached by runs
  whose steps all meet the condition `ok`.

  Main declarations:
    * `Machine`
    * `Machine.drive`
    * `Machine.ReachableBy`
    * `Machine.ReachableBy.invariant`
    * `Machine.reachable_drive`
    * `Machine.ReachableBy.run`
-/

------------------------------------------------------------
-- Machines and Runs
------------------------------------------------------------

namespace Protocol

/- Runs of four parties name them by numerals. -/
instance (priority := 2000) neZero_four : NeZero 4 :=
  ⟨Nat.succ_ne_zero 3⟩

/- A deterministic step for each action, with one start. -/
structure Machine (σ α : Type*) where
  init : σ
  exec : σ → α → Option σ

namespace Machine

variable {σ τ α β : Type*}

/-
  Execute a list of actions, leaving out those that are not
  enabled or not allowed by `ok` when their turn comes.
-/
def drive
    (M : Machine σ α) (ok : σ → α → Bool) : σ → List α → σ
| s, [] => s
| s, a :: as =>
    M.drive ok
      (if ok s a then (M.exec s a).getD s else s) as

/- A step that is allowed and possible is taken. -/
theorem drive_cons
    {M : Machine σ α} {ok : σ → α → Bool} {s s' : σ} {a : α}
    (hOk : ok s a = true) (hExec : M.exec s a = some s')
    (as : List α) :
    M.drive ok s (a :: as) = M.drive ok s' as := by
  conv => lhs; unfold drive
  rw [hOk, if_pos rfl, hExec]
  rfl

/-
  A part of a system does on its own what its steps do in
  the whole.
-/
theorem drive_map
    {M : Machine σ α} {N : Machine τ β} {γ : Type*}
    {okM : σ → α → Bool} {okN : τ → β → Bool}
    (proj : σ → τ) (f : γ → α) (g : γ → β)
    (hOk : ∀ s c, okM s (f c) = okN (proj s) (g c))
    (hExec :
      ∀ s c, (M.exec s (f c)).map proj =
        N.exec (proj s) (g c))
    (s : σ) (cs : List γ) :
    proj (M.drive okM s (cs.map f)) =
      N.drive okN (proj s) (cs.map g) := by
  induction cs generalizing s with
  | nil => rfl
  | cons c cs ih =>
      rw [List.map_cons, List.map_cons]
      unfold drive
      rw [ih, hOk s c, ← hExec s c]
      split
      · cases M.exec s (f c) with
        | none => rfl
        | some s' => rfl
      · rfl

/-
  States reached by a run in which every step meets the
  condition `ok` on the state before it and its action.
-/
inductive ReachableBy
    (M : Machine σ α)
    (ok : σ → α → Prop) : σ → Prop
| init : M.ReachableBy ok M.init
| step {s s' : σ} {a : α} :
    M.ReachableBy ok s →
      ok s a →
        M.exec s a = some s' →
          M.ReachableBy ok s'

/- States reached by any run. -/
def Reachable (M : Machine σ α) : σ → Prop :=
  M.ReachableBy fun _ _ => True

/- An unrestricted step keeps reachability. -/
theorem Reachable.step
    {M : Machine σ α} {s s' : σ} {a : α}
    (hReach : M.Reachable s)
    (hExec : M.exec s a = some s') :
    M.Reachable s' :=
  ReachableBy.step hReach trivial hExec

/- A weaker step condition reaches more states. -/
theorem ReachableBy.mono
    {M : Machine σ α}
    {ok ok' : σ → α → Prop} {s : σ}
    (hReach : M.ReachableBy ok s)
    (hWeaker : ∀ s a, ok s a → ok' s a) :
    M.ReachableBy ok' s := by
  induction hReach with
  | init => exact .init
  | step _ hOk hExec ih =>
      exact .step ih (hWeaker _ _ hOk) hExec

/- Restricted runs are runs. -/
theorem ReachableBy.reachable
    {M : Machine σ α} {ok : σ → α → Prop} {s : σ}
    (hReach : M.ReachableBy ok s) :
    M.Reachable s :=
  hReach.mono fun _ _ _ => trivial

/-
  The invariant rule: what holds initially and is kept by
  every step from a reachable state holds in every reachable
  state.
-/
theorem ReachableBy.invariant
    {M : Machine σ α} {ok : σ → α → Prop}
    (P : σ → Prop)
    (hInit : P M.init)
    (hStep :
      ∀ s a s', M.ReachableBy ok s → P s → ok s a →
        M.exec s a = some s' → P s')
    {s : σ}
    (hReach : M.ReachableBy ok s) :
    P s := by
  induction hReach with
  | init => exact hInit
  | step hBefore hOk hExec ih =>
      exact hStep _ _ _ hBefore ih hOk hExec

/- The invariant rule for unrestricted runs. -/
theorem Reachable.invariant
    {M : Machine σ α}
    (P : σ → Prop)
    (hInit : P M.init)
    (hStep :
      ∀ s a s', M.Reachable s → P s →
        M.exec s a = some s' → P s')
    {s : σ}
    (hReach : M.Reachable s) :
    P s :=
  ReachableBy.invariant P hInit
    (fun s a s' hBefore hP _ hExec =>
      hStep s a s' hBefore hP hExec)
    hReach

/- One action of `drive` keeps reachability. -/
theorem ReachableBy.attempt
    {M : Machine σ α} {ok : σ → α → Bool} {s : σ}
    (hReach : M.ReachableBy (fun s a => ok s a = true) s)
    (a : α) :
    M.ReachableBy (fun s a => ok s a = true)
      (if ok s a then (M.exec s a).getD s else s) := by
  split
  · rename_i hOk
    cases hExec : M.exec s a with
    | none => exact hReach
    | some s' => exact .step hReach hOk hExec
  · exact hReach

/- Executing a list of actions keeps reachability. -/
theorem ReachableBy.drive
    {M : Machine σ α} {ok : σ → α → Bool} {s : σ}
    (hReach : M.ReachableBy (fun s a => ok s a = true) s)
    (as : List α) :
    M.ReachableBy (fun s a => ok s a = true)
      (M.drive ok s as) := by
  induction as generalizing s with
  | nil => exact hReach
  | cons a as ih => exact ih (hReach.attempt a)

/- Every list of actions ends in a reachable state. -/
theorem reachable_drive
    (M : Machine σ α) (as : List α) :
    M.Reachable (M.drive (fun _ _ => true) M.init as) :=
  (ReachableBy.drive .init as).reachable

/-
  A list of actions runs under a condition that holds for
  each of them in the state it meets.
-/
theorem ReachableBy.run
    {M : Machine σ α} {ok : σ → α → Prop} {s : σ}
    (hReach : M.ReachableBy ok s)
    (as : List α)
    (hOk :
      ∀ (i : Nat) a, as[i]? = some a →
        ok (M.drive (fun _ _ => true) s (as.take i)) a) :
    M.ReachableBy ok (M.drive (fun _ _ => true) s as) := by
  induction as generalizing s with
  | nil => exact hReach
  | cons a as ih =>
      refine ih ?_ fun i b hMem => hOk (i + 1) b hMem
      cases hExec : M.exec s a with
      | none => exact hReach
      | some s' => exact .step hReach (hOk 0 a rfl) hExec

/-
  The projection rule: when every step of `M` is matched by
  a reachable continuation of `N` on the projected states,
  projections of reachable states are reachable.
-/
theorem Reachable.map
    {M : Machine σ α} {N : Machine τ β}
    (proj : σ → τ)
    (hInit : N.Reachable (proj M.init))
    (hStep :
      ∀ s a s', M.Reachable s → N.Reachable (proj s) →
        M.exec s a = some s' → N.Reachable (proj s'))
    {s : σ}
    (hReach : M.Reachable s) :
    N.Reachable (proj s) :=
  hReach.invariant (fun s => N.Reachable (proj s))
    hInit hStep

end Machine

end Protocol
