import Mathlib.Algebra.Order.Group.Int
import Mathlib.Data.List.Nodup

/-
  Buffers kept in strictly increasing order of a key.

  Inserting keeps an element that already has the key. The
  one-pass loop that rebuilds the buffer and inserts on the
  way, with a flag for "already in", does the same on a
  sorted buffer.

  Main declarations:
    * `Sorted`
    * `insertNew`
    * `insertLoop`
    * `insertLoop_eq`
    * `Holds` and `Holds.insertNew`
    * `above` and `above_add`
    * `take_contiguous_iff`
-/

------------------------------------------------------------
-- Sorted Insertion
------------------------------------------------------------

namespace Protocol

namespace SortedBuffer

variable {α β : Type*} [LinearOrder β]

/- Keys strictly increase. -/
def Sorted (key : α → β) (xs : List α) : Prop :=
  xs.Pairwise fun x y => key x < key y

/- A key tells the elements of a buffer apart. -/
theorem Sorted.eq_of_key_eq
    {key : α → β} {xs : List α} {x y : α}
    (hSorted : Sorted key xs)
    (hx : x ∈ xs) (hy : y ∈ xs) (hKey : key x = key y) :
    x = y := by
  have hNodup : (xs.map key).Nodup :=
    List.pairwise_map.mpr (hSorted.imp ne_of_lt)
  exact List.inj_on_of_nodup_map hNodup hx hy hKey

/- Insert by key, keeping an element that has the key. -/
def insertNew (key : α → β) (x : α) : List α → List α
| [] => [x]
| y :: ys =>
    if key x < key y then x :: y :: ys
    else if key x = key y then y :: ys
    else y :: insertNew key x ys

/-
  The loop: `flag` says that nothing is to be inserted any
  more, `done` is what has been rebuilt so far.
-/
def insertLoop (key : α → β) (x : α) :
    Bool → List α → List α → List α
| _, done, [] => done
| flag, done, y :: ys =>
    if key x < key y then
      insertLoop key x true
        ((if flag then done else done ++ [x]) ++ [y]) ys
    else if key x = key y then
      insertLoop key x true (done ++ [y]) ys
    else
      insertLoop key x flag
        (if ys = [] then done ++ [y] ++ [x]
          else done ++ [y]) ys

section Insert

variable {key : α → β} {x y : α} {xs : List α}

/- The key of a new element is there afterwards. -/
theorem mem_insertNew_self_key
    (key : α → β) (x : α) (xs : List α) :
    ∃ z ∈ insertNew key x xs, key z = key x := by
  induction xs with
  | nil => exact ⟨x, List.mem_singleton_self x, rfl⟩
  | cons y ys ih =>
      unfold insertNew
      split
      · exact ⟨x, List.mem_cons_self, rfl⟩
      · split
        · rename_i hEq
          exact ⟨y, List.mem_cons_self, hEq.symm⟩
        · rcases ih with ⟨z, hMem, hKey⟩
          exact ⟨z, List.mem_cons_of_mem _ hMem, hKey⟩

/- No element is lost by an insertion. -/
theorem mem_insertNew_of_mem
    (hMem : y ∈ xs) :
    y ∈ insertNew key x xs := by
  induction xs with
  | nil => cases hMem
  | cons z zs ih =>
      unfold insertNew
      split
      · exact List.mem_cons_of_mem _ hMem
      · split
        · exact hMem
        · rcases List.mem_cons.mp hMem with rfl | hMem
          · exact List.mem_cons_self
          · exact List.mem_cons_of_mem _ (ih hMem)

/- Nothing but the new element is added. -/
theorem mem_of_mem_insertNew
    (hMem : y ∈ insertNew key x xs) :
    y = x ∨ y ∈ xs := by
  induction xs with
  | nil => exact .inl (List.mem_singleton.mp hMem)
  | cons z zs ih =>
      unfold insertNew at hMem
      split at hMem
      · exact List.mem_cons.mp hMem
      · split at hMem
        · exact .inr hMem
        · rcases List.mem_cons.mp hMem with rfl | hMem
          · exact .inr List.mem_cons_self
          · rcases ih hMem with h | h
            · exact .inl h
            · exact .inr (List.mem_cons_of_mem _ h)

/- What is new in the buffer has a key that was not there. -/
theorem insertNew_of_key_mem
    (hSorted : Sorted key xs)
    (hMem : ∃ z ∈ xs, key z = key x) :
    insertNew key x xs = xs := by
  induction xs with
  | nil =>
      rcases hMem with ⟨z, hMem, _⟩
      cases hMem
  | cons y ys ih =>
      rcases hMem with ⟨z, hMem, hKey⟩
      have hCons := List.pairwise_cons.mp hSorted
      rcases List.mem_cons.mp hMem with rfl | hMem
      · unfold insertNew
        rw [if_neg (by rw [hKey]; exact lt_irrefl _),
          if_pos hKey.symm]
      · have hLt := hCons.1 z hMem
        rw [hKey] at hLt
        unfold insertNew
        rw [if_neg (not_lt_of_gt hLt), if_neg hLt.ne',
          ih hCons.2 ⟨z, hMem, hKey⟩]

/- An insertion keeps the order. -/
theorem insertNew_sorted
    (hSorted : Sorted key xs) :
    Sorted key (insertNew key x xs) := by
  induction xs with
  | nil => exact List.pairwise_singleton _ _
  | cons y ys ih =>
      have hCons := List.pairwise_cons.mp hSorted
      unfold insertNew
      split
      · rename_i hLt
        refine List.pairwise_cons.mpr ⟨?_, hSorted⟩
        intro z hMem
        rcases List.mem_cons.mp hMem with rfl | hMem
        · exact hLt
        · exact lt_trans hLt (hCons.1 z hMem)
      · split
        · exact hSorted
        · rename_i hNotLt hNe
          refine List.pairwise_cons.mpr ⟨?_, ih hCons.2⟩
          intro z hMem
          rcases mem_of_mem_insertNew hMem with rfl | hMem
          · exact lt_of_le_of_ne (not_lt.mp hNotLt)
              (Ne.symm hNe)
          · exact hCons.1 z hMem

/- The loop makes nothing up, whatever the buffer holds. -/
theorem mem_of_mem_insertLoop
    {flag : Bool} {done : List α}
    (hMem : y ∈ insertLoop key x flag done xs) :
    y = x ∨ y ∈ done ∨ y ∈ xs := by
  induction xs generalizing flag done with
  | nil => exact .inr (.inl hMem)
  | cons z zs ih =>
      unfold insertLoop at hMem
      split at hMem
      · have hCase := ih hMem
        split at hCase <;> simp at hCase <;> grind
      · split at hMem
        · have hCase := ih hMem
          simp at hCase
          grind
        · have hCase := ih hMem
          split at hCase <;> simp at hCase <;> grind

/- Inserting looks at nothing but the keys. -/
theorem insertNew_map
    {γ : Type*} {key' : γ → β} {f : α → γ}
    (hKey : ∀ z, key' (f z) = key z)
    (x : α) (xs : List α) :
    insertNew key' (f x) (xs.map f) =
      (insertNew key x xs).map f := by
  induction xs with
  | nil => rfl
  | cons y ys ih =>
      rw [List.map_cons]
      unfold insertNew
      rw [hKey, hKey, ih]
      split
      · rfl
      · split <;> rfl

/- After the insertion the loop only copies. -/
theorem insertLoop_true
    {done : List α}
    (hLe : ∀ y ∈ xs, key x ≤ key y) :
    insertLoop key x true done xs = done ++ xs := by
  induction xs generalizing done with
  | nil => simp [insertLoop]
  | cons y ys ih =>
      have hRest : ∀ z ∈ ys, key x ≤ key z := fun z hMem =>
        hLe z (List.mem_cons_of_mem _ hMem)
      have hHead := hLe y List.mem_cons_self
      unfold insertLoop
      split
      · rw [ih hRest]
        simp
      · split
        · rw [ih hRest]
          simp
        · rename_i hNotLt hNe
          exact absurd (lt_of_le_of_ne hHead hNe) hNotLt

/- On a sorted buffer the loop inserts. -/
theorem insertLoop_eq
    (done : List α)
    (hSorted : Sorted key xs) (hNonempty : xs ≠ []) :
    insertLoop key x false done xs =
      done ++ insertNew key x xs := by
  induction xs generalizing done with
  | nil => exact absurd rfl hNonempty
  | cons y ys ih =>
      have hCons := List.pairwise_cons.mp hSorted
      unfold insertLoop insertNew
      split
      · rename_i hLt
        rw [insertLoop_true fun z hMem =>
          (lt_trans hLt (hCons.1 z hMem)).le]
        simp
      · split
        · rename_i hEq
          rw [insertLoop_true fun z hMem =>
            hEq.trans_le (hCons.1 z hMem).le]
          simp
        · cases ys with
          | nil => simp [insertLoop, insertNew]
          | cons z zs =>
              rw [if_neg (List.cons_ne_nil z zs),
                ih _ hCons.2 (List.cons_ne_nil z zs)]
              simp

end Insert

------------------------------------------------------------
-- What Came First
------------------------------------------------------------

/- Of every key that came, the buffer has the first element. -/
structure Holds
    (key : α → β) (came buffer : List α) : Prop where
  sorted : Sorted key buffer
  keys :
    ∀ k, (∃ x ∈ buffer, key x = k) ↔ ∃ x ∈ came, key x = k
  first :
    ∀ x ∈ buffer,
      came.find? (fun y => decide (key y = key x)) = some x

theorem holds_nil (key : α → β) : Holds key [] [] where
  sorted := List.Pairwise.nil
  keys _ := Iff.rfl
  first := List.forall_mem_nil _

/- The buffer keeps the first element of each key. -/
theorem Holds.insertNew
    {key : α → β} {came buffer : List α}
    (hHolds : Holds key came buffer) (z : α) :
    Holds key (came ++ [z]) (insertNew key z buffer) where
  sorted := insertNew_sorted hHolds.sorted
  keys := by
    intro k
    constructor
    · rintro ⟨x, hMem, hKey⟩
      rcases mem_of_mem_insertNew hMem with hNew | hOld
      · exact
          ⟨x, List.mem_append_right _
            (List.mem_singleton.mpr hNew), hKey⟩
      · rcases (hHolds.keys k).mp ⟨x, hOld, hKey⟩ with
          ⟨y, hCame, hSame⟩
        exact ⟨y, List.mem_append_left _ hCame, hSame⟩
    · rintro ⟨x, hMem, hKey⟩
      rcases List.mem_append.mp hMem with hOld | hNew
      · rcases (hHolds.keys k).mpr ⟨x, hOld, hKey⟩ with
          ⟨y, hIn, hSame⟩
        exact ⟨y, mem_insertNew_of_mem hIn, hSame⟩
      · rw [List.mem_singleton.mp hNew] at hKey
        rcases mem_insertNew_self_key key z buffer with
          ⟨y, hIn, hSame⟩
        exact ⟨y, hIn, hSame.trans hKey⟩
  first := by
    intro x hMem
    rw [List.find?_append]
    have hOld (hIn : x ∈ buffer) :
        (came.find? fun y => decide (key y = key x)).or
            ([z].find? fun y => decide (key y = key x)) =
          some x := by
      rw [hHolds.first x hIn]
      rfl
    by_cases hKey : ∃ y ∈ buffer, key y = key z
    · rw [insertNew_of_key_mem hHolds.sorted hKey] at hMem
      exact hOld hMem
    · rcases mem_of_mem_insertNew hMem with rfl | hIn
      · have hNone :
            (came.find? fun y => decide (key y = key x)) =
              none := by
          rw [List.find?_eq_none]
          intro y hCame hSame
          exact
            hKey
              ((hHolds.keys _).mpr
                ⟨y, hCame, of_decide_eq_true hSame⟩)
        rw [hNone, Option.none_or]
        exact List.find?_cons_of_pos (decide_eq_true rfl)
      · exact hOld hIn

------------------------------------------------------------
-- Contiguous Prefixes
------------------------------------------------------------

/- The `d` integers that follow `a`. -/
def above (a : Int) (d : Nat) : List Int :=
  (List.range d).map fun k : Nat => a + 1 + k

/- The first of the numbers above, and the rest. -/
theorem above_succ (a : Int) (d : Nat) :
    above a (d + 1) = (a + 1) :: above (a + 1) d := by
  unfold above
  rw [List.range_succ_eq_map, List.map_cons, List.map_map]
  congr 1
  · simp
  · apply List.map_congr_left
    intro k _
    simp only [Function.comp]
    omega

/- The numbers above are an interval. -/
theorem mem_above {a h : Int} {d : Nat} :
    h ∈ above a d ↔ a < h ∧ h ≤ a + d := by
  unfold above
  rw [List.mem_map]
  constructor
  · rintro ⟨k, hk, rfl⟩
    rw [List.mem_range] at hk
    omega
  · rintro ⟨hLow, hHigh⟩
    exact
      ⟨(h - a - 1).toNat, List.mem_range.mpr (by omega),
        by omega⟩

/- No number is there twice. -/
theorem above_nodup (a : Int) (d : Nat) :
    (above a d).Nodup := by
  refine List.Nodup.map ?_ List.nodup_range
  intro k k' hEq
  dsimp only at hEq
  omega

/- One run of integers after the other. -/
theorem above_add (a : Int) (d e : Nat) :
    above a (d + e) = above a d ++ above (a + d) e := by
  unfold above
  rw [List.range_add, List.map_append, List.map_map]
  congr 1
  apply List.map_congr_left
  intro k _
  simp only [Function.comp]
  omega

/-
  The first `d` elements have the keys right above `a`
  exactly when nothing in the buffer has a key up to `a` and
  no key up to `a + d` is missing.
-/
theorem take_contiguous_iff
    {key : α → Int} {xs : List α} {a : Int} {d : Nat}
    (hSorted : Sorted key xs) (hLength : d ≤ xs.length) :
    (xs.take d).map key = above a d ↔
      d = 0 ∨
        ((∀ x ∈ xs, a < key x) ∧
          ∀ h, a < h → h ≤ a + d → ∃ x ∈ xs, key x = h) := by
  induction d generalizing xs a with
  | zero => simp [above]
  | succ d ih =>
      cases xs with
      | nil => simp at hLength
      | cons x xs =>
          have hCons := List.pairwise_cons.mp hSorted
          rw [above_succ, List.take_succ_cons, List.map_cons,
            List.cons_eq_cons,
            ih hCons.2 (Nat.le_of_succ_le_succ hLength)]
          constructor
          · rintro ⟨hHead, hTail⟩
            right
            constructor
            · intro y hMem
              rcases List.mem_cons.mp hMem with rfl | hMem
              · omega
              · have hLt := hCons.1 y hMem
                omega
            · intro h hAbove hUpTo
              by_cases hFirst : h = a + 1
              · exact
                  ⟨x, List.mem_cons_self, by omega⟩
              · rcases hTail with hZero | ⟨_, hAll⟩
                · subst hZero
                  push_cast at hUpTo
                  omega
                · push_cast at hUpTo
                  rcases hAll h (by omega) (by omega) with
                    ⟨y, hMem, hKey⟩
                  exact
                    ⟨y, List.mem_cons_of_mem _ hMem, hKey⟩
          · intro hCase
            rcases hCase with hZero | ⟨hFresh, hAll⟩
            · exact absurd hZero (Nat.succ_ne_zero d)
            · push_cast at hAll
              have hHead : key x = a + 1 := by
                rcases hAll (a + 1) (by omega) (by omega) with
                  ⟨y, hMem, hKey⟩
                have hLow := hFresh x List.mem_cons_self
                rcases List.mem_cons.mp hMem with rfl | hMem
                · exact hKey
                · have hLt := hCons.1 y hMem
                  omega
              refine ⟨hHead, .inr ⟨?_, ?_⟩⟩
              · intro y hMem
                have hLt := hCons.1 y hMem
                omega
              · intro h hAbove hUpTo
                rcases hAll h (by omega) (by omega) with
                  ⟨y, hMem, hKey⟩
                rcases List.mem_cons.mp hMem with rfl | hMem
                · omega
                · exact ⟨y, hMem, hKey⟩

end SortedBuffer

end Protocol
