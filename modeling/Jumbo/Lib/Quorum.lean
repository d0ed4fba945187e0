import Mathlib.Data.Fintype.Card

/-
  Quorums of a finite set of parties.

  Main declarations:
    * `exists_mem_inter_of_card`
    * `exists_mem_inter_of_third`
    * `twoThirds_intersect`
    * `exists_named`
-/

------------------------------------------------------------
-- Quorum Intersection
------------------------------------------------------------

namespace Protocol

variable {α : Type*} [Fintype α] [DecidableEq α]

/- Two sets larger together than the whole share a member. -/
theorem exists_mem_inter_of_card
    {A B : Finset α}
    (hCard : Fintype.card α < A.card + B.card) :
    ∃ x, x ∈ A ∧ x ∈ B := by
  have hInter :
      (A ∩ B).Nonempty :=
    Finset.inter_nonempty_of_card_lt_card_add_card
      (Finset.subset_univ A) (Finset.subset_univ B)
      (by simpa [Finset.card_univ] using hCard)
  rcases hInter with ⟨x, hx⟩
  exact ⟨x, (Finset.mem_inter.mp hx).1,
    (Finset.mem_inter.mp hx).2⟩

/-
  Two sets whose sizes exceed the whole by more than a third
  set share a member outside the third set.
-/
theorem exists_mem_inter_of_third
    {A B C : Finset α}
    (hCard :
      Fintype.card α + C.card < A.card + B.card) :
    ∃ x, x ∈ A ∧ x ∈ B ∧ x ∉ C := by
  have hUnion := Finset.card_union_add_card_inter A B
  have hLe : (A ∪ B).card ≤ Fintype.card α :=
    Finset.card_le_univ _
  have hLt : C.card < (A ∩ B).card := by omega
  rcases Finset.exists_mem_notMem_of_card_lt_card hLt with
    ⟨x, hx, hNot⟩
  exact ⟨x, (Finset.mem_inter.mp hx).1,
    (Finset.mem_inter.mp hx).2, hNot⟩

/-
  Any two sets of more than two thirds of the parties meet.
-/
theorem twoThirds_intersect
    {A B : Finset α}
    (hA : Fintype.card α * 2 / 3 < A.card)
    (hB : Fintype.card α * 2 / 3 < B.card) :
    ∃ x, x ∈ A ∧ x ∈ B := by
  apply exists_mem_inter_of_card
  omega

/- The parties outside a set, counted. -/
theorem card_compl_eq
    (A : Finset α) :
    Aᶜ.card + A.card = Fintype.card α := by
  rw [Finset.card_compl]
  have hLe : A.card ≤ Fintype.card α :=
    Finset.card_le_univ A
  omega

/-
  Entries with different names, each of them the name of a
  party, come from as many parties.
-/
theorem exists_named
    {α β γ : Type*} [DecidableEq α]
    (name : α → β) (key : γ → β) {P : α → Prop}
    {entries : List γ}
    (hApart : (entries.map key).Nodup)
    (hNamed :
      ∀ entry ∈ entries, ∃ a, key entry = name a ∧ P a) :
    ∃ S : Finset α, S.card = entries.length ∧
      ∀ a ∈ S, P a ∧ name a ∈ entries.map key := by
  induction entries with
  | nil => exact ⟨∅, rfl, fun _ hMem => by simp at hMem⟩
  | cons entry entries ih =>
      rw [List.map_cons, List.nodup_cons] at hApart
      rw [List.forall_mem_cons] at hNamed
      rcases hNamed with ⟨⟨a, hName, hP⟩, hNamed⟩
      rcases ih hApart.2 hNamed with ⟨S, hCard, hS⟩
      have hNot : a ∉ S := by
        intro hMem
        apply hApart.1
        rw [hName]
        exact (hS a hMem).2
      refine ⟨insert a S, ?_, ?_⟩
      · rw [Finset.card_insert_of_notMem hNot, hCard,
          List.length_cons]
      · intro b hMem
        rw [List.map_cons]
        rcases Finset.mem_insert.mp hMem with rfl | hOld
        · rw [hName]
          exact ⟨hP, List.mem_cons_self⟩
        · exact
            ⟨(hS b hOld).1,
              List.mem_cons_of_mem _ (hS b hOld).2⟩

end Protocol
