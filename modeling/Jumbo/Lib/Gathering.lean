import Mathlib.Data.Fintype.Card

/-
  Slots that are filled one entry after the other.

  An entry names its slot, and a later entry of a slot takes
  the place of an earlier one. As many slots are filled as
  there are entries exactly when no slot is named twice and
  no entry is blank.

  Main declarations:
    * `gather`
    * `filled`
    * `length_le_filled_iff`
-/

------------------------------------------------------------
-- Filling Slots
------------------------------------------------------------

namespace Protocol

namespace Gathering

variable {ι α : Type*} [DecidableEq ι]

/- Fill the slots in the order of the entries. -/
def gather (blank : α) (entries : List (ι × α)) : ι → α :=
  entries.foldl
    (fun slots entry =>
      Function.update slots entry.1 entry.2)
    fun _ => blank

section Gather

variable {blank : α} {entries : List (ι × α)}

/- The last entry overwrites the slot of its key. -/
theorem gather_append
    (entries : List (ι × α)) (entry : ι × α) :
    gather blank (entries ++ [entry]) =
      Function.update (gather blank entries) entry.1
        entry.2 := by
  unfold gather
  rw [List.foldl_append]
  rfl

/- What is in a slot has been put there. -/
theorem mem_of_gather_ne
    {i : ι} (hFilled : gather blank entries i ≠ blank) :
    (i, gather blank entries i) ∈ entries := by
  induction entries using List.reverseRecOn with
  | nil => exact absurd rfl hFilled
  | append_singleton entries entry ih =>
      rw [gather_append] at hFilled ⊢
      by_cases hSlot : i = entry.1
      · subst hSlot
        rw [Function.update_self]
        exact
          List.mem_append_right _
            (List.mem_singleton_self entry)
      · rw [Function.update_of_ne hSlot] at hFilled ⊢
        exact List.mem_append_left _ (ih hFilled)

/- Without repetition every entry stays in its slot. -/
theorem gather_of_mem
    (hNodup : (entries.map Prod.fst).Nodup)
    {entry : ι × α} (hMem : entry ∈ entries) :
    gather blank entries entry.1 = entry.2 := by
  induction entries using List.reverseRecOn with
  | nil => cases hMem
  | append_singleton entries last ih =>
      rw [List.map_append] at hNodup
      rcases List.nodup_append.mp hNodup with
        ⟨hBefore, _, hApart⟩
      rw [gather_append]
      rcases List.mem_append.mp hMem with hOld | hLast
      · have hNe : entry.1 ≠ last.1 :=
          hApart _ (List.mem_map_of_mem hOld) _
            (List.mem_singleton_self _)
        rw [Function.update_of_ne hNe]
        exact ih hBefore hOld
      · cases List.mem_singleton.mp hLast
        exact Function.update_self _ _ _

variable [Fintype ι] [DecidableEq α]

/- The slots that are filled. -/
def filled (blank : α) (slots : ι → α) : Finset ι :=
  Finset.univ.filter fun i => slots i ≠ blank

omit [DecidableEq ι] in
/- A slot is filled if it is not blank. -/
theorem mem_filled {slots : ι → α} {i : ι} :
    i ∈ filled blank slots ↔ slots i ≠ blank := by
  unfold filled
  rw [Finset.mem_filter]
  exact and_iff_right (Finset.mem_univ i)

/- Only the keys of entries are filled. -/
theorem filled_subset :
    filled blank (gather blank entries) ⊆
      (entries.map Prod.fst).toFinset := by
  intro i hi
  exact
    List.mem_toFinset.mpr
      (List.mem_map_of_mem
        (mem_of_gather_ne (mem_filled.mp hi)))

/- At most one slot is filled for each entry. -/
theorem card_filled_le :
    (filled blank (gather blank entries)).card ≤
      entries.length := by
  refine (Finset.card_le_card filled_subset).trans ?_
  refine (List.toFinset_card_le _).trans ?_
  rw [List.length_map]

/- No entry is lost or blank. -/
theorem length_le_filled_iff :
    entries.length ≤
        (filled blank (gather blank entries)).card ↔
      (entries.map Prod.fst).Nodup ∧
        ∀ entry ∈ entries, entry.2 ≠ blank := by
  constructor
  · intro hLe
    have hSlots :=
      List.toFinset_card_le (entries.map Prod.fst)
    rw [List.length_map] at hSlots
    have hSubset :=
      Finset.card_le_card
        (@filled_subset ι α _ blank entries _ _)
    have hNodup : (entries.map Prod.fst).Nodup := by
      rw [← List.dedup_eq_self]
      apply List.Sublist.eq_of_length (List.dedup_sublist _)
      rw [← List.card_toFinset, List.length_map]
      omega
    refine ⟨hNodup, ?_⟩
    intro entry hMem hBlank
    have hEq :
        filled blank (gather blank entries) =
          (entries.map Prod.fst).toFinset :=
      Finset.eq_of_subset_of_card_le filled_subset (by omega)
    have hIn : entry.1 ∈ filled blank (gather blank entries) := by
      rw [hEq]
      exact List.mem_toFinset.mpr (List.mem_map_of_mem hMem)
    exact
      mem_filled.mp hIn
        ((gather_of_mem hNodup hMem).trans hBlank)
  · rintro ⟨hNodup, hSome⟩
    have hSubset :
        (entries.map Prod.fst).toFinset ⊆
          filled blank (gather blank entries) := by
      intro i hi
      rcases List.mem_map.mp (List.mem_toFinset.mp hi) with
        ⟨entry, hMem, rfl⟩
      rw [mem_filled, gather_of_mem hNodup hMem]
      exact hSome entry hMem
    have hCard := Finset.card_le_card hSubset
    rw [List.toFinset_card_of_nodup hNodup,
      List.length_map] at hCard
    exact hCard

end Gather

end Gathering

end Protocol
