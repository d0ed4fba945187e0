import Jumbo.SignatureFreeMVBA.Basic

/-
  What a party has stored of the broadcasts.

  A property of all outputs that the broadcasts have given to
  a party holds of what it has stored and of what it puts
  out.

  Main declarations:
    * `Stored`
    * `Party.Next`
    * `Stored.next`
-/

------------------------------------------------------------
-- Stored Values
------------------------------------------------------------

namespace Jumbo

namespace SignatureFreeMVBA

open ReliableBroadcast (Bytes)

variable {n : Nat}

/- What a party holds for a broadcast meets `Q`. -/
structure Stored
    (cfg : Config n) (Q : Fin n → Bytes → Prop)
    (party : Party n) : Prop where
  values :
    ∀ lid, party.rbcouts lid = [] ∨ Q lid (party.rbcouts lid)
  ready :
    ∀ lid, 0 < party.rbcready lid → Q lid (party.rbcouts lid)
  input :
    ∀ roundba, party.input roundba = true →
      Q (cfg.commonCoin roundba)
        (party.rbcouts (cfg.commonCoin roundba))
  output :
    ∀ v, party.output = some v → ∃ lid, Q lid v

section Stored

variable {cfg : Config n} {Q Q' : Fin n → Bytes → Prop}
variable {party party' : Party n}

theorem Stored.new : Stored cfg Q (Party.new n) where
  values := fun _ => .inl rfl
  ready := fun _ hPos => by cases hPos
  input := fun _ hTrue => by cases hTrue
  output := fun _ hv => by cases hv

/- Weaken the property of the values. -/
theorem Stored.mono
    (hStored : Stored cfg Q party)
    (hWeaker : ∀ lid v, Q lid v → Q' lid v) :
    Stored cfg Q' party where
  values := fun lid => (hStored.values lid).imp_right
    (hWeaker lid _)
  ready := fun lid hPos => hWeaker lid _
    (hStored.ready lid hPos)
  input := fun roundba hTrue => hWeaker _ _
    (hStored.input roundba hTrue)
  output := fun v hv => (hStored.output v hv).imp
    fun lid => hWeaker lid v

/- Only `rbcouts` and `rbcready` matter for an output taken. -/
theorem Stored.store
    {lid : Fin n} {value : Bytes}
    (hStored : Stored cfg Q party)
    (hValue : Q lid value) :
    Stored cfg Q (party.store lid value) := by
  have hSet :
      ∀ lid', Q lid' (party.rbcouts lid') →
        Q lid'
          (Function.update party.rbcouts lid value lid') := by
    intro lid' hOld
    by_cases hEq : lid' = lid
    · subst hEq
      rw [Function.update_self]
      exact hValue
    · rw [Function.update_of_ne hEq]
      exact hOld
  have hValues :
      ∀ lid',
        Function.update party.rbcouts lid value lid' = [] ∨
          Q lid'
            (Function.update party.rbcouts lid value
              lid') := by
    intro lid'
    by_cases hEq : lid' = lid
    · subst hEq
      rw [Function.update_self]
      exact .inr hValue
    · rw [Function.update_of_ne hEq]
      exact hStored.values lid'
  have hReady :
      ∀ lid',
        0 < Function.update party.rbcready lid
            (party.rbcready lid + 2) lid' →
          Q lid'
            (Function.update party.rbcouts lid value
              lid') := by
    intro lid' hPos
    by_cases hEq : lid' = lid
    · subst hEq
      rw [Function.update_self]
      exact hValue
    · rw [Function.update_of_ne hEq] at hPos ⊢
      exact hStored.ready lid' hPos
  unfold Party.store
  dsimp only
  split <;>
    exact
      { values := hValues
        ready := hReady
        input := fun roundba hTrue =>
          hSet _ (hStored.input roundba hTrue)
        output := hStored.output }

/- A good value of a broadcast is stored. -/
theorem Stored.take1
    {lid : Fin n} {values : List Bytes}
    (hStored : Stored cfg Q party)
    (hValues : ∀ v ∈ values, Q lid v)
    (hTake : party.take1 lid values = some party') :
    Stored cfg Q party' := by
  unfold Party.take1 at hTake
  split at hTake
  · rename_i value hMem
    cases hTake
    exact Stored.store { hStored with }
      (hValues value (List.mem_of_getElem? hMem))
  · cases hTake

/- So is the second one. -/
theorem Stored.take2
    {lid : Fin n} {values : List Bytes}
    (hStored : Stored cfg Q party)
    (hValues : ∀ v ∈ values, Q lid v)
    (hTake : party.take2 lid values = some party') :
    Stored cfg Q party' := by
  unfold Party.take2 at hTake
  split at hTake
  · rename_i value hMem
    cases hTake
    exact Stored.store { hStored with }
      (hValues value (List.mem_of_getElem? hMem))
  · cases hTake

/- The election stores nothing. -/
theorem Stored.elect
    (hStored : Stored cfg Q party) :
    Stored cfg Q (party.elect cfg) :=
  { hStored with
    input := by
      intro roundba hTrue
      by_cases hEq : roundba = party.roundba
      · subst hEq
        simp only [Party.elect, Function.update_self,
          decide_eq_true_eq] at hTrue
        exact (hStored.values _).resolve_left hTrue
      · apply hStored.input
        simpa [Party.elect, hEq] using hTrue }

/- The second input stores nothing. -/
theorem Stored.second
    {roundba : Nat}
    (hStored : Stored cfg Q party)
    (hSecond : party.second cfg roundba = some party') :
    Stored cfg Q party' := by
  unfold Party.second at hSecond
  dsimp only at hSecond
  rcases Option.ite_none_right_eq_some.mp hSecond with
    ⟨⟨_, hPos⟩, hEq⟩
  cases hEq
  exact
    { hStored with
      ready := by
        intro lid hReady
        apply hStored.ready
        by_cases hEq : lid = cfg.commonCoin roundba
        · rw [hEq]
          exact hPos
        · simpa [hEq] using hReady
      input := by
        intro roundba' hTrue
        by_cases hEq : roundba' = roundba
        · rw [hEq]
          exact hStored.ready _ hPos
        · apply hStored.input
          simpa [hEq] using hTrue }

/- The value put out is the one stored for the elected party. -/
theorem Stored.finish
    (hStored : Stored cfg Q party)
    (hCoin :
      Q (cfg.commonCoin party.roundba)
        (party.rbcouts (cfg.commonCoin party.roundba))) :
    Stored cfg Q (party.finish cfg) :=
  { hStored with
    output := by
      intro v hv
      cases hv
      exact ⟨_, hCoin⟩ }

/- An agreement stores nothing. -/
theorem Stored.agree
    {output : Bool}
    (hStored : Stored cfg Q party) :
    Stored cfg Q (party.agree cfg output) := by
  unfold Party.agree
  cases output with
  | true =>
      rw [if_pos rfl]
      split
      · rename_i hInput
        exact hStored.finish (hStored.input _ hInput)
      · exact { hStored with }
  | false =>
      rw [if_neg (by decide)]
      exact { hStored with }

/- What is put out was stored. -/
theorem Stored.await
    (hStored : Stored cfg Q party)
    (hAwait : party.await cfg = some party') :
    Stored cfg Q party' := by
  unfold Party.await at hAwait
  dsimp only at hAwait
  rcases Option.ite_none_right_eq_some.mp hAwait with
    ⟨hPos, hEq⟩
  cases hEq
  apply Stored.finish
  · exact
      { hStored with
        ready := by
          intro lid hReady
          apply hStored.ready
          by_cases hEq : lid = cfg.commonCoin party.roundba
          · rw [hEq]
            exact hPos
          · simpa [hEq] using hReady }
  · exact hStored.ready _ hPos

end Stored

end SignatureFreeMVBA

end Jumbo

------------------------------------------------------------
-- Steps of the Variables
------------------------------------------------------------

namespace Jumbo

namespace SignatureFreeMVBA

open ReliableBroadcast (Bytes)

variable {n : Nat}

/-
  A step of a party on what the broadcasts have given to it,
  with any output of the agreement.
-/
inductive Party.Next
    (cfg : Config n) (outputs : Fin n → List Bytes)
    (party : Party n) : Party n → Prop
| take1 (lid : Fin n) (values : List Bytes)
    (party' : Party n)
    (hValues : ∀ v ∈ values, v ∈ outputs lid)
    (hTake : party.take1 lid values = some party') :
    Next cfg outputs party party'
| take2 (lid : Fin n) (values : List Bytes)
    (party' : Party n)
    (hValues : ∀ v ∈ values, v ∈ outputs lid)
    (hTake : party.take2 lid values = some party') :
    Next cfg outputs party party'
| coinready :
    Next cfg outputs party
      { party with
        coinready := party.coinready - 1
        main := .elect }
| elect : Next cfg outputs party (party.elect cfg)
| second (roundba : Nat) (party' : Party n)
    (hSecond : party.second cfg roundba = some party') :
    Next cfg outputs party party'
| agree (output : Bool) :
    Next cfg outputs party (party.agree cfg output)
| await (party' : Party n)
    (hAwait : party.await cfg = some party') :
    Next cfg outputs party party'

/- Every step of a party stores good values only. -/
theorem Stored.next
    {cfg : Config n} {Q : Fin n → Bytes → Prop}
    {outputs : Fin n → List Bytes} {party party' : Party n}
    (hStored : Stored cfg Q party)
    (hNext : party.Next cfg outputs party')
    (hOutputs : ∀ lid, ∀ v ∈ outputs lid, Q lid v) :
    Stored cfg Q party' := by
  cases hNext with
  | take1 lid values _ hValues hTake =>
      exact
        hStored.take1
          (fun v hv => hOutputs lid v (hValues v hv)) hTake
  | take2 lid values _ hValues hTake =>
      exact
        hStored.take2
          (fun v hv => hOutputs lid v (hValues v hv)) hTake
  | coinready => exact { hStored with }
  | elect => exact hStored.elect
  | second roundba _ hSecond => exact hStored.second hSecond
  | agree output => exact hStored.agree
  | await _ hAwait => exact hStored.await hAwait

/- A party that has launched stays so. -/
theorem Party.Next.main_ne
    {cfg : Config n} {outputs : Fin n → List Bytes}
    {party party' : Party n}
    (hNext : party.Next cfg outputs party')
    (hMain : party.main ≠ .idle) :
    party'.main ≠ .idle := by
  have hStore :
      ∀ (party : Party n) (lid : Fin n) (value : Bytes),
        (party.store lid value).main = party.main := by
    intro party lid value
    unfold Party.store
    dsimp only
    split <;> rfl
  cases hNext with
  | take1 lid values _ _ hTake =>
      unfold Party.take1 at hTake
      split at hTake
      · cases hTake
        rw [hStore]
        exact hMain
      · cases hTake
  | take2 lid values _ _ hTake =>
      unfold Party.take2 at hTake
      split at hTake
      · cases hTake
        rw [hStore]
        exact hMain
      · cases hTake
  | coinready | elect => exact Main.noConfusion
  | second roundba _ hSecond =>
      unfold Party.second at hSecond
      dsimp only at hSecond
      rcases Option.ite_none_right_eq_some.mp hSecond with
        ⟨_, hEq⟩
      cases hEq
      exact hMain
  | agree output =>
      unfold Party.agree
      split
      · split <;> exact Main.noConfusion
      · exact Main.noConfusion
  | await _ hAwait =>
      unfold Party.await at hAwait
      dsimp only at hAwait
      rcases Option.ite_none_right_eq_some.mp hAwait with
        ⟨_, hEq⟩
      cases hEq
      exact Main.noConfusion

end SignatureFreeMVBA

end Jumbo
