import Jumbo.Crypto.Signature

/-
  Batches of valid signatures.

  Each back end makes a batch out of signatures it has not
  looked at. When every one of them is valid, and no member
  comes twice, the batch verifies.

  Main declarations:
    * `validSign`
    * `Aggregates`
    * `batch_of_valid`
-/

------------------------------------------------------------
-- Valid Signatures
------------------------------------------------------------

namespace Jumbo

namespace Crypto

variable {n : Nat}

/- A signature of the length the curve library writes. -/
def validSign
    (prim : Primitives n) (type : SignatureType)
    (msg : Bytes) (mem : Int32) (content : Bytes) : Bool :=
  (key n mem).any fun id =>
    verify prim type id content msg = some true &&
      (type = .bls || content.length = 64)

/-
  The aggregates of different parties' signatures, when each
  of these verifies: they verify, and those of Schnorr have
  32 bytes for each of them and 32 more.
-/
structure Aggregates (prim : Primitives n) (msg : Bytes) :
    Prop where
  schnorr :
    ∀ parts : List (Fin n × Bytes), parts ≠ [] →
      (parts.map Prod.fst).Nodup →
        (∀ part ∈ parts, part.2.length = 64 ∧
          prim.verify part.1 part.2 msg = true) →
          ∃ batch,
            prim.aggregateSign (parts.map Prod.snd).flatten
                (parts.map Prod.fst) msg = some batch ∧
              batch.length = 32 * (parts.length + 1) ∧
                prim.aggregateVerify batch
                  (parts.map Prod.fst) msg = true
  bls :
    ∀ parts : List (Fin n × Bytes), parts ≠ [] →
      (parts.map Prod.fst).Nodup →
        (∀ part ∈ parts,
          prim.blsVerify part.1 part.2 msg = some true) →
          ∃ batch,
            prim.blsAggregate (parts.map Prod.snd) =
                some batch ∧
              prim.fastAggregateVerify batch
                (parts.map Prod.fst) msg = some true

section Batch

variable {prim : Primitives n} {type : SignatureType}
variable {msg : Bytes}

/-
  A signature is valid if its party is known, it verifies
  and it has the length that its type asks for.
-/
theorem validSign_iff
    {mem : Int32} {content : Bytes} :
    validSign prim type msg mem content = true ↔
      ∃ id, key n mem = some id ∧
        verify prim type id content msg = some true ∧
          (type = .bls ∨ content.length = 64) := by
  unfold validSign
  rw [Option.any_eq_true]
  simp only [Bool.and_eq_true, Bool.or_eq_true,
    decide_eq_true_eq]

/- The keys of valid signatures are found, and differ. -/
theorem keys_of_valid
    {parts : List (Int32 × Bytes)}
    (hValid :
      ∀ part ∈ parts,
        validSign prim type msg part.1 part.2 = true)
    (hNodup : (parts.map Prod.fst).Nodup) :
    ∃ found : List (Fin n × Bytes),
      keys n (parts.map Prod.fst) =
          some (found.map Prod.fst) ∧
        found.map Prod.snd = parts.map Prod.snd ∧
          (found.map Prod.fst).Nodup ∧
            ∀ one ∈ found,
              (∃ part ∈ parts, key n part.1 = some one.1) ∧
                verify prim type one.1 one.2 msg =
                    some true ∧
                  (type = .bls ∨ one.2.length = 64) := by
  induction parts with
  | nil =>
      exact
        ⟨[], rfl, rfl, List.nodup_nil, List.forall_mem_nil _⟩
  | cons part parts ih =>
      have hFirst := hValid part List.mem_cons_self
      have hCons := List.nodup_cons.mp hNodup
      rcases validSign_iff.mp hFirst with
        ⟨id, hKey, hVerify, hLength⟩
      rcases ih
        (fun other hOther =>
          hValid other (List.mem_cons_of_mem _ hOther))
        hCons.2 with ⟨found, hKeys, hSnd, hFound, hEach⟩
      refine ⟨(id, part.2) :: found, ?_, ?_, ?_, ?_⟩
      · unfold keys at hKeys ⊢
        rw [List.map_cons, List.mapM_cons, hKey, hKeys]
        rfl
      · rw [List.map_cons, List.map_cons, hSnd]
      · rw [List.map_cons, List.nodup_cons]
        refine ⟨?_, hFound⟩
        intro hMem
        rcases List.mem_map.mp hMem with ⟨one, hOne, hEq⟩
        rcases (hEach one hOne).1 with ⟨other, hOther, hKey'⟩
        -- two members of one key are the same
        have hSame : other.1 = part.1 := by
          rw [key_eq_some] at hKey hKey'
          apply Int32.toInt_inj.mp
          rw [hKey, hKey', hEq]
        apply hCons.1
        rw [← hSame]
        exact List.mem_map_of_mem hOther
      · intro one hOne
        rcases List.mem_cons.mp hOne with rfl | hOne
        · exact
            ⟨⟨part, List.mem_cons_self, hKey⟩, hVerify,
              hLength⟩
        · rcases hEach one hOne with
            ⟨⟨other, hOther, hKey'⟩, hRest⟩
          exact
            ⟨⟨other, List.mem_cons_of_mem _ hOther, hKey'⟩,
              hRest⟩

/- Joined signatures are taken apart and verified. -/
theorem verifyEach_flatten
    {found : List (Fin n × Bytes)} {mems : List Int32}
    (hKeys : keys n mems = some (found.map Prod.fst))
    (hEach :
      ∀ one ∈ found, one.2.length = 64 ∧
        prim.verify one.1 one.2 msg = true) :
    verifyEach prim msg (found.map Prod.snd).flatten mems =
      some true := by
  induction mems generalizing found with
  | nil => rfl
  | cons mem mems ih =>
      unfold keys at hKeys
      rw [List.mapM_cons] at hKeys
      rcases Option.bind_eq_some_iff.mp hKeys with
        ⟨id, hKey, hRest⟩
      rcases Option.bind_eq_some_iff.mp hRest with
        ⟨ids, hIds, hEq⟩
      cases found with
      | nil => cases hEq
      | cons one found =>
          cases hEq
          have hOne := hEach one List.mem_cons_self
          unfold verifyEach
          rw [hKey]
          dsimp only
          rw [List.map_cons, List.flatten_cons,
            List.take_left' hOne.1, List.drop_left' hOne.1,
            if_pos hOne.2]
          exact
            ih hIds fun other hOther =>
              hEach other (List.mem_cons_of_mem _ hOther)

/- The verdict of a back end on one 64-byte signature. -/
theorem verify_of_curve
    {id : Fin n} {content : Bytes}
    (hType : type ≠ .bls)
    (hVerify : verify prim type id content msg = some true)
    (hLength : content.length = 64) :
    prim.verify id content msg = true := by
  have hTake : content.take 64 = content := by
    rw [← hLength]
    exact List.take_length
  have hOne :
      (if content = [] then none
        else some (prim.verify id (content.take 64) msg)) =
        some true → prim.verify id content msg = true := by
    intro h
    rw [hTake] at h
    split at h
    · cases h
    · exact Option.some.inj h
  unfold verify at hVerify
  cases type with
  | ecdsa => exact hOne hVerify
  | schnorr => exact hOne hVerify
  | schnorrAggregate => exact hOne hVerify
  | bls => exact absurd rfl hType

/-
  Valid signatures of different members make a batch that
  verifies.
-/
theorem batch_of_valid
    {parts : List (Int32 × Bytes)}
    (hAggregates : Aggregates prim msg)
    (hValid :
      ∀ part ∈ parts,
        validSign prim type msg part.1 part.2 = true)
    (hNodup : (parts.map Prod.fst).Nodup)
    (hSome : parts ≠ []) :
    ∃ batch,
      batchSignature prim type (parts.map Prod.snd) msg
          (parts.map Prod.fst) = some batch ∧
        batchSignatureVerify prim type batch msg
          (parts.map Prod.fst) = some true := by
  rcases keys_of_valid hValid hNodup with
    ⟨found, hKeys, hSnd, hFound, hEach⟩
  have hLength : found.length = parts.length := by
    have hSame := congrArg List.length hSnd
    rw [List.length_map, List.length_map] at hSame
    exact hSame
  have hNe : found ≠ [] := by
    intro hNil
    rw [hNil] at hLength
    exact hSome (List.length_eq_zero_iff.mp hLength.symm)
  have hCurve :
      type ≠ .bls →
        ∀ one ∈ found, one.2.length = 64 ∧
          prim.verify one.1 one.2 msg = true := by
    intro hType one hOne
    rcases hEach one hOne with ⟨_, hVerify, hLong⟩
    have hLong := hLong.resolve_left hType
    exact ⟨hLong, verify_of_curve hType hVerify hLong⟩
  have hFlat :
      type ≠ .bls →
        (parts.map Prod.snd).flatten.length =
          64 * parts.length := by
    intro hType
    rw [← hSnd, ← hLength]
    have hAll := hCurve hType
    clear * - hAll
    induction found with
    | nil => rfl
    | cons one found ih =>
        rw [List.map_cons, List.flatten_cons,
          List.length_append,
          (hAll one List.mem_cons_self).1,
          ih fun other hOther =>
            hAll other (List.mem_cons_of_mem _ hOther),
          List.length_cons]
        omega
  have hJoined :
      type ≠ .bls →
        (if (parts.map Prod.snd).flatten.length / 64 ≠
              (parts.map Prod.fst).length then none
          else
            verifyEach prim msg (parts.map Prod.snd).flatten
              (parts.map Prod.fst)) = some true := by
    intro hType
    rw [if_neg (by
      rw [hFlat hType, List.length_map]
      omega), ← hSnd]
    exact verifyEach_flatten hKeys (hCurve hType)
  unfold batchSignature batchSignatureVerify
  cases type with
  | ecdsa => exact ⟨_, rfl, hJoined nofun⟩
  | schnorr => exact ⟨_, rfl, hJoined nofun⟩
  | schnorrAggregate =>
      rcases hAggregates.schnorr found hNe hFound
        (hCurve nofun) with ⟨batch, hSign, hLong, hVerify⟩
      have hAll :
          (parts.map Prod.snd).all (64 ≤ ·.length) = true := by
        rw [List.all_eq_true, ← hSnd]
        intro content hMem
        rcases List.mem_map.mp hMem with ⟨one, hOne, rfl⟩
        exact
          decide_eq_true (hCurve nofun one hOne).1.ge
      have hTake :
          (parts.map Prod.snd).map (·.take 64) =
            found.map Prod.snd := by
        rw [← hSnd, List.map_map]
        apply List.map_congr_left
        intro one hOne
        exact List.take_of_length_le (hCurve nofun one hOne).1.le
      refine ⟨batch, ?_, ?_⟩
      · dsimp only
        rw [if_neg (by simp), if_pos hAll, hKeys, hTake]
        exact hSign
      · dsimp only
        rw [if_neg (by
          rw [hLong, hLength, List.length_map]
          omega), hKeys]
        cases found with
        | nil => exact absurd rfl hNe
        | cons one found => exact congrArg some hVerify
  | bls =>
      rcases hAggregates.bls found hNe hFound
        (by
          intro one hOne
          exact (hEach one hOne).2.1) with
        ⟨batch, hSign, hVerify⟩
      refine ⟨batch, ?_, ?_⟩
      · dsimp only
        rw [if_pos (by simp), List.take_of_length_le (by simp),
          ← hSnd]
        exact hSign
      · dsimp only
        rw [hKeys]
        exact hVerify

end Batch

end Crypto

end Jumbo
