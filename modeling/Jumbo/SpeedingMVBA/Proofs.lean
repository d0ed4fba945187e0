import Jumbo.SpeedingMVBA.Basic

/-
  What makes `check_values` accept an input.

  The proofs of an input start with the combined signature
  of a loop for the party of its coin, or with loop 0, and go
  on with one batch of votes no for each loop since. A batch
  of signatures that verify one by one verifies, when each of
  them has the length that the batch is cut into.

  Main declarations:
    * `Carries`
    * `Carries.checkValues`
    * `Combines`
    * `Combines.batchSign`
-/

------------------------------------------------------------
-- Proofs of an Input
------------------------------------------------------------

namespace Jumbo

namespace SpeedingMVBA

open Crypto (Bytes)
open Struct

variable {n : Nat}

/- A combined signature for a hash in a loop. -/
def Certified
    (cfg : Config n) (l : Nat) (c : Fin n) (hash : Bytes)
    (batch : BatchSignature) : Prop :=
  verifySigns cfg (cfg.marshal (cfg.rawMsg .pbc2 c hash l))
    batch = some true

/- Proofs for an input with this hash in loop `l`. -/
inductive Carries (cfg : Config n) (hash : Bytes) :
    Nat → List Proof → Prop
| start : Carries cfg hash 0 []
| coin (l : Nat) (batch : BatchSignature)
    (hCert : Certified cfg l (cfg.coin l) hash batch) :
    Carries cfg hash (l + 1) [⟨true, some batch⟩]
| no (l : Nat) (proofs : List Proof)
    (batch : BatchSignature)
    (hProofs : Carries cfg hash l proofs)
    (hNo :
      verifySigns cfg (cfg.tagged l .voteno) batch =
        some true) :
    Carries cfg hash (l + 1) (proofs ++ [⟨false, some batch⟩])

section Carries

variable {cfg : Config n} {hash : Bytes}

/- A certificate that verifies is accepted. -/
theorem accept_isSome
    {msg : Bytes} {batch : BatchSignature}
    (hVerify : verifySigns cfg msg batch = some true) :
    accept cfg msg (some batch) = some (msg, batch) := by
  simp [accept, hVerify]

/- One more batch of votes no. -/
theorem noCerts_snoc
    {l : Nat} {proofs : List Proof} {batch : BatchSignature}
    (hProofs : (noCerts cfg l proofs).isSome)
    (hNo :
      verifySigns cfg
          (cfg.tagged (l + proofs.length) .voteno) batch =
        some true) :
    (noCerts cfg l
      (proofs ++ [⟨false, some batch⟩])).isSome := by
  induction proofs generalizing l with
  | nil =>
      have hCert := accept_isSome hNo
      simp only [List.length_nil, Nat.add_zero] at hCert
      simp [noCerts, hCert]
  | cons proof proofs ih =>
      have hIndex :
          l + (proof :: proofs).length =
            l + 1 + proofs.length := by
        rw [List.length_cons]
        omega
      rw [hIndex] at hNo
      simp only [noCerts, List.cons_append] at hProofs ⊢
      split at hProofs
      · cases hProofs
      · rename_i hType
        rw [if_neg hType]
        cases hAccept :
            accept cfg (cfg.tagged l .voteno)
              proof.batchSigns with
        | none =>
            rw [hAccept] at hProofs
            cases hProofs
        | some cert =>
            rw [hAccept] at hProofs
            cases hRest : noCerts cfg (l + 1) proofs with
            | none =>
                rw [hRest] at hProofs
                cases hProofs
            | some certs =>
                rcases Option.isSome_iff_exists.mp
                    (ih (Option.isSome_iff_exists.mpr
                      ⟨certs, hRest⟩) hNo) with
                  ⟨certs', hMore⟩
                simp [hMore]

/- Where the proofs start. -/
theorem Carries.shape
    {l : Nat} {proofs : List Proof}
    (hCarries : Carries cfg hash l proofs) :
    (proofs.length = l ∧ (noCerts cfg 0 proofs).isSome) ∨
      ∃ start batch rest,
        proofs = ⟨true, some batch⟩ :: rest ∧
          l = start + 1 + rest.length ∧
            Certified cfg start (cfg.coin start) hash batch ∧
              (noCerts cfg (start + 1) rest).isSome := by
  induction hCarries with
  | start => exact .inl ⟨rfl, rfl⟩
  | coin l batch hCert =>
      exact .inr ⟨l, batch, [], rfl, rfl, hCert, rfl⟩
  | no l proofs batch _ hNo ih =>
      rcases ih with
        ⟨hLength, hCerts⟩ |
          ⟨start, first, rest, rfl, hLength, hCert, hCerts⟩
      · refine .inl ⟨?_, ?_⟩
        · rw [List.length_append, hLength,
            List.length_singleton]
        · refine noCerts_snoc hCerts ?_
          rw [hLength, Nat.zero_add]
          exact hNo
      · refine
          .inr ⟨start, first, rest ++ [⟨false, some batch⟩],
            rfl, ?_, hCert, ?_⟩
        · rw [List.length_append, List.length_singleton]
          omega
        · refine noCerts_snoc hCerts ?_
          rw [← hLength]
          exact hNo

/- Proofs that are there are accepted. -/
theorem Carries.checkValues
    {l : Nat} {msg : Msg} {oldCoins : List (Fin n)}
    (hCarries :
      Carries cfg (cfg.sha msg.rawMsg.values) l msg.oldProof)
    (hCoins : ∀ i < l, oldCoins[i]? = some (cfg.coin i)) :
    (checkValues cfg oldCoins l msg).isSome := by
  unfold SpeedingMVBA.checkValues
  split
  · rfl
  · rename_i hZero
    rcases hCarries.shape with
      ⟨hLength, hCerts⟩ |
        ⟨start, batch, rest, hProofs, hLength, hCert, hCerts⟩
    · cases hOld : msg.oldProof with
      | nil =>
          rw [hOld] at hLength
          exact absurd hLength.symm hZero
      | cons proof rest =>
          rw [hOld] at hLength hCerts
          have hNo : proof.type ≠ true := by
            intro hYes
            simp [noCerts, hYes] at hCerts
          dsimp only
          rw [if_neg hNo, if_pos hLength]
          exact hCerts
    · have hOldloop : l - (rest.length + 1) = start := by
        omega
      have hCoin := hCoins start (by omega)
      rcases Option.isSome_iff_exists.mp hCerts with
        ⟨certs, hCerts⟩
      have hAccept := accept_isSome hCert
      rw [hProofs]
      simp only [List.length_cons, if_true]
      rw [if_pos (by omega), hOldloop, hCoin]
      simp [hAccept, hCerts]

end Carries

end SpeedingMVBA

end Jumbo

------------------------------------------------------------
-- Batches of Signatures
------------------------------------------------------------

namespace Jumbo

namespace SpeedingMVBA

open Crypto (Bytes)
open Struct

variable {n : Nat}

/-
  What the code relies on of the signatures: the own one
  verifies under the own number and has 64 bytes, but for
  BLS, where it is a string of another length; and what the
  libraries aggregate verifies for those whose signatures do.
-/
structure Combines (cfg : Config n) : Prop where
  own :
    ∀ id msg,
      verifySign cfg msg (sign cfg id msg) = some true
  length :
    cfg.type = .bls ∨ ∀ id msg, (cfg.sign id msg).length = 64
  aggregate :
    ∀ (parts : List (Fin n × Bytes)) msg agg, parts ≠ [] →
      (∀ part ∈ parts,
        cfg.prim.verify part.1 part.2 msg = true) →
        cfg.prim.aggregateSign
            (parts.map (·.2)).flatten (parts.map (·.1)) msg =
          some agg →
          agg.length / 32 = parts.length + 1 ∧
            cfg.prim.aggregateVerify agg (parts.map (·.1))
              msg = true
  blsAggregate :
    ∀ (parts : List (Fin n × Bytes)) msg agg, parts ≠ [] →
      (∀ part ∈ parts,
        cfg.prim.blsVerify part.1 part.2 msg = some true) →
        cfg.prim.blsAggregate (parts.map (·.2)) = some agg →
          cfg.prim.fastAggregateVerify agg
              (parts.map (·.1)) msg = some true

/-
  ECDSA and Schnorr batches are cut every 64 bytes, while a
  single signature is read without a look at its length.
-/
def exact (cfg : Config n) (sign : Signature) : Bool :=
  match cfg.type with
  | .ecdsa | .schnorr => decide (sign.content.length = 64)
  | .schnorrAggregate | .bls => true

/- A signature that can go into a batch. -/
def Usable
    (cfg : Config n) (msg : Bytes) (sign : Signature) : Prop :=
  verifySign cfg msg sign = some true ∧
    exact cfg sign = true

/- An accepted signature verifies. -/
theorem acceptSign_eq_some
    {cfg : Config n} {msg : Bytes} {sign : Option Signature}
    {got : Signature}
    (hAccept : acceptSign cfg msg sign = some got) :
    sign = some got ∧ verifySign cfg msg got = some true := by
  unfold acceptSign at hAccept
  rcases Option.bind_eq_some_iff.mp hAccept with
    ⟨sign, rfl, hSign⟩
  rcases Option.ite_none_right_eq_some.mp hSign with
    ⟨hVerify, hEq⟩
  cases hEq
  exact ⟨rfl, hVerify⟩

/- An accepted certificate verifies. -/
theorem accept_eq_some
    {cfg : Config n} {msg : Bytes}
    {ss : Option BatchSignature} {cert : Cert}
    (hAccept : accept cfg msg ss = some cert) :
    ss = some cert.2 ∧
      verifySigns cfg msg cert.2 = some true := by
  unfold accept at hAccept
  rcases Option.bind_eq_some_iff.mp hAccept with
    ⟨batch, rfl, hBatch⟩
  rcases Option.ite_none_right_eq_some.mp hBatch with
    ⟨hVerify, hEq⟩
  cases hEq
  exact ⟨rfl, hVerify⟩

section Batch

variable {cfg : Config n} {msg : Bytes}
variable {signs : List Signature} {batch : BatchSignature}

/- Own signatures can be used. -/
theorem Combines.usable
    (hCombines : Combines cfg) (id : Fin n) (msg : Bytes) :
    Usable cfg msg (sign cfg id msg) := by
  refine ⟨hCombines.own id msg, ?_⟩
  unfold exact
  rcases hCombines.length with hBls | hLength
  · rw [hBls]
  · split
    · exact decide_eq_true (hLength id msg)
    · exact decide_eq_true (hLength id msg)
    · rfl
    · rfl

/- A single signature that verifies, by its type. -/
theorem verifySign_eq_some
    {sign : Signature}
    (hVerify : verifySign cfg msg sign = some true) :
    ∃ id, Crypto.key n sign.id = some id ∧
      Crypto.verify cfg.prim cfg.type id sign.content msg =
        some true := by
  unfold verifySign at hVerify
  exact Option.bind_eq_some_iff.mp hVerify

/- Signatures of 64 bytes verify one after the other. -/
theorem verifyEach_flatten
    (hSigns :
      ∀ sign ∈ signs, sign.content.length = 64 ∧
        ∃ id, Crypto.key n sign.id = some id ∧
          cfg.prim.verify id sign.content msg = true) :
    (signs.map (·.content)).flatten.length / 64 =
        signs.length ∧
      Crypto.verifyEach cfg.prim msg
          (signs.map (·.content)).flatten
          (signs.map (·.id)) = some true := by
  induction signs with
  | nil => exact ⟨rfl, rfl⟩
  | cons sign signs ih =>
      rcases hSigns sign (List.mem_cons_self ..) with
        ⟨hLength, id, hKey, hVerify⟩
      rcases ih fun s hs =>
          hSigns s (List.mem_cons_of_mem _ hs) with
        ⟨hRest, hEach⟩
      refine ⟨?_, ?_⟩
      · rw [List.map_cons, List.flatten_cons,
          List.length_append, hLength, List.length_cons]
        omega
      · simp only [List.map_cons, List.flatten_cons,
          Crypto.verifyEach, hKey]
        rw [List.take_left' hLength, if_pos hVerify,
          List.drop_left' hLength]
        exact hEach

/- The parties and the contents of signatures. -/
theorem exists_parts
    (verify : Fin n → Bytes → Prop)
    (hSigns :
      ∀ sign ∈ signs,
        ∃ id, Crypto.key n sign.id = some id ∧
          verify id sign.content) :
    ∃ parts : List (Fin n × Bytes),
      parts.map (·.2) = signs.map (·.content) ∧
        Crypto.keys n (signs.map (·.id)) =
          some (parts.map (·.1)) ∧
        ∀ part ∈ parts, verify part.1 part.2 := by
  induction signs with
  | nil => exact ⟨[], rfl, rfl, fun _ h => by cases h⟩
  | cons sign signs ih =>
      rcases hSigns sign (List.mem_cons_self ..) with
        ⟨id, hKey, hVerify⟩
      rcases ih fun s hs =>
          hSigns s (List.mem_cons_of_mem _ hs) with
        ⟨parts, hContents, hKeys, hAll⟩
      refine ⟨(id, sign.content) :: parts, ?_, ?_, ?_⟩
      · simp [hContents]
      · unfold Crypto.keys at hKeys ⊢
        simp [List.mapM_cons, hKey, hKeys]
      · intro part hMem
        rcases List.mem_cons.mp hMem with rfl | hMem
        · exact hVerify
        · exact hAll part hMem

/- An aggregate of usable signatures verifies. -/
theorem Combines.batch_aggregate
    {content : Bytes}
    (hCombines : Combines cfg)
    (hType : cfg.type = .schnorrAggregate) (hNe : signs ≠ [])
    (hUsable : ∀ sign ∈ signs, Usable cfg msg sign)
    (hContent :
      Crypto.batchSignature cfg.prim .schnorrAggregate
          (signs.map (·.content)) msg (signs.map (·.id)) =
        some content) :
    Crypto.batchSignatureVerify cfg.prim .schnorrAggregate
        content msg (signs.map (·.id)) = some true := by
  have hSigns :
      ∀ sign ∈ signs,
        ∃ id, Crypto.key n sign.id = some id ∧
          cfg.prim.verify id (sign.content.take 64) msg =
            true := by
    intro sign hMem
    rcases verifySign_eq_some (hUsable sign hMem).1 with
      ⟨id, hKey, hOne⟩
    refine ⟨id, hKey, ?_⟩
    simp only [Crypto.verify, hType] at hOne
    split at hOne
    · cases hOne
    · exact Option.some.inj hOne
  rcases exists_parts
      (fun id c => cfg.prim.verify id (c.take 64) msg = true)
      hSigns with
    ⟨parts, hContents, hKeys, hAll⟩
  have hLength : parts.length = signs.length := by
    simpa using congrArg List.length hContents
  let taken := parts.map fun part =>
    (part.1, part.2.take 64)
  have hTaken : taken ≠ [] := by
    simpa [taken, ← List.length_eq_zero_iff, hLength] using hNe
  have hVerify :
      ∀ part ∈ taken,
        cfg.prim.verify part.1 part.2 msg = true := by
    intro part hMem
    rcases List.mem_map.mp hMem with ⟨whole, hWhole, rfl⟩
    exact hAll whole hWhole
  have hIds : taken.map (·.1) = parts.map (·.1) := by
    simp [taken, Function.comp_def]
  have hBytes :
      taken.map (·.2) =
        (signs.map (·.content)).map (·.take 64) := by
    rw [← hContents]
    simp [taken, Function.comp_def]
  have hAgg :
      cfg.prim.aggregateSign (taken.map (·.2)).flatten
          (taken.map (·.1)) msg = some content := by
    simp only [Crypto.batchSignature, hKeys,
      Option.bind_some] at hContent
    rw [hBytes, hIds]
    split at hContent
    · cases hContent
    · exact (Option.ite_none_right_eq_some.mp hContent).2
  rcases hCombines.aggregate taken msg content hTaken hVerify
      hAgg with
    ⟨hCount, hMain⟩
  rw [hIds] at hMain
  simp only [taken, List.length_map, hLength] at hCount
  simp only [Crypto.batchSignatureVerify, List.length_map,
    hKeys, hCount, ne_eq, not_true_eq_false, if_false]
  cases hPks : parts.map (·.1) with
  | nil =>
      rw [List.map_eq_nil_iff] at hPks
      rw [hPks] at hLength
      exact
        absurd (List.length_eq_zero_iff.mp hLength.symm) hNe
  | cons pk pks =>
      rw [hPks] at hMain
      exact congrArg some hMain

/- So does one of the other kind. -/
theorem Combines.batch_bls
    {content : Bytes}
    (hCombines : Combines cfg)
    (hType : cfg.type = .bls) (hNe : signs ≠ [])
    (hUsable : ∀ sign ∈ signs, Usable cfg msg sign)
    (hContent :
      Crypto.batchSignature cfg.prim .bls
          (signs.map (·.content)) msg (signs.map (·.id)) =
        some content) :
    Crypto.batchSignatureVerify cfg.prim .bls content msg
        (signs.map (·.id)) = some true := by
  have hSigns :
      ∀ sign ∈ signs,
        ∃ id, Crypto.key n sign.id = some id ∧
          cfg.prim.blsVerify id sign.content msg =
            some true := by
    intro sign hMem
    rcases verifySign_eq_some (hUsable sign hMem).1 with
      ⟨id, hKey, hOne⟩
    refine ⟨id, hKey, ?_⟩
    simpa only [Crypto.verify, hType] using hOne
  rcases exists_parts
      (fun id c => cfg.prim.blsVerify id c msg = some true)
      hSigns with
    ⟨parts, hContents, hKeys, hAll⟩
  have hParts : parts ≠ [] := by
    rintro rfl
    exact hNe (by simpa using hContents.symm)
  have hAgg :
      cfg.prim.blsAggregate (parts.map (·.2)) =
        some content := by
    have hAll :
        (signs.map (·.content)).take signs.length =
          signs.map (·.content) :=
      List.take_of_length_le (by simp)
    rw [hContents, ← hAll]
    simpa [Crypto.batchSignature] using hContent
  simp only [Crypto.batchSignatureVerify, hKeys]
  exact
    hCombines.blsAggregate parts msg content hParts hAll hAgg

/- Signatures that verify make a batch that verifies. -/
theorem Combines.batchSign
    (hCombines : Combines cfg) (hNe : signs ≠ [])
    (hUsable : ∀ sign ∈ signs, Usable cfg msg sign)
    (hBatch : batchSign cfg msg signs = some batch) :
    verifySigns cfg msg batch = some true := by
  unfold SpeedingMVBA.batchSign at hBatch
  rcases Option.map_eq_some_iff.mp hBatch with
    ⟨content, hContent, rfl⟩
  unfold verifySigns Crypto.batchSignatureVerify
  unfold Crypto.batchSignature at hContent
  have hEach :
      (cfg.type = .ecdsa ∨ cfg.type = .schnorr) →
        content = (signs.map (·.content)).flatten →
          (if content.length / 64 ≠
              (signs.map (·.id)).length then none
            else
              Crypto.verifyEach cfg.prim msg content
                (signs.map (·.id))) = some true := by
    rintro hType rfl
    have hSigns :
        ∀ sign ∈ signs, sign.content.length = 64 ∧
          ∃ id, Crypto.key n sign.id = some id ∧
            cfg.prim.verify id sign.content msg = true := by
      intro sign hMem
      rcases hUsable sign hMem with ⟨hVerify, hExact⟩
      rcases verifySign_eq_some hVerify with ⟨id, hKey, hOne⟩
      have hLength : sign.content.length = 64 := by
        unfold exact at hExact
        rcases hType with hType | hType <;>
          rw [hType] at hExact <;>
          exact of_decide_eq_true hExact
      have hTake : sign.content.take 64 = sign.content :=
        List.take_of_length_le (by omega)
      have hFull : sign.content ≠ [] := by
        intro hNil
        rw [hNil] at hLength
        cases hLength
      refine ⟨hLength, id, hKey, ?_⟩
      unfold Crypto.verify at hOne
      rcases hType with hType | hType <;>
        simpa [hType, hFull, hTake] using hOne
    rcases verifyEach_flatten hSigns with ⟨hCount, hAll⟩
    rw [if_neg (by simpa using hCount)]
    exact hAll
  cases hType : cfg.type with
  | ecdsa =>
      rw [hType] at hContent
      exact hEach (.inl hType) (Option.some.inj hContent).symm
  | schnorr =>
      rw [hType] at hContent
      exact hEach (.inr hType) (Option.some.inj hContent).symm
  | schnorrAggregate =>
      rw [hType] at hContent
      exact hCombines.batch_aggregate hType hNe hUsable hContent
  | bls =>
      rw [hType] at hContent
      exact hCombines.batch_bls hType hNe hUsable hContent

end Batch

end SpeedingMVBA

end Jumbo
