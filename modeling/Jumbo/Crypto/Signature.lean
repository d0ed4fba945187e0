import Mathlib.Algebra.GroupWithZero.Nat
import Mathlib.Data.FinEnum
import Mathlib.Data.List.Basic

/-
  The signature back ends of the configuration.

  The curve operations are primitives; what is modelled is
  how each back end takes a batch apart, looks keys up by
  member and calls its primitive. Every back end hashes the
  message first; the hash is taken as ideal, so a primitive
  gets the message itself. `none` stands for a panic.

  Main declarations:
    * `Primitives`
    * `SignatureType`
    * `verify`
    * `batchSignature`
    * `batchSignatureVerify`
    * `qcAggregateVerify`
    * `Genuine`
    * `Genuine.batch`
-/

------------------------------------------------------------
-- Primitives
------------------------------------------------------------

namespace Jumbo

namespace Crypto

/- Messages, keys and signatures are bytes. -/
abbrev Bytes := List UInt8

instance (priority := 2000) lawfulBEq_bytes : LawfulBEq Bytes :=
  inferInstance

/- The values of `SignatureType` that are accepted. -/
inductive SignatureType where
| ecdsa
| schnorr
| schnorrAggregate
| bls
deriving DecidableEq, Repr

/- The curve operations under the keys of `n` parties. -/
structure Primitives (n : Nat) where
  -- an ECDSA or a Schnorr signature of 64 bytes
  verify : Fin n → Bytes → Bytes → Bool
  aggregateSign : Bytes → List (Fin n) → Bytes → Option Bytes
  aggregateVerify : Bytes → List (Fin n) → Bytes → Bool
  -- BLS; no value when a signature cannot be decoded
  blsVerify : Fin n → Bytes → Bytes → Option Bool
  blsAggregate : List Bytes → Option Bytes
  fastAggregateVerify :
    Bytes → List (Fin n) → Bytes → Option Bool
  verifyAggregateHashes :
    Bytes → List (List (Fin n)) → List Bytes → Option Bool

variable {n : Nat}

/- `Pks[mem-1]`, with members counted from one. -/
def key (n : Nat) (mem : Int32) : Option (Fin n) :=
  if hRange : 1 ≤ mem.toInt ∧ mem.toInt ≤ n then
    some ⟨(mem.toInt - 1).toNat, by omega⟩
  else none

/- The keys of all members, if all are known. -/
def keys (n : Nat) (mems : List Int32) :
    Option (List (Fin n)) :=
  mems.mapM (key n)

end Crypto

end Jumbo

------------------------------------------------------------
-- Signing and Verifying
------------------------------------------------------------

namespace Jumbo

namespace Crypto

variable {n : Nat}

/-
  `Verify` of one signature. The curve library is given the
  address of the first byte and reads 64.
-/
def verify
    (prim : Primitives n) (type : SignatureType)
    (id : Fin n) (signature msg : Bytes) : Option Bool :=
  match type with
  | .ecdsa | .schnorr | .schnorrAggregate =>
      if signature = [] then none
      else some (prim.verify id (signature.take 64) msg)
  | .bls => prim.blsVerify id signature msg

/- `BatchSignature` of the signatures collected. -/
def batchSignature
    (prim : Primitives n) (type : SignatureType)
    (signatures : List Bytes) (msg : Bytes)
    (mems : List Int32) : Option Bytes :=
  match type with
  | .ecdsa | .schnorr => some signatures.flatten
  | .schnorrAggregate =>
      if signatures.length ≠ mems.length then none
      else if signatures.all (64 ≤ ·.length) then
        (keys n mems).bind fun pks =>
          prim.aggregateSign
            (signatures.map (·.take 64)).flatten pks msg
      else none
  | .bls =>
      if mems.length ≤ signatures.length then
        prim.blsAggregate (signatures.take mems.length)
      else none

/- The loop of ECDSA and Schnorr over the members. -/
def verifyEach
    (prim : Primitives n) (msg : Bytes) :
    Bytes → List Int32 → Option Bool
| _, [] => some true
| signs, mem :: mems =>
    match key n mem with
    | none => none
    | some id =>
        if prim.verify id (signs.take 64) msg then
          verifyEach prim msg (signs.drop 64) mems
        else some false

/- `BatchSignatureVerify`. -/
def batchSignatureVerify
    (prim : Primitives n) (type : SignatureType)
    (signs msg : Bytes) (mems : List Int32) : Option Bool :=
  match type with
  | .ecdsa | .schnorr =>
      if signs.length / 64 ≠ mems.length then none
      else verifyEach prim msg signs mems
  | .schnorrAggregate =>
      if signs.length / 32 ≠ mems.length + 1 then none
      else
        match keys n mems with
        | none | some [] => none
        | some pks =>
            some (prim.aggregateVerify signs pks msg)
  | .bls =>
      match keys n mems with
      | none => none
      | some pks => prim.fastAggregateVerify signs pks msg

/- `QCAggregate` of several batches. -/
def qcAggregate
    (prim : Primitives n) (type : SignatureType)
    (qcs : List Bytes) (mems : List (List Int32)) :
    Option Bytes :=
  match type with
  | .ecdsa | .schnorr | .schnorrAggregate => some []
  | .bls =>
      if mems.length ≤ qcs.length then
        prim.blsAggregate (qcs.take mems.length)
      else none

/- The keys of a batch, starting from its first member. -/
def aggregateKeys (n : Nat) (mems : List Int32) :
    Option (List (Fin n)) :=
  match mems with
  | [] => none
  | _ :: _ => keys n mems

/- `QCAggregateVerify`; only BLS looks at anything. -/
def qcAggregateVerify
    (prim : Primitives n) (type : SignatureType)
    (qcs : Bytes) (msgs : List Bytes)
    (mems : List (List Int32)) : Option Bool :=
  match type with
  | .ecdsa | .schnorr | .schnorrAggregate => some true
  | .bls =>
      if mems.length ≤ msgs.length then
        (mems.mapM (aggregateKeys n)).bind fun pks =>
          prim.verifyAggregateHashes qcs pks
            (msgs.take mems.length)
      else none

end Crypto

end Jumbo

------------------------------------------------------------
-- Looking Keys Up
------------------------------------------------------------

namespace Jumbo

namespace Crypto

section Lookup

variable {n : Nat}

/- Members are counted from one. -/
theorem key_eq_some {mem : Int32} {id : Fin n} :
    key n mem = some id ↔ mem.toInt = id.val + 1 := by
  unfold key
  have hLt := id.isLt
  constructor
  · intro hKey
    split at hKey
    · have hVal := congrArg Fin.val (Option.some.inj hKey)
      dsimp only at hVal
      omega
    · cases hKey
  · intro hMem
    rw [dif_pos (by omega), Option.some.injEq]
    apply Fin.ext
    dsimp only
    omega

/- A batch of lookups gives a value when every one does. -/
theorem mapM_eq_some_iff
    {α β : Type*} {f : α → Option β}
    {xs : List α} {ys : List β} :
    xs.mapM f = some ys ↔
      (∀ x ∈ xs, (f x).isSome) ∧ ys = xs.filterMap f := by
  induction xs generalizing ys with
  | nil =>
      rw [List.mapM_nil]
      constructor
      · intro h
        cases h
        exact ⟨fun _ hMem => (List.not_mem_nil hMem).elim, rfl⟩
      · rintro ⟨_, rfl⟩
        rfl
  | cons x xs ih =>
      rw [List.mapM_cons, List.forall_mem_cons]
      cases hFirst : f x with
      | none => simp
      | some y =>
          rw [List.filterMap_cons_some hFirst]
          simp only [Option.bind_eq_bind, Option.bind_some,
            Option.isSome_some, true_and, Option.pure_def,
            Option.bind_eq_some_iff, ih, Option.some.injEq]
          constructor
          · rintro ⟨_, ⟨hAll, rfl⟩, rfl⟩
            exact ⟨hAll, rfl⟩
          · rintro ⟨hAll, rfl⟩
            exact ⟨_, ⟨hAll, rfl⟩, rfl⟩

/- The values stand where the lookups do. -/
theorem getElem?_of_mapM
    {α β : Type*} {f : α → Option β}
    {xs : List α} {ys : List β}
    (hAll : xs.mapM f = some ys) (i : Nat) :
    ys[i]? = xs[i]?.bind f := by
  induction xs generalizing ys i with
  | nil =>
      rw [List.mapM_nil] at hAll
      cases hAll
      rfl
  | cons x xs ih =>
      rw [List.mapM_cons] at hAll
      rcases Option.bind_eq_some_iff.mp hAll with
        ⟨y, hFirst, hRest⟩
      rcases Option.bind_eq_some_iff.mp hRest with
        ⟨rest, hTail, hEq⟩
      cases hEq
      cases i with
      | zero => exact hFirst.symm
      | succ i => exact ih hTail i

/- There must be members and all must be known. -/
theorem aggregateKeys_eq_some
    {mems : List Int32} {ids : List (Fin n)} :
    aggregateKeys n mems = some ids ↔
      mems ≠ [] ∧ (∀ mem ∈ mems, (key n mem).isSome) ∧
        ids = mems.filterMap (key n) := by
  unfold aggregateKeys
  cases mems with
  | nil => simp
  | cons mem mems =>
      unfold keys
      dsimp only
      rw [mapM_eq_some_iff]
      exact
        ⟨fun h => ⟨List.cons_ne_nil _ _, h⟩, fun h => h.2⟩

/- BLS, when every batch has a message of its own. -/
theorem qcAggregateVerify_bls
    (prim : Primitives n) (qcs : Bytes) {α : Type*}
    (entries : List α) (message : α → Bytes)
    (members : α → List Int32) :
    qcAggregateVerify prim .bls qcs (entries.map message)
        (entries.map members) =
      if ∀ entry ∈ entries, members entry ≠ [] ∧
          ∀ mem ∈ members entry, (key n mem).isSome then
        prim.verifyAggregateHashes qcs
          (entries.map fun entry =>
            (members entry).filterMap (key n))
          (entries.map message)
      else none := by
  unfold qcAggregateVerify
  dsimp only
  rw [List.length_map, List.length_map, if_pos (Nat.le_refl _),
    List.mapM_map]
  split
  · rename_i hAll
    have hEach :
        ∀ entry ∈ entries,
          (aggregateKeys n ∘ members) entry =
            some ((members entry).filterMap (key n)) :=
      fun entry hEntry =>
        aggregateKeys_eq_some.mpr
          ⟨(hAll entry hEntry).1, (hAll entry hEntry).2, rfl⟩
    have hKeys :
        entries.mapM (aggregateKeys n ∘ members) =
          some (entries.map fun entry =>
            (members entry).filterMap (key n)) := by
      refine mapM_eq_some_iff.mpr ⟨?_, ?_⟩
      · intro entry hEntry
        rw [hEach entry hEntry]
        rfl
      · rw [List.filterMap_congr hEach, List.filterMap_eq_map']
    rw [hKeys, Option.bind_some,
      List.take_of_length_le (Nat.le_of_eq (List.length_map _))]
  · rename_i hNot
    rw [Option.bind_eq_none_iff]
    intro pks hKeys
    exfalso
    apply hNot
    intro entry hEntry
    have hSome := (mapM_eq_some_iff.mp hKeys).1 entry hEntry
    rcases Option.isSome_iff_exists.mp hSome with
      ⟨ids, hIds⟩
    have hEq := aggregateKeys_eq_some.mp hIds
    exact ⟨hEq.1, hEq.2.1⟩

end Lookup

end Crypto

end Jumbo

------------------------------------------------------------
-- Ideal Signatures
------------------------------------------------------------

namespace Jumbo

namespace Crypto

variable {n : Nat}

/-
  Nothing in the bytes `signs` verifies for a party and a
  message that are not in the relation `signed`.
-/
structure Genuine
    (prim : Primitives n)
    (signed : Fin n → Bytes → Prop) (signs : Bytes) :
    Prop where
  verify :
    ∀ id i msg,
      prim.verify id ((signs.drop (64 * i)).take 64) msg =
        true → signed id msg
  aggregateVerify :
    ∀ ids msg, prim.aggregateVerify signs ids msg = true →
      ∀ id ∈ ids, signed id msg
  blsVerify :
    ∀ id msg, prim.blsVerify id signs msg = some true →
      signed id msg
  fastAggregateVerify :
    ∀ ids msg,
      prim.fastAggregateVerify signs ids msg = some true →
        ∀ id ∈ ids, signed id msg

/- Curve operations that verify nothing but one signature. -/
def verifyOnly (verify : Fin n → Bytes → Bytes → Bool) :
    Primitives n where
  verify := verify
  aggregateSign := fun _ _ _ => none
  aggregateVerify := fun _ _ _ => false
  blsVerify := fun _ _ _ => none
  blsAggregate := fun _ => none
  fastAggregateVerify := fun _ _ _ => none
  verifyAggregateHashes := fun _ _ _ => none

/- Without aggregation each part is verified by itself. -/
theorem genuine_verifyOnly
    {verify : Fin n → Bytes → Bytes → Bool}
    {signed : Fin n → Bytes → Prop} {signs : Bytes}
    (hVerify :
      ∀ id i msg,
        verify id ((signs.drop (64 * i)).take 64) msg = true →
          signed id msg) :
    Genuine (verifyOnly verify) signed signs where
  verify := hVerify
  aggregateVerify := by
    intro ids msg hNever
    cases hNever
  blsVerify := by
    intro id msg hNever
    cases hNever
  fastAggregateVerify := by
    intro ids msg hNever
    cases hNever

/- The same of an aggregate of several batches. -/
def GenuineAggregate
    (prim : Primitives n)
    (signed : Fin n → Bytes → Prop) (qcs : Bytes) : Prop :=
  ∀ pks msgs,
    prim.verifyAggregateHashes qcs pks msgs = some true →
      ∀ pair ∈ pks.zip msgs, ∀ id ∈ pair.1,
        signed id pair.2

/- A part of an aggregate. -/
structure Part (n : Nat) where
  signs : Bytes
  ids : List (Fin n)
  msg : Bytes

/-
  Parts that verify for messages of their own: what they
  aggregate to verifies under the keys of the parts and no
  others. The order of keys does not matter.
-/
def Bilinear
    (prim : Primitives n) (parts : List (Part n)) : Prop :=
  (∀ part ∈ parts,
      prim.fastAggregateVerify part.signs part.ids part.msg =
        some true) →
    (parts.map Part.msg).Nodup →
      ∀ qcs,
        prim.blsAggregate (parts.map Part.signs) =
            some qcs →
          ∀ pks,
            prim.verifyAggregateHashes qcs pks
                  (parts.map Part.msg) =
                some true ↔
              pks ≠ [] ∧
                List.Forall₂ List.Perm pks
                  (parts.map Part.ids)

section Genuine

variable {prim : Primitives n}
variable {signed : Fin n → Bytes → Prop}
variable {signs msg : Bytes}

/- More signed messages keep a signature genuine. -/
theorem Genuine.mono
    {signed' : Fin n → Bytes → Prop}
    (hGenuine : Genuine prim signed signs)
    (hSigned : ∀ id msg, signed id msg → signed' id msg) :
    Genuine prim signed' signs where
  verify := fun id i msg h =>
    hSigned _ _ (hGenuine.verify id i msg h)
  aggregateVerify := fun ids msg h id hId =>
    hSigned _ _ (hGenuine.aggregateVerify ids msg h id hId)
  blsVerify := fun id msg h =>
    hSigned _ _ (hGenuine.blsVerify id msg h)
  fastAggregateVerify := fun ids msg h id hId =>
    hSigned _ _
      (hGenuine.fastAggregateVerify ids msg h id hId)

/- Every member of a list of keys is the key of a member. -/
theorem mem_keys
    {mems : List Int32} {ids : List (Fin n)}
    (hKeys : keys n mems = some ids)
    {mem : Int32} (hMem : mem ∈ mems) :
    ∃ id ∈ ids, key n mem = some id := by
  rcases mapM_eq_some_iff.mp hKeys with ⟨hAll, rfl⟩
  rcases Option.isSome_iff_exists.mp (hAll mem hMem) with
    ⟨id, hKey⟩
  exact ⟨id, List.mem_filterMap.mpr ⟨mem, hMem, hKey⟩, hKey⟩

/- Every member of a verified list has signed. -/
theorem Genuine.verifyEach
    {mems : List Int32} (i : Nat)
    (hGenuine : Genuine prim signed signs)
    (hVerify :
      Crypto.verifyEach prim msg (signs.drop (64 * i)) mems =
        some true)
    {mem : Int32} (hMem : mem ∈ mems) :
    ∃ id, key n mem = some id ∧ signed id msg := by
  induction mems generalizing i with
  | nil => cases hMem
  | cons first mems ih =>
      unfold Crypto.verifyEach at hVerify
      cases hFirst : key n first with
      | none =>
          rw [hFirst] at hVerify
          cases hVerify
      | some id =>
          rw [hFirst] at hVerify
          dsimp only at hVerify
          split at hVerify
          · rename_i hOne
            rcases List.mem_cons.mp hMem with rfl | hMem
            · exact
                ⟨id, hFirst, hGenuine.verify id i msg hOne⟩
            · rw [List.drop_drop] at hVerify
              exact ih (i + 1) hVerify hMem
          · cases hVerify

/- A member of a batch that verifies has signed. -/
theorem Genuine.batch
    {type : SignatureType} {mems : List Int32}
    (hGenuine : Genuine prim signed signs)
    (hVerify :
      batchSignatureVerify prim type signs msg mems =
        some true)
    {mem : Int32} (hMem : mem ∈ mems) :
    ∃ id, key n mem = some id ∧ signed id msg := by
  have hEach :
      (if signs.length / 64 ≠ mems.length then none
        else Crypto.verifyEach prim msg signs mems) =
        some true →
        ∃ id, key n mem = some id ∧ signed id msg := by
    intro h
    split at h
    · cases h
    · exact hGenuine.verifyEach 0 h hMem
  unfold batchSignatureVerify at hVerify
  cases type with
  | ecdsa => exact hEach hVerify
  | schnorr => exact hEach hVerify
  | schnorrAggregate =>
      dsimp only at hVerify
      split at hVerify
      · cases hVerify
      · split at hVerify
        · cases hVerify
        · cases hVerify
        · rename_i pks _ hKeys
          rcases mem_keys hKeys hMem with ⟨id, hId, hKey⟩
          injection hVerify with hVerify
          exact
            ⟨id, hKey,
              hGenuine.aggregateVerify _ _ hVerify id hId⟩
  | bls =>
      dsimp only at hVerify
      split at hVerify
      · cases hVerify
      · rename_i pks hKeys
        rcases mem_keys hKeys hMem with ⟨id, hId, hKey⟩
        exact
          ⟨id, hKey,
            hGenuine.fastAggregateVerify _ _ hVerify id hId⟩

/- A party whose signature verifies has signed. -/
theorem Genuine.single
    {type : SignatureType} {id : Fin n}
    (hGenuine : Genuine prim signed signs)
    (hVerify :
      Crypto.verify prim type id signs msg = some true) :
    signed id msg := by
  have hOne :
      (if signs = [] then none
        else some (prim.verify id (signs.take 64) msg)) =
        some true → signed id msg := by
    intro h
    split at h
    · cases h
    · injection h with h
      exact hGenuine.verify id 0 msg h
  unfold Crypto.verify at hVerify
  cases type with
  | ecdsa => exact hOne hVerify
  | schnorr => exact hOne hVerify
  | schnorrAggregate => exact hOne hVerify
  | bls => exact hGenuine.blsVerify id msg hVerify

end Genuine

end Crypto

end Jumbo
