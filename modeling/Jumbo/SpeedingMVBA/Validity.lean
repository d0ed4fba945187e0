import Jumbo.SpeedingMVBA.Ballots
import Jumbo.SpeedingMVBA.Binding
import Jumbo.SpeedingMVBA.Counting
import Jumbo.SpeedingMVBA.NextLoop

/-
  What parties that run the code say verifies.

  Every signature is one that a party has made, every
  certificate is a batch of such, and a hash that is answered
  is one of an input. So no handler refuses a message of
  another party.

  Main declarations:
    * `Made` and `Aggregates`
    * `Valid`
    * `LoopValid`
    * `Honest`
-/

------------------------------------------------------------
-- Valid Messages
------------------------------------------------------------

namespace Jumbo

namespace SpeedingMVBA

namespace Agreement

open Crypto (Bytes)
open Protocol
open Struct

variable {n : Nat}

/- A signature of a party. -/
def Made
    (cfg : Config n) (bytes : Bytes) (s : Signature) : Prop :=
  ∃ q, s = sign cfg q bytes

/-
  The library in use aggregates signatures that verify one by
  one.
-/
structure Aggregates (cfg : Config n) : Prop where
  aggregate :
    cfg.type = .schnorrAggregate →
      ∀ (parts : List (Fin n × Bytes)) msg, parts ≠ [] →
        (∀ part ∈ parts,
          cfg.prim.verify part.1 part.2 msg = true) →
          (cfg.prim.aggregateSign (parts.map (·.2)).flatten
            (parts.map (·.1)) msg).isSome
  blsAggregate :
    cfg.type = .bls →
      ∀ (parts : List (Fin n × Bytes)) msg, parts ≠ [] →
        (∀ part ∈ parts,
          cfg.prim.blsVerify part.1 part.2 msg = some true) →
          (cfg.prim.blsAggregate (parts.map (·.2))).isSome

/- A hash of what a party has started the loop with. -/
def HashOf
    (cfg : Config n) (log : Log n) (l : Nat) (c : Fin n)
    (hash : Bytes) : Prop :=
  ∃ values, Input log l c values ∧ hash = cfg.sha values

/- A certificate that verifies. -/
def Verifies
    (cfg : Config n) (bytes : Bytes)
    (ss : Option BatchSignature) : Prop :=
  ∃ batch, ss = some batch ∧
    verifySigns cfg bytes batch = some true

/- An answer to a leader reaches nobody else. -/
def Answers
    (cfg : Config n) (log : Log n) (type : MsgType)
    (packet : Packet n) : Prop :=
  let msg := packet.msg
  let l := msg.rawMsg.loop
  ∃ leader,
    (∀ q, packet.dest q = true → q = leader) ∧
      HashOf cfg log l leader msg.rawMsg.values ∧
        msg.sign =
          some
            (sign cfg packet.src
              (cfg.marshal
                (cfg.rawMsg type leader msg.rawMsg.values l)))

/- A halt that every party adopts. -/
def HaltValid (cfg : Config n) (msg : Msg) : Prop :=
  let l := msg.rawMsg.loop
  let coin := cfg.coin l
  msg.rawMsg.id = coin.val + 1 ∧
    Verifies cfg
        (cfg.marshal
          (cfg.rawMsg .pbc4 coin (cfg.sha msg.rawMsg.values)
            l))
        msg.ss ∧
      Verifies cfg (cfg.share l) msg.ss2

/- What a message of a party that runs the code is like. -/
def Valid
    (cfg : Config n) (log : Log n) (packet : Packet n) :
    Prop :=
  let msg := packet.msg
  let l := msg.rawMsg.loop
  let coin := cfg.coin l
  let values := msg.rawMsg.values
  msg.rawMsg.round = cfg.round ∧
    match msg.rawMsg.type with
    | .pbc1 => ∀ q, q ≠ packet.src → packet.dest q = true
    | .pbc2 => Answers cfg log .pbc2 packet
    | .pbc3 =>
        HashOf cfg log l packet.src values ∧
          Verifies cfg
            (cfg.marshal
              (cfg.rawMsg .pbc2 packet.src values l))
            msg.ss
    | .pbc4 => Answers cfg log .pbc4 packet
    | .pi =>
        Verifies cfg
            (cfg.marshal
              (cfg.rawMsg .pbc4 packet.src (cfg.sha values) l))
            msg.ss ∧
          msg.sign =
            some (sign cfg packet.src (cfg.tagged l .ok))
    | .share =>
        Verifies cfg (cfg.tagged l .ok) msg.ss ∧
          msg.sign = some (sign cfg packet.src (cfg.share l))
    | .prevYes =>
        Verifies cfg
          (cfg.marshal
            (cfg.rawMsg .pbc2 coin (cfg.sha values) l))
          msg.ss
    | .prevNo =>
        msg.sign =
          some (sign cfg packet.src (cfg.tagged l .prevno))
    | .voteYes =>
        Verifies cfg
            (cfg.marshal
              (cfg.rawMsg .pbc2 coin (cfg.sha values) l))
            msg.ss ∧
          msg.sign =
            some
              (sign cfg packet.src
                (cfg.marshal
                  (cfg.rawMsg .pbc4 coin (cfg.sha values) l)))
    | .voteNo =>
        Verifies cfg (cfg.tagged l .prevno) msg.ss ∧
          msg.sign =
            some (sign cfg packet.src (cfg.tagged l .voteno))
    | .halt => HaltValid cfg msg

/- A party sends a valid message to others. -/
def Says
    (cfg : Config n) (id : Fin n) (log : Log n)
    (packet : Packet n) : Prop :=
  Valid cfg log packet ∧ packet.src = id ∧
    packet.dest id = false

/-
  The round is over for a party when it puts out a halt, and
  then the party broadcasts the halt.
-/
def Ends (id : Fin n) (m : MVBA n) (e : Effect n) : Prop :=
  (e.mvba.mvbaDone = m.mvbaDone ∧
      e.mvba.outputs = m.outputs) ∨
    (e.mvba.mvbaDone = true ∧
      ∃ msg, msg.rawMsg.type = .halt ∧
        e.mvba.outputs = m.outputs ++ [msg] ∧
          broadcast id msg ∈ e.sent)

/- The hash that `handle_PBC` answers. -/
def PBC.hash : PBC → Option Bytes
| .send2 hash | .wait3 hash | .send4 hash => some hash
| _ => none

/- The hash and the signatures of the own broadcast. -/
def MineValid
    (cfg : Config n) (id : Fin n) (log : Log n) (l : Nat) :
    MinePBC → Prop
| .wait2 hash signs =>
    HashOf cfg log l id hash ∧
      ∀ s ∈ signs,
        Made cfg (cfg.marshal (cfg.rawMsg .pbc2 id hash l)) s
| .send3 hash batch =>
    HashOf cfg log l id hash ∧ Certified cfg l id hash batch
| .wait4 hash signs =>
    HashOf cfg log l id hash ∧
      ∀ s ∈ signs,
        Made cfg (cfg.marshal (cfg.rawMsg .pbc4 id hash l)) s
| .done => True

/- The signatures that `handle_finish` has. -/
def FinishValid
    (cfg : Config n) (log : Log n) (l : Nat) :
    Finish n → Prop
| .prev _ yesFlag no _ =>
    (yesFlag = false → no ≠ []) ∧
      ∀ s ∈ no, Made cfg (cfg.tagged l .prevno) s
| .vote coin yes no =>
    (∀ s ∈ yes,
      ∃ values, Input log l coin values ∧
        Made cfg
          (cfg.marshal
            (cfg.rawMsg .pbc4 coin (cfg.sha values) l))
          s) ∧
      ∀ s ∈ no, Made cfg (cfg.tagged l .voteno) s
| _ => True

/- What a party holds of a loop verifies. -/
structure LoopValid
    (cfg : Config n) (id : Fin n) (log : Log n) (l : Nat)
    (li : LoopInfo n) : Prop where
  pbc :
    ∀ c hash, PBC.hash (li.pbc c) = some hash →
      HashOf cfg log l c hash
  mine : MineValid cfg id log l li.mine
  sigmas :
    ∀ c, 0 < (li.sigmas c).mems.length →
      ∃ values, Input log l c values ∧
        Certified cfg l c (cfg.sha values) (li.sigmas c)
  pis :
    ∀ c, 0 < (li.pis c).mems.length →
      ∃ values, Input log l c values ∧
        Proven cfg l c (cfg.sha values) (li.pis c)
  ok : ∀ s ∈ li.ok, Made cfg (cfg.tagged l .ok) s
  ready :
    ∀ batch ∈ li.shareReady,
      verifySigns cfg (cfg.tagged l .ok) batch = some true
  shareMine :
    ∀ msg, li.shareMine = some msg →
      Verifies cfg (cfg.tagged l .ok) msg.ss ∧
        msg.sign = some (sign cfg id (cfg.share l))
  shares : ∀ s ∈ li.shares, Made cfg (cfg.share l) s
  batch :
    li.handlesShare = false →
      verifySigns cfg (cfg.share l) li.shareBatch = some true
  finish : FinishValid cfg log l li.finish

/-
  A step in the loop `l` of a party that reads what others
  that run the code have sent.
-/
structure Honest
    (cfg : Config n) (id : Fin n) (log : Log n)
    (m : MVBA n) (l : Nat) (e : Effect n) : Prop where
  started : e.mvba.started = m.started
  halt : e.mvba.halt = m.halt
  returned : e.mvba.returned = m.returned
  loops : ∀ k, k ≠ l → e.mvba.loops k = m.loops k
  valid : LoopValid cfg id log l (e.mvba.loops l)
  inputs :
    ∀ c, (e.mvba.loops l).inputs c = (m.loops l).inputs c ∨
      Input log l c ((e.mvba.loops l).inputs c)
  proofs :
    ∀ k c, .sigma k c ∈ e.mvba.oldProofs →
      .sigma k c ∈ m.oldProofs ∨
        (k = l ∧ Input log l c ((e.mvba.loops l).inputs c))
  ends : Ends id m e
  sent : ∀ packet ∈ e.sent, Says cfg id log packet

end Agreement

end SpeedingMVBA

end Jumbo

------------------------------------------------------------
-- Signatures and Certificates
------------------------------------------------------------

namespace Jumbo

namespace SpeedingMVBA

namespace Agreement

open Crypto (Bytes)
open Protocol
open Struct

variable {n : Nat} {cfg : Config n} {id : Fin n}
variable {log log' : Log n} {m : MVBA n} {l : Nat}
variable {li li' : LoopInfo n} {e : Effect n}
variable {bytes : Bytes} {signs : List Signature}
variable {batch : BatchSignature}

/- A party starts a loop with one input. -/
theorem LogOk.input_eq
    (hLog : LogOk cfg log) {c : Fin n} {v w : Bytes}
    (hFirst : Input log l c v) (hSecond : Input log l c w) :
    v = w :=
  hLog.sound.functional hFirst hSecond

/- So it has one hash. -/
theorem LogOk.hash_eq
    (hLog : LogOk cfg log) {c : Fin n} {v hash : Bytes}
    (hHash : HashOf cfg log l c hash)
    (hInput : Input log l c v) :
    hash = cfg.sha v := by
  rcases hHash with ⟨values, hValues, rfl⟩
  rw [hLog.input_eq hValues hInput]

/- Signatures that parties have made can be put together. -/
theorem usable_of_made
    (hCombines : Combines cfg)
    (hMade : ∀ s ∈ signs, Made cfg bytes s) :
    ∀ s ∈ signs, Usable cfg bytes s := by
  intro s hMem
  rcases hMade s hMem with ⟨q, rfl⟩
  exact hCombines.usable q bytes

/- A batch of them verifies. -/
theorem verifies_of_made
    (hCombines : Combines cfg) (hNe : signs ≠ [])
    (hMade : ∀ s ∈ signs, Made cfg bytes s)
    (hBatch : batchSign cfg bytes signs = some batch) :
    verifySigns cfg bytes batch = some true :=
  hCombines.batchSign hNe (usable_of_made hCombines hMade)
    hBatch

/- One more signature. -/
theorem made_append
    (hMade : ∀ s ∈ signs, Made cfg bytes s)
    {got : Signature} (hGot : Made cfg bytes got) :
    ∀ s ∈ signs ++ [got], Made cfg bytes s := by
  intro s hMem
  rcases List.mem_append.mp hMem with hOld | hNew
  · exact hMade s hOld
  · rw [List.mem_singleton.mp hNew]
    exact hGot

/- A signature of a party is made by it. -/
theorem made_self (q : Fin n) (bytes : Bytes) :
    Made cfg bytes (sign cfg q bytes) :=
  ⟨q, rfl⟩

/- A batch of them can be put together. -/
theorem batchSign_isSome
    (hCombines : Combines cfg) (hAggregates : Aggregates cfg)
    (hNe : signs ≠ [])
    (hMade : ∀ s ∈ signs, Made cfg bytes s) :
    (batchSign cfg bytes signs).isSome := by
  have hUsable := usable_of_made hCombines hMade
  unfold batchSign
  rw [Option.isSome_map]
  unfold Crypto.batchSignature
  cases hType : cfg.type with
  | ecdsa | schnorr => rfl
  | schnorrAggregate =>
      have hSigns :
          ∀ s ∈ signs,
            ∃ id, Crypto.key n s.id = some id ∧
              64 ≤ s.content.length ∧
                cfg.prim.verify id (s.content.take 64) bytes =
                  true := by
        intro s hMem
        rcases verifySign_eq_some (hUsable s hMem).1 with
          ⟨id, hKey, hOne⟩
        simp only [Crypto.verify, hType] at hOne
        split at hOne
        · cases hOne
        · rename_i hLong
          refine ⟨id, hKey, ?_, Option.some.inj hOne⟩
          rcases hMade s hMem with ⟨q, rfl⟩
          rcases hCombines.length with hBls | hLength
          · rw [hBls] at hType
            cases hType
          · exact Nat.le_of_eq (hLength q bytes).symm
      rcases exists_parts
          (fun id c =>
            64 ≤ c.length ∧
              cfg.prim.verify id (c.take 64) bytes = true)
          hSigns with
        ⟨parts, hContents, hKeys, hAll⟩
      let taken := parts.map fun part =>
        (part.1, part.2.take 64)
      have hTaken : taken ≠ [] := by
        intro hNil
        have hParts : parts = [] := by
          simpa [taken] using hNil
        rw [hParts] at hContents
        exact hNe (by simpa using hContents.symm)
      have hVerify :
          ∀ part ∈ taken,
            cfg.prim.verify part.1 part.2 bytes = true := by
        intro part hMem
        rcases List.mem_map.mp hMem with ⟨whole, hWhole, rfl⟩
        exact (hAll whole hWhole).2
      have hSome :=
        hAggregates.aggregate hType taken bytes hTaken hVerify
      have hIds : taken.map (·.1) = parts.map (·.1) := by
        simp [taken, Function.comp_def]
      have hBytes :
          taken.map (·.2) =
            (signs.map (·.content)).map (·.take 64) := by
        rw [← hContents]
        simp [taken, Function.comp_def]
      rw [hIds, hBytes] at hSome
      have hLong :
          (signs.map (·.content)).all (64 ≤ ·.length) =
            true := by
        rw [← hContents, List.all_map, List.all_eq_true]
        intro part hMem
        exact decide_eq_true (hAll part hMem).1
      simp only [List.length_map, ne_eq, not_true_eq_false,
        if_false, hLong, if_true, hKeys, Option.bind_some]
      exact hSome
  | bls =>
      have hSigns :
          ∀ s ∈ signs,
            ∃ id, Crypto.key n s.id = some id ∧
              cfg.prim.blsVerify id s.content bytes =
                some true := by
        intro s hMem
        rcases verifySign_eq_some (hUsable s hMem).1 with
          ⟨id, hKey, hOne⟩
        refine ⟨id, hKey, ?_⟩
        simpa only [Crypto.verify, hType] using hOne
      rcases exists_parts
          (fun id c => cfg.prim.blsVerify id c bytes = some true)
          hSigns with
        ⟨parts, hContents, _, hAll⟩
      have hParts : parts ≠ [] := by
        rintro rfl
        exact hNe (by simpa using hContents.symm)
      have hSome :=
        hAggregates.blsAggregate hType parts bytes hParts hAll
      rw [hContents] at hSome
      have hTake :
          (signs.map (·.content)).take signs.length =
            signs.map (·.content) :=
        List.take_of_length_le (by simp)
      simpa [hTake] using hSome

/- What is known of a hash stays known. -/
theorem HashOf.mono
    {c : Fin n} {hash : Bytes}
    (hHash : HashOf cfg log l c hash)
    (hSub : log.sent ⊆ log'.sent) :
    HashOf cfg log' l c hash := by
  rcases hHash with ⟨values, hInput, hEq⟩
  exact ⟨values, hInput.mono hSub, hEq⟩

/- A message stays valid. -/
theorem Valid.mono
    {packet : Packet n}
    (hValid : Valid cfg log packet)
    (hSub : log.sent ⊆ log'.sent) :
    Valid cfg log' packet := by
  unfold Valid at hValid ⊢
  dsimp only at hValid ⊢
  refine ⟨hValid.1, ?_⟩
  replace hValid := hValid.2
  have hAnswers :
      ∀ type, Answers cfg log type packet →
        Answers cfg log' type packet := by
    rintro type ⟨leader, hDest, hHash, hSign⟩
    exact ⟨leader, hDest, hHash.mono hSub, hSign⟩
  cases hType : packet.msg.rawMsg.type <;>
    rw [hType] at hValid <;>
    dsimp only at hValid ⊢
  case pbc2 => exact hAnswers _ hValid
  case pbc3 => exact ⟨hValid.1.mono hSub, hValid.2⟩
  case pbc4 => exact hAnswers _ hValid
  all_goals exact hValid

/- What is held stays valid. -/
theorem LoopValid.mono
    (hValid : LoopValid cfg id log l li)
    (hSub : log.sent ⊆ log'.sent) :
    LoopValid cfg id log' l li := by
  refine
    { hValid with
      pbc := fun c hash hEq => (hValid.pbc c hash hEq).mono hSub
      mine := ?_
      sigmas := ?_
      pis := ?_
      finish := ?_ }
  · have hMine := hValid.mine
    cases hAt : li.mine with
    | done => trivial
    | wait2 | send3 | wait4 =>
        rw [hAt] at hMine
        exact ⟨hMine.1.mono hSub, hMine.2⟩
  · intro c hPos
    rcases hValid.sigmas c hPos with ⟨values, hInput, hCert⟩
    exact ⟨values, hInput.mono hSub, hCert⟩
  · intro c hPos
    rcases hValid.pis c hPos with ⟨values, hInput, hCert⟩
    exact ⟨values, hInput.mono hSub, hCert⟩
  · have hFinish := hValid.finish
    cases hAt : li.finish with
    | vote coin yes no =>
        rw [hAt] at hFinish
        refine ⟨fun s hMem => ?_, hFinish.2⟩
        rcases hFinish.1 s hMem with ⟨values, hInput, hMade⟩
        exact ⟨values, hInput.mono hSub, hMade⟩
    | prev =>
        rw [hAt] at hFinish
        exact hFinish
    | coin | next | done => trivial

/- A step that changes one loop. -/
theorem Honest.setLoop
    (hMvba : e.mvba = m.setLoop l li')
    (hValid : LoopValid cfg id log l li')
    (hInputs :
      ∀ c, li'.inputs c = (m.loops l).inputs c ∨
        Input log l c (li'.inputs c))
    (hSent : ∀ packet ∈ e.sent, Says cfg id log packet) :
    Honest cfg id log m l e := by
  have hSame : e.mvba.loops l = li' := by
    rw [hMvba, setLoop_same]
  refine
    { started := by rw [hMvba]; rfl
      halt := by rw [hMvba]; rfl
      returned := by rw [hMvba]; rfl
      loops := fun k hNe => by rw [hMvba, setLoop_other hNe]
      valid := hSame ▸ hValid
      inputs := fun c => hSame ▸ hInputs c
      proofs := fun k c hMem => ?_
      ends := .inl ?_
      sent := hSent }
  · rw [hMvba] at hMem
    exact .inl hMem
  · rw [hMvba]
    exact ⟨rfl, rfl⟩

/- A broadcast reaches the others only. -/
theorem says_broadcast
    {msg : Msg} (hValid : Valid cfg log (broadcast id msg)) :
    ∀ packet ∈ [broadcast id msg], Says cfg id log packet := by
  intro packet hMem
  rw [List.mem_singleton.mp hMem]
  exact ⟨hValid, rfl, decide_eq_false (not_not.mpr rfl)⟩

/- Another place of the goroutine for a leader. -/
theorem LoopValid.setPbc
    (hValid : LoopValid cfg id log l li) {leader : Fin n}
    {pbc : PBC}
    (hHash :
      ∀ hash, PBC.hash pbc = some hash →
        HashOf cfg log l leader hash) :
    LoopValid cfg id log l
      { li with pbc := Function.update li.pbc leader pbc } :=
  { hValid with
    pbc := by
      intro c hash hEq
      by_cases hLeader : c = leader
      · subst hLeader
        simp only [Function.update_self] at hEq
        exact hHash hash hEq
      · simp only [Function.update_of_ne hLeader] at hEq
        exact hValid.pbc c hash hEq }

/- A combined signature for an input is stored. -/
theorem LoopValid.setSigma
    (hValid : LoopValid cfg id log l li) {c : Fin n}
    {hash : Bytes} (hHash : HashOf cfg log l c hash)
    (hCert : Certified cfg l c hash batch) :
    LoopValid cfg id log l
      { li with sigmas := Function.update li.sigmas c batch } :=
  { hValid with
    sigmas := by
      intro c' hPos
      by_cases hEq : c' = c
      · subst hEq
        simp only [Function.update_self]
        rcases hHash with ⟨values, hInput, rfl⟩
        exact ⟨values, hInput, hCert⟩
      · simp only [Function.update_of_ne hEq] at hPos ⊢
        exact hValid.sigmas c' hPos }

/- A certificate pi for an input is stored. -/
theorem LoopValid.setPi
    (hValid : LoopValid cfg id log l li) {c : Fin n}
    {values : Bytes} (hInput : Input log l c values)
    (hCert : Proven cfg l c (cfg.sha values) batch) :
    LoopValid cfg id log l
      { li with pis := Function.update li.pis c batch } :=
  { hValid with
    pis := by
      intro c' hPos
      by_cases hEq : c' = c
      · subst hEq
        simp only [Function.update_self]
        exact ⟨values, hInput, hCert⟩
      · simp only [Function.update_of_ne hEq] at hPos ⊢
        exact hValid.pis c' hPos }

end Agreement

end SpeedingMVBA

end Jumbo

------------------------------------------------------------
-- Steps Up to the Coin
------------------------------------------------------------

namespace Jumbo

namespace SpeedingMVBA

namespace Agreement

open Crypto (Bytes)
open Protocol
open Struct

variable {n : Nat}

section Steps

variable {cfg : Config n} {id : Fin n} {log : Log n}
variable {m : MVBA n} {l : Nat} {li li' : LoopInfo n}
variable {msg : Msg} {e : Effect n} {leader : Fin n}
variable {okSign : Signature} {certs : List Cert}

/- Signatures that one is added to are some. -/
theorem snoc_ne_nil
    (signs : List Signature) (got : Signature) :
    signs ++ [got] ≠ [] :=
  List.append_ne_nil_of_right_ne_nil _ (List.cons_ne_nil _ _)

/- An answer to a leader is valid. -/
theorem valid_answer
    {type : MsgType} {hash : Bytes}
    (hType : type = .pbc2 ∨ type = .pbc4)
    (hNe : leader ≠ id)
    (hHash : HashOf cfg log l leader hash) :
    ∀ packet ∈
        [send id leader
          { rawMsg := cfg.rawMsg type leader hash l
            sign :=
              some
                (sign cfg id
                  (cfg.marshal
                    (cfg.rawMsg type leader hash l))) }],
      Says cfg id log packet := by
  intro packet hMem
  rw [List.mem_singleton.mp hMem]
  refine ⟨⟨rfl, ?_⟩, rfl, decide_eq_false hNe.symm⟩
  rcases hType with rfl | rfl
  · exact ⟨leader, fun q => of_decide_eq_true, hHash, rfl⟩
  · exact ⟨leader, fun q => of_decide_eq_true, hHash, rfl⟩

/- The input of a leader is taken. -/
theorem Honest.handlePBC1
    (hValid : LoopValid cfg id log l (m.loops l))
    (hInput : Input log l leader msg.rawMsg.values)
    (hStep : handlePBC1 cfg m l leader msg = some e) :
    Honest cfg id log m l e := by
  unfold SpeedingMVBA.handlePBC1 at hStep
  dsimp only at hStep
  rcases Option.ite_none_left_eq_some.mp hStep with
    ⟨_, hStep⟩
  split at hStep
  · rcases Option.map_eq_some_iff.mp hStep with
      ⟨certs, _, rfl⟩
    refine .setLoop rfl ?_ (fun c => ?_) (List.forall_mem_nil _)
    · have hSet :
          LoopValid cfg id log l
            { m.loops l with
              pbc :=
                Function.update (m.loops l).pbc leader
                  (.send2 (cfg.sha msg.rawMsg.values)) } :=
        hValid.setPbc fun hash hEq =>
          ⟨_, hInput, (Option.some.inj hEq).symm⟩
      exact { hSet with }
    · by_cases hEq : c = leader
      · subst hEq
        right
        simp only [Function.update_self]
        exact hInput
      · left
        simp only [Function.update_of_ne hEq]
  · rcases Option.ite_none_right_eq_some.mp hStep with
      ⟨_, hEq⟩
    cases hEq
    exact
      .setLoop rfl (hValid.setPbc nofun) (fun _ => .inl rfl)
        (List.forall_mem_nil _)

/- The first answer is one to an input. -/
theorem Honest.sendPBC2
    (hOk : LoopOk cfg id log l (m.loops l))
    (hValid : LoopValid cfg id log l (m.loops l))
    (hStep : sendPBC2 cfg id m l leader = some e) :
    Honest cfg id log m l e := by
  unfold SpeedingMVBA.sendPBC2 at hStep
  dsimp only at hStep
  split at hStep
  · rename_i hash hPbc
    have hHash : HashOf cfg log l leader hash :=
      hValid.pbc leader hash (by rw [hPbc]; rfl)
    have hNe : leader ≠ id :=
      hOk.leader_ne (by rw [hPbc]; exact nofun)
    split at hStep
    · cases hStep
      exact
        .setLoop rfl (hValid.setPbc nofun) (fun _ => .inl rfl)
          (List.forall_mem_nil _)
    · cases hStep
      refine
        .setLoop rfl (hValid.setPbc fun hash' hEq => ?_)
          (fun _ => .inl rfl) (valid_answer (.inl rfl) hNe hHash)
      cases hEq
      exact hHash
  · cases hStep

/- The combined signature of a leader is for its input. -/
theorem Honest.handlePBC3
    (hValid : LoopValid cfg id log l (m.loops l))
    (hStep : handlePBC3 cfg m l leader msg = some e) :
    Honest cfg id log m l e := by
  unfold SpeedingMVBA.handlePBC3 at hStep
  dsimp only at hStep
  split at hStep
  · rename_i hash hPbc
    rcases Option.ite_none_right_eq_some.mp hStep with
      ⟨_, hStep⟩
    rcases Option.map_eq_some_iff.mp hStep with
      ⟨cert, hAccept, rfl⟩
    have hHash : HashOf cfg log l leader hash :=
      hValid.pbc leader hash (by rw [hPbc]; rfl)
    refine
      .setLoop rfl ?_ (fun _ => .inl rfl)
        (List.forall_mem_nil _)
    refine
      (hValid.setSigma hHash
        (accept_eq_some hAccept).2).setPbc fun hash' hEq => ?_
    cases hEq
    exact hHash
  · cases hStep

/- So is the second answer. -/
theorem Honest.sendPBC4
    (hOk : LoopOk cfg id log l (m.loops l))
    (hValid : LoopValid cfg id log l (m.loops l))
    (hStep : sendPBC4 cfg id m l leader = some e) :
    Honest cfg id log m l e := by
  unfold SpeedingMVBA.sendPBC4 at hStep
  dsimp only at hStep
  split at hStep
  · rename_i hash hPbc
    have hHash : HashOf cfg log l leader hash :=
      hValid.pbc leader hash (by rw [hPbc]; rfl)
    have hNe : leader ≠ id :=
      hOk.leader_ne (by rw [hPbc]; exact nofun)
    split at hStep
    · cases hStep
      exact
        .setLoop rfl (hValid.setPbc nofun) (fun _ => .inl rfl)
          (List.forall_mem_nil _)
    · cases hStep
      exact
        .setLoop rfl (hValid.setPbc nofun) (fun _ => .inl rfl)
          (valid_answer (.inr rfl) hNe hHash)
  · cases hStep

/- A goroutine that returns leaves all valid. -/
theorem Honest.returnPBC
    (hValid : LoopValid cfg id log l (m.loops l))
    (hStep : returnPBC m l leader = some e) :
    Honest cfg id log m l e := by
  have hReturn :
      (if (m.loops l).pbcDone then
          some
            (m.leave l
              { m.loops l with
                pbc :=
                  Function.update (m.loops l).pbc leader
                    .done } [])
        else none) = some e →
        Honest cfg id log m l e := by
    intro hReturn
    rcases Option.ite_none_right_eq_some.mp hReturn with
      ⟨_, hEq⟩
    cases hEq
    exact
      .setLoop rfl (hValid.setPbc nofun) (fun _ => .inl rfl)
        (List.forall_mem_nil _)
  unfold SpeedingMVBA.returnPBC at hStep
  dsimp only at hStep
  split at hStep
  · exact hReturn hStep
  · exact hReturn hStep
  · cases hStep

/- The place of the own broadcast. -/
theorem LoopValid.setMine
    (hValid : LoopValid cfg id log l li) {mine : MinePBC}
    (hMine : MineValid cfg id log l mine) :
    LoopValid cfg id log l { li with mine := mine } :=
  { hValid with mine := hMine }

/- A signature on the own input is collected. -/
theorem Honest.handleMinePBC2
    (hCombines : Combines cfg)
    (hValid : LoopValid cfg id log l (m.loops l))
    (hSign :
      ∀ s ∈ msg.sign,
        Made cfg
          (cfg.marshal
            (cfg.rawMsg .pbc2 id msg.rawMsg.values l)) s)
    (hStep : handleMinePBC2 cfg id m l msg = some e) :
    Honest cfg id log m l e := by
  unfold SpeedingMVBA.handleMinePBC2 at hStep
  dsimp only at hStep
  split at hStep
  · rename_i hash signs hAt
    rcases Option.ite_none_right_eq_some.mp hStep with
      ⟨hSame, hStep⟩
    rcases Option.bind_eq_some_iff.mp hStep with
      ⟨got, hAccept, hStep⟩
    have hMine := hValid.mine
    rw [hAt] at hMine
    rcases hMine with ⟨hHash, hMade⟩
    have hGot := hSign got (acceptSign_eq_some hAccept).1
    rw [← hSame] at hGot
    have hMore := made_append hMade hGot
    split at hStep
    · rcases Option.bind_eq_some_iff.mp hStep with
        ⟨batch, hBatch, hEq⟩
      cases hEq
      have hCert : Certified cfg l id hash batch :=
        verifies_of_made hCombines (snoc_ne_nil _ _)
          (made_append hMore (made_self id _)) hBatch
      exact
        .setLoop rfl
          ((hValid.setSigma hHash hCert).setMine
            ⟨hHash, hCert⟩)
          (fun _ => .inl rfl) (List.forall_mem_nil _)
    · cases hStep
      exact
        .setLoop rfl (hValid.setMine ⟨hHash, hMore⟩)
          (fun _ => .inl rfl) (List.forall_mem_nil _)
  · cases hStep

/- The own third message brings its combined signature. -/
theorem Honest.sendPBC3
    (hValid : LoopValid cfg id log l (m.loops l))
    (hStep : sendPBC3 cfg id m l = some e) :
    Honest cfg id log m l e := by
  unfold SpeedingMVBA.sendPBC3 at hStep
  dsimp only at hStep
  split at hStep
  · rename_i hash batch hAt
    have hMine := hValid.mine
    rw [hAt] at hMine
    rcases hMine with ⟨hHash, hCert⟩
    split at hStep
    · cases hStep
      exact
        .setLoop rfl (hValid.setMine trivial)
          (fun _ => .inl rfl) (List.forall_mem_nil _)
    · cases hStep
      refine
        .setLoop rfl
          (hValid.setMine ⟨hHash, List.forall_mem_nil _⟩)
          (fun _ => .inl rfl) (says_broadcast ?_)
      exact ⟨rfl, hHash, batch, rfl, hCert⟩
  · cases hStep

/- Another OK is one that a party has made. -/
theorem LoopValid.countPi
    (hCombines : Combines cfg)
    (hValid : LoopValid cfg id log l li)
    (hMade : Made cfg (cfg.tagged l .ok) okSign)
    (hCount : countPi cfg l li okSign = some (li', certs)) :
    LoopValid cfg id log l li' := by
  have hMore := made_append hValid.ok hMade
  rcases countPi_cases hCount with
    ⟨_, batch, hBatch, rfl⟩ | ⟨_, rfl⟩
  · refine { hValid with ok := hMore, ready := ?_ }
    intro batch' hMem
    rcases List.mem_append.mp hMem with hOld | hNew
    · exact hValid.ready batch' hOld
    · rw [List.mem_singleton.mp hNew]
      exact
        verifies_of_made hCombines
          (snoc_ne_nil _ _) hMore hBatch
  · exact { hValid with ok := hMore }

/- Another OK changes no input. -/
theorem countPi_inputs
    (hCount : countPi cfg l li okSign = some (li', certs)) :
    li'.inputs = li.inputs :=
  (countPi_same hCount).2.1

/- The own certificate is for the own input. -/
theorem Honest.handleMinePBC4
    (hCombines : Combines cfg) (hLog : LogOk cfg log)
    (hOk : LoopOk cfg id log l (m.loops l))
    (hValid : LoopValid cfg id log l (m.loops l))
    (hSign :
      ∀ s ∈ msg.sign,
        Made cfg
          (cfg.marshal
            (cfg.rawMsg .pbc4 id msg.rawMsg.values l)) s)
    (hStep : handleMinePBC4 cfg id m l msg = some e) :
    Honest cfg id log m l e := by
  unfold SpeedingMVBA.handleMinePBC4 at hStep
  dsimp only at hStep
  split at hStep
  · rename_i hash signs hAt
    rcases Option.ite_none_right_eq_some.mp hStep with
      ⟨hSame, hStep⟩
    rcases Option.bind_eq_some_iff.mp hStep with
      ⟨got, hAccept, hStep⟩
    have hMine := hValid.mine
    rw [hAt] at hMine
    rcases hMine with ⟨hHash, hMade⟩
    have hGot := hSign got (acceptSign_eq_some hAccept).1
    rw [← hSame] at hGot
    have hMore := made_append hMade hGot
    split at hStep
    · rcases Option.bind_eq_some_iff.mp hStep with
        ⟨batch, hBatch, hStep⟩
      rcases Option.bind_eq_some_iff.mp hStep with
        ⟨⟨li', certs⟩, hCount, hEq⟩
      cases hEq
      have hCert : Proven cfg l id hash batch :=
        verifies_of_made hCombines
          (snoc_ne_nil _ _)
          (made_append hMore (made_self id _)) hBatch
      have hInputs := countPi_inputs hCount
      have hDone :
          LoopValid cfg id log l
            { m.loops l with mine := .done } :=
        hValid.setMine trivial
      refine
        .setLoop rfl
          (hDone.countPi hCombines (made_self id _) hCount)
          (fun c => .inl (by rw [hInputs])) ?_
      dsimp only
      split
      · exact List.forall_mem_nil _
      · refine says_broadcast ⟨rfl, ⟨batch, rfl, ?_⟩, rfl⟩
        rw [hLog.hash_eq hHash hOk.own] at hCert
        change
          verifySigns cfg
              (cfg.marshal
                (cfg.rawMsg .pbc4 id
                  (cfg.sha (li'.inputs id)) l))
              batch = some true
        rw [hInputs]
        exact hCert
    · cases hStep
      exact
        .setLoop rfl (hValid.setMine ⟨hHash, hMore⟩)
          (fun _ => .inl rfl) (List.forall_mem_nil _)
  · cases hStep

/- Giving up the own broadcast leaves all valid. -/
theorem Honest.returnMinePBC
    (hValid : LoopValid cfg id log l (m.loops l))
    (hStep : returnMinePBC m l = some e) :
    Honest cfg id log m l e := by
  have hReturn :
      (if (m.loops l).pbcDone then
          some (m.leave l { m.loops l with mine := .done } [])
        else none) = some e →
        Honest cfg id log m l e := by
    intro hReturn
    rcases Option.ite_none_right_eq_some.mp hReturn with
      ⟨_, hEq⟩
    cases hEq
    exact
      .setLoop rfl (hValid.setMine trivial)
        (fun _ => .inl rfl) (List.forall_mem_nil _)
  unfold SpeedingMVBA.returnMinePBC at hStep
  dsimp only at hStep
  split at hStep
  · exact hReturn hStep
  · exact hReturn hStep
  · cases hStep

/- A pi is for the input of its party. -/
theorem Honest.handlePi
    (hCombines : Combines cfg)
    (hValid : LoopValid cfg id log l (m.loops l))
    {c : Fin n} (hId : msg.rawMsg.id = c.val + 1)
    (hInput : Input log l c msg.rawMsg.values)
    (hSign :
      ∀ s ∈ msg.sign, Made cfg (cfg.tagged l .ok) s)
    (hStep : handlePi cfg m l msg = some e) :
    Honest cfg id log m l e := by
  unfold SpeedingMVBA.handlePi at hStep
  dsimp only at hStep
  rcases Option.ite_none_right_eq_some.mp hStep with
    ⟨_, hStep⟩
  rcases Option.bind_eq_some_iff.mp hStep with
    ⟨leader, hIndex, hStep⟩
  rcases Option.bind_eq_some_iff.mp hStep with
    ⟨cert, hCert, hStep⟩
  rcases Option.bind_eq_some_iff.mp hStep with
    ⟨okSign, hAccept, hStep⟩
  rcases Option.bind_eq_some_iff.mp hStep with
    ⟨⟨li', certs⟩, hCount, hEq⟩
  cases hEq
  have hLeader : leader = c := eq_of_index hId hIndex
  subst hLeader
  have hMade := hSign okSign (acceptSign_eq_some hAccept).1
  have hInputs := countPi_inputs hCount
  have hPi := hValid.setPi hInput (accept_eq_some hCert).2
  have hCounted : LoopValid cfg id log l li' := by
    refine LoopValid.countPi hCombines ?_ hMade hCount
    exact { hPi with }
  refine
    .setLoop rfl { hCounted with } (fun c => ?_)
      (List.forall_mem_nil _)
  dsimp only
  rw [hInputs]
  by_cases hEq : c = leader
  · subst hEq
    right
    simp only [Function.update_self]
    exact hInput
  · left
    simp only [Function.update_of_ne hEq]

/- The share goes with a batch that verifies. -/
theorem Honest.sendShare
    (hValid : LoopValid cfg id log l (m.loops l))
    (hStep : sendShare cfg id m l = some e) :
    Honest cfg id log m l e := by
  unfold SpeedingMVBA.sendShare at hStep
  dsimp only at hStep
  split at hStep
  · rename_i batch rest _ hReady
    have hBatch :
        verifySigns cfg (cfg.tagged l .ok) batch =
          some true := by
      refine hValid.ready batch ?_
      rw [hReady]
      exact List.mem_cons_self ..
    have hRest :
        ∀ batch ∈ rest,
          verifySigns cfg (cfg.tagged l .ok) batch =
            some true := by
      intro batch' hMem
      refine hValid.ready batch' ?_
      rw [hReady]
      exact List.mem_cons_of_mem _ hMem
    split at hStep
    · cases hStep
      exact
        .setLoop rfl { hValid with ready := hRest }
          (fun _ => .inl rfl) (List.forall_mem_nil _)
    · cases hStep
      refine
        .setLoop rfl
          { hValid with
            ready := hRest
            shareMine := ?_ }
          (fun _ => .inl rfl)
          (says_broadcast ⟨rfl, ⟨batch, rfl, hBatch⟩, rfl⟩)
      intro msg hMsg
      cases hMsg
      exact ⟨⟨batch, rfl, hBatch⟩, rfl⟩
  · cases hStep

/- A share is counted in the loop `li`. -/
theorem Honest.countShare
    (hCombines : Combines cfg) {m' : MVBA n}
    {share : Signature} {ss : BatchSignature}
    (hSet : m' = m.setLoop l li)
    (hInputs : li.inputs = (m.loops l).inputs)
    (hHandles : li.handlesShare = true)
    (hValid : LoopValid cfg id log l li)
    (hMade : Made cfg (cfg.share l) share)
    (hBatch :
      verifySigns cfg (cfg.tagged l .ok) ss = some true)
    (hStep : countShare cfg m' l share ss certs = some e) :
    Honest cfg id log m l e := by
  subst hSet
  have hMore := made_append hValid.shares hMade
  have hReady :
      ∀ batch ∈
          if li.firstShare = true then li.shareReady ++ [ss]
          else li.shareReady,
        verifySigns cfg (cfg.tagged l .ok) batch =
          some true := by
    intro batch hMem
    split at hMem
    · rcases List.mem_append.mp hMem with hOld | hNew
      · exact hValid.ready batch hOld
      · rw [List.mem_singleton.mp hNew]
        exact hBatch
    · exact hValid.ready batch hMem
  unfold SpeedingMVBA.countShare at hStep
  dsimp only at hStep
  rw [setLoop_same] at hStep
  split at hStep
  · rcases Option.map_eq_some_iff.mp hStep with
      ⟨batch, hAll, rfl⟩
    refine
      .setLoop (setLoop_setLoop _ _)
        { hValid with
          shares := hMore
          ready := hReady
          batch := fun _ => ?_ }
        (fun c => .inl (by rw [hInputs]))
        (List.forall_mem_nil _)
    exact
      verifies_of_made hCombines
        (snoc_ne_nil _ _) hMore hAll
  · cases hStep
    refine
      .setLoop (setLoop_setLoop _ _)
        { hValid with
          shares := hMore
          ready := hReady
          batch := fun hNot => ?_ }
        (fun c => .inl (by rw [hInputs]))
        (List.forall_mem_nil _)
    dsimp only at hNot
    rw [hHandles] at hNot
    cases hNot

/- A share of another party is one that it has made. -/
theorem Honest.handleShare
    (hCombines : Combines cfg)
    (hValid : LoopValid cfg id log l (m.loops l))
    (hSign : ∀ s ∈ msg.sign, Made cfg (cfg.share l) s)
    (hStep : handleShare cfg m l msg = some e) :
    Honest cfg id log m l e := by
  unfold SpeedingMVBA.handleShare at hStep
  rcases Option.ite_none_right_eq_some.mp hStep with
    ⟨hHandles, hStep⟩
  rcases Option.bind_eq_some_iff.mp hStep with
    ⟨cert, hCert, hStep⟩
  rcases Option.bind_eq_some_iff.mp hStep with
    ⟨share, hAccept, hStep⟩
  exact
    .countShare hCombines setLoop_self.symm rfl hHandles hValid
      (hSign share (acceptSign_eq_some hAccept).1)
      (accept_eq_some hCert).2 hStep

/- So is the own one. -/
theorem Honest.handleShareMine
    (hCombines : Combines cfg)
    (hValid : LoopValid cfg id log l (m.loops l))
    (hStep : handleShareMine cfg m l = some e) :
    Honest cfg id log m l e := by
  unfold SpeedingMVBA.handleShareMine at hStep
  dsimp only at hStep
  rcases Option.ite_none_right_eq_some.mp hStep with
    ⟨hHandles, hStep⟩
  rcases Option.bind_eq_some_iff.mp hStep with
    ⟨msg, hMine, hStep⟩
  rcases Option.bind_eq_some_iff.mp hStep with
    ⟨share, hShare, hStep⟩
  rcases Option.bind_eq_some_iff.mp hStep with
    ⟨ss, hSs, hStep⟩
  rcases hValid.shareMine msg hMine with
    ⟨⟨batch, hBatch, hVerify⟩, hSign⟩
  rw [hSs] at hBatch
  rw [hShare] at hSign
  cases hBatch
  cases hSign
  refine
    .countShare hCombines rfl ?_ ?_ ?_ (made_self id _) hVerify
      hStep
  · rfl
  · exact hHandles
  · exact { hValid with shareMine := nofun }

/- Storing the coin leaves all valid. -/
theorem Honest.storeCoin
    (hValid : LoopValid cfg id log l (m.loops l))
    (hStep : storeCoin cfg m l = some e) :
    Honest cfg id log m l e := by
  unfold SpeedingMVBA.storeCoin at hStep
  dsimp only at hStep
  rcases Option.ite_none_right_eq_some.mp hStep with ⟨_, hEq⟩
  cases hEq
  refine
    { started := rfl
      halt := rfl
      returned := rfl
      loops := fun k hNe => setLoop_other hNe
      valid := ?_
      inputs := fun c => ?_
      proofs := fun _ _ hMem => .inl hMem
      ends := .inl ⟨rfl, rfl⟩
      sent := List.forall_mem_nil _ }
  · change LoopValid cfg id log l ((m.setLoop l _).loops l)
    rw [setLoop_same]
    exact { hValid with }
  · left
    change ((m.setLoop l _).loops l).inputs c = _
    rw [setLoop_same]

end Steps

end Agreement

end SpeedingMVBA

end Jumbo
