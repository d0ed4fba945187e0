import Jumbo.SpeedingMVBA.NextLoop

/-
  Whether a certificate is for the values that it goes with.

  The values and the certificates of a party are stored apart
  and by several goroutines. A message that replaces values
  while a certificate for others is held takes them apart,
  and the code stores it all the same: a party may halt with
  values that nobody has signed. When no message does so,
  what a party sends or puts out is certified.

  `handle_pi`, and `handle_finish` for a prevote, store the
  values before the certificate. Here both are stored with
  the values: from then on the certificate counts as held.

  Main declarations:
    * `Attached`
    * `binds`
    * `LoopBinds` and `PartyBinds`
    * `certificates_bound`
    * `certificates_not_bound`
-/

------------------------------------------------------------
-- Certificates and Values
------------------------------------------------------------

namespace Jumbo

namespace SpeedingMVBA

open Crypto (Bytes)
open Struct

variable {n : Nat}

/- A certificate for a hash that a halt can go with. -/
def Proven
    (cfg : Config n) (l : Nat) (c : Fin n) (hash : Bytes)
    (batch : BatchSignature) : Prop :=
  verifySigns cfg (cfg.marshal (cfg.rawMsg .pbc4 c hash l))
    batch = some true

/-
  The certificate of a message verifies over the hash of the
  values that it carries, for the party that the coin names.
  The input of a later loop has all its proofs.
-/
def Attached (cfg : Config n) (msg : Msg) : Prop :=
  let l := msg.rawMsg.loop
  let hash := cfg.sha msg.rawMsg.values
  match msg.rawMsg.type with
  | .halt =>
      msg.rawMsg.id = (cfg.coin l).val + 1 ∧
        ∃ batch, msg.ss = some batch ∧
          Proven cfg l (cfg.coin l) hash batch
  | .prevYes =>
      ∃ batch, msg.ss = some batch ∧
        Certified cfg l (cfg.coin l) hash batch
  | .voteYes =>
      msg.rawMsg.id = (cfg.coin l).val + 1 ∧
        ∃ batch, msg.ss = some batch ∧
          Certified cfg l (cfg.coin l) hash batch
  | .pbc1 => l = 0 ∨ Carries cfg hash l msg.oldProof
  | _ => True

/- A certificate that a halt can go with is held for `c`. -/
def LoopInfo.proves (li : LoopInfo n) (c : Fin n) : Bool :=
  decide (0 < (li.pis c).mems.length)

/-
  What a message must not do: store values with another hash
  than those that a certificate is held, or a vote yes is
  counted, for; bring a combined signature or a vote for other
  values than those stored; bring a signature that a batch
  cannot be cut at. A second pi with other values is among
  them: a halt points at the first one until it is sent.
-/
def bindsMsg
    (cfg : Config n) (id : Fin n) (m : MVBA n)
    (msg : Msg) : Bool :=
  let l := msg.rawMsg.loop
  let li := m.loops l
  let values := msg.rawMsg.values
  match msg.rawMsg.type with
  | .pbc1 =>
      (index n msg.rawMsg.id).all fun leader =>
        (!m.holds l leader && !li.proves leader) ||
          li.sameInput cfg leader values
  | .pbc2 => msg.sign.all (exact cfg)
  | .pbc3 =>
      (index n msg.rawMsg.id).all fun leader =>
        decide (values = cfg.sha (li.inputs leader))
  | .pi =>
      (index n msg.rawMsg.id).all fun leader =>
        (decide (leader ≠ id) && !m.holds l leader &&
            !li.proves leader) ||
          li.sameInput cfg leader values
  | .prevYes =>
      match li.finish with
      | .prev coin false _ _ =>
          (decide (coin ≠ id) && !li.proves coin) ||
            li.sameInput cfg coin values
      | _ => true
  | .voteYes =>
      msg.sign.all (exact cfg) &&
        match li.finish with
        | .vote coin yes _ =>
            (decide (coin ≠ id) && !li.proves coin &&
                yes.isEmpty &&
                  decide ((li.inputs coin).length = 0)) ||
              li.sameInput cfg coin values
        | _ => true
  | .voteNo => msg.sign.all (exact cfg)
  | _ => true

/- Every message that is read leaves values as certified. -/
def binds
    (cfg : Config n) (s : Parties n)
    (a : PartiesAction n) : Bool :=
  (s.actor a).all fun (id, a) =>
    match a with
    | .receive msg => bindsMsg cfg id (s.party id) msg
    | _ => true

section Conditions

variable {cfg : Config n} {id : Fin n} {m : MVBA n}
variable {msg : Msg}

/- The combined signatures stay with their inputs. -/
theorem reads_of_binds
    (hBinds : bindsMsg cfg id m msg = true) :
    Reads False cfg id m msg := by
  unfold bindsMsg at hBinds
  unfold Reads
  cases hType : msg.rawMsg.type with
  | pbc1 =>
      simp only [hType] at hBinds ⊢
      intro leader hIndex hHolds
      simpa [hIndex, hHolds, LoopInfo.sameInput] using hBinds
  | pbc2 =>
      simp only [hType] at hBinds ⊢
      exact (Option.all_eq_true _ _).mp hBinds
  | pbc3 =>
      simp only [hType] at hBinds ⊢
      intro leader hIndex
      simpa [hIndex] using hBinds
  | pi =>
      simp only [hType] at hBinds ⊢
      intro leader hIndex hHeld
      rw [hIndex] at hBinds
      rcases Bool.or_eq_true_iff.mp hBinds with hFree | hSame
      · exfalso
        rcases hHeld with rfl | hHolds
        · simp at hFree
        · simp [hHolds] at hFree
      · exact of_decide_eq_true hSame
  | prevYes =>
      simp only [hType] at hBinds ⊢
      intro coin no count hFinish hOwn
      rw [hFinish] at hBinds
      simpa [hOwn, LoopInfo.sameInput] using hBinds
  | voteYes =>
      simp only [hType] at hBinds ⊢
      refine ⟨False.elim, ?_⟩
      intro coin yes no hFinish
      rw [hFinish] at hBinds
      rcases Bool.or_eq_true_iff.mp
          (Bool.and_eq_true_iff.mp hBinds).2 with
        hFree | hSame
      · left
        simp only [Bool.and_eq_true, decide_eq_true_iff]
          at hFree
        exact ⟨hFree.1.1.1, hFree.2⟩
      · exact .inr (of_decide_eq_true hSame)
  | voteNo =>
      simp only [hType] at hBinds ⊢
      exact
        ⟨False.elim, (Option.all_eq_true _ _).mp hBinds⟩
  | pbc4 | share | prevNo | halt => trivial

/- What a step that meets the condition reads. -/
theorem bindsMsg_of_binds
    {s : Parties n} {a : PartiesAction n}
    (hBinds : binds cfg s a = true)
    (hActor : s.actor a = some (id, .receive msg)) :
    bindsMsg cfg id (s.party id) msg = true := by
  unfold binds at hBinds
  rw [hActor] at hBinds
  exact hBinds

end Conditions

end SpeedingMVBA

end Jumbo

------------------------------------------------------------
-- The Invariant
------------------------------------------------------------

namespace Jumbo

namespace SpeedingMVBA

open Crypto (Bytes)
open Struct

variable {n : Nat}

/-
  What is held and counted of a loop is for the values stored
  for the party that it names.
-/
structure LoopBinds
    (cfg : Config n) (l : Nat) (li : LoopInfo n) : Prop where
  pis :
    ∀ c, li.proves c = true →
      Proven cfg l c (cfg.sha (li.inputs c)) (li.pis c)
  votes :
    ∀ coin yes no, li.finish = .vote coin yes no →
      yes.length + no.length ≤ maxCount n ∧
        ∀ sign ∈ yes,
          Usable cfg
            (cfg.marshal
              (cfg.rawMsg .pbc4 coin
                (cfg.sha (li.inputs coin)) l))
            sign

/- The loops of a party, and what it has put out. -/
structure PartyBinds (cfg : Config n) (m : MVBA n) :
    Prop where
  loops : ∀ l, LoopBinds cfg l (m.loops l)
  outputs :
    ∀ msg ∈ m.outputs,
      msg.rawMsg.type = .halt ∧ Attached cfg msg

/- What a step leaves and sends, but for inputs. -/
structure EffectBinds (cfg : Config n) (e : Effect n) :
    Prop where
  party : PartyBinds cfg e.mvba
  sent :
    ∀ packet ∈ e.sent, packet.msg.rawMsg.type ≠ .pbc1 →
      Attached cfg packet.msg

section Keep

variable {cfg : Config n} {id : Fin n} {m m' : MVBA n}
variable {l : Nat} {li li' : LoopInfo n} {msg : Msg}
variable {e : Effect n} {leader : Fin n}

/- Values are replaced by others with the same hash only. -/
theorem LoopBinds.mono
    (hLoop : LoopBinds cfg l li)
    (hPis : li'.pis = li.pis)
    (hInputs :
      ∀ c, li.proves c = true ∨ li.finish.relies c = true →
        cfg.sha (li'.inputs c) = cfg.sha (li.inputs c))
    (hFinish :
      ∀ coin yes no, li'.finish = .vote coin yes no →
        li.finish = .vote coin yes no) :
    LoopBinds cfg l li' where
  pis := by
    intro c hProves
    have hOld : li.proves c = true := by
      unfold LoopInfo.proves at hProves ⊢
      rw [← hPis]
      exact hProves
    rw [hInputs c (.inl hOld), hPis]
    exact hLoop.pis c hOld
  votes := by
    intro coin yes no hVote
    have hOld := hFinish coin yes no hVote
    rcases hLoop.votes coin yes no hOld with ⟨hFew, hYes⟩
    refine ⟨hFew, fun sign hMem => ?_⟩
    have hRelies : li.finish.relies coin = true := by
      cases yes with
      | nil => cases hMem
      | cons => simp [Finish.relies, hOld]
    rw [hInputs coin (.inr hRelies)]
    exact hYes sign hMem

/- What is held and where the votes are stays. -/
theorem LoopBinds.same
    (hLoop : LoopBinds cfg l li)
    (hPis : li'.pis = li.pis)
    (hInputs : li'.inputs = li.inputs)
    (hFinish : li'.finish = li.finish) :
    LoopBinds cfg l li' :=
  hLoop.mono hPis (fun c _ => by rw [hInputs]) fun _ _ _ h =>
    hFinish ▸ h

/- A loop in which nobody votes any more, or not yet. -/
theorem LoopBinds.noVotes
    (hLoop : LoopBinds cfg l li)
    (hPis : li'.pis = li.pis)
    (hInputs : li'.inputs = li.inputs)
    (hFinish :
      ∀ coin yes no, li'.finish ≠ .vote coin yes no) :
    LoopBinds cfg l li' :=
  hLoop.mono hPis (fun c _ => by rw [hInputs])
    fun coin yes no h => absurd h (hFinish coin yes no)

/- A new loop holds nothing. -/
theorem loopBinds_new (cfg : Config n) (id : Fin n) (l : Nat)
    (input : Bytes) :
    LoopBinds cfg l (LoopInfo.new cfg id input) where
  pis := by
    intro c hProves
    cases hProves
  votes := nofun

/- One loop is changed. -/
theorem PartyBinds.setLoop
    (hParty : PartyBinds cfg m)
    (hLoop : LoopBinds cfg l li') :
    PartyBinds cfg (m.setLoop l li') := by
  refine ⟨fun k => ?_, hParty.outputs⟩
  by_cases hEq : k = l
  · subst hEq
    rw [setLoop_same]
    exact hLoop
  · rw [setLoop_other hEq]
    exact hParty.loops k

/- What is not looked at changes. -/
theorem PartyBinds.of_same
    (hParty : PartyBinds cfg m)
    (hLoops : m'.loops = m.loops)
    (hOutputs : m'.outputs = m.outputs) :
    PartyBinds cfg m' :=
  ⟨hLoops ▸ hParty.loops, hOutputs ▸ hParty.outputs⟩

/- Messages that carry no certificate for values. -/
def MsgType.plain : MsgType → Prop
| .halt => False
| .prevYes => False
| .voteYes => False
| _ => True

/- Other messages carry no certificate for values. -/
theorem attached_of_plain
    (hPlain : msg.rawMsg.type.plain)
    (hType : msg.rawMsg.type ≠ .pbc1) :
    Attached cfg msg := by
  unfold Attached
  unfold MsgType.plain at hPlain
  split
  · rename_i hHalt
    rw [hHalt] at hPlain
    exact hPlain.elim
  · rename_i hPrev
    rw [hPrev] at hPlain
    exact hPlain.elim
  · rename_i hVote
    rw [hVote] at hPlain
    exact hPlain.elim
  · rename_i hInput
    exact absurd hInput hType
  · trivial

/- A step that sends no certificate for values. -/
theorem PartyBinds.plain
    (hParty : PartyBinds cfg e.mvba)
    (hSent : ∀ packet ∈ e.sent, packet.msg.rawMsg.type.plain) :
    EffectBinds cfg e :=
  ⟨hParty, fun packet hMem =>
    attached_of_plain (hSent packet hMem)⟩

/- A step that leaves the values and the votes of a loop. -/
theorem PartyBinds.leave
    (hParty : PartyBinds cfg m) {sent : List (Packet n)}
    (hPis : li'.pis = (m.loops l).pis)
    (hInputs : li'.inputs = (m.loops l).inputs)
    (hFinish : li'.finish = (m.loops l).finish)
    (hSent : ∀ packet ∈ sent, packet.msg.rawMsg.type.plain) :
    EffectBinds cfg (m.leave l li' sent) :=
  (hParty.setLoop
    ((hParty.loops l).same hPis hInputs hFinish)).plain hSent

/- A message is sent to one or all. -/
theorem plain_singleton
    {packet : Packet n}
    (hPlain : packet.msg.rawMsg.type.plain) :
    ∀ p ∈ [packet], p.msg.rawMsg.type.plain := by
  intro p hMem
  rw [List.mem_singleton.mp hMem]
  exact hPlain

end Keep

end SpeedingMVBA

end Jumbo

------------------------------------------------------------
-- Steps before the Votes
------------------------------------------------------------

namespace Jumbo

namespace SpeedingMVBA

open Crypto (Bytes)
open Struct

variable {n : Nat}

section Early

variable {cfg : Config n} {id : Fin n} {m : MVBA n}
variable {l : Nat} {li li' : LoopInfo n} {msg : Msg}
variable {e : Effect n} {leader : Fin n}

/- What the votes rely on is held. -/
theorem holds_of_relies
    {c : Fin n} (hRelies : (m.loops l).finish.relies c = true) :
    m.holds l c = true := by
  simp [MVBA.holds, hRelies]

/- An input is stored for its leader. -/
theorem PartyBinds.handlePBC1
    (hParty : PartyBinds cfg m)
    (hSame :
      m.holds l leader = true ∨
          (m.loops l).proves leader = true →
        cfg.sha msg.rawMsg.values =
          cfg.sha ((m.loops l).inputs leader))
    (hStep : handlePBC1 cfg m l leader msg = some e) :
    EffectBinds cfg e := by
  unfold SpeedingMVBA.handlePBC1 at hStep
  dsimp only at hStep
  split at hStep
  · cases hStep
  · split at hStep
    · rcases Option.map_eq_some_iff.mp hStep with
        ⟨certs, _, rfl⟩
      refine
        (hParty.setLoop ?_).plain (List.forall_mem_nil _)
      refine
        (hParty.loops l).mono rfl ?_ fun _ _ _ h => h
      intro c hHeld
      dsimp only
      by_cases hEq : c = leader
      · subst hEq
        rw [Function.update_self]
        exact hSame (hHeld.symm.imp_left holds_of_relies)
      · rw [Function.update_of_ne hEq]
    · split at hStep
      · cases hStep
        exact
          hParty.leave rfl rfl rfl (List.forall_mem_nil _)
      · cases hStep

/- The answers to a leader carry no values. -/
theorem PartyBinds.sendPBC2
    (hParty : PartyBinds cfg m)
    (hStep : sendPBC2 cfg id m l leader = some e) :
    EffectBinds cfg e := by
  unfold SpeedingMVBA.sendPBC2 at hStep
  dsimp only at hStep
  split at hStep
  · split at hStep
    · cases hStep
      exact hParty.leave rfl rfl rfl (List.forall_mem_nil _)
    · cases hStep
      exact
        hParty.leave rfl rfl rfl (plain_singleton trivial)
  · cases hStep

/- A combined signature is stored. -/
theorem PartyBinds.handlePBC3
    (hParty : PartyBinds cfg m)
    (hStep : handlePBC3 cfg m l leader msg = some e) :
    EffectBinds cfg e := by
  unfold SpeedingMVBA.handlePBC3 at hStep
  dsimp only at hStep
  split at hStep
  · rcases Option.ite_none_right_eq_some.mp hStep with
      ⟨_, hStep⟩
    rcases Option.map_eq_some_iff.mp hStep with
      ⟨cert, _, rfl⟩
    refine
      (hParty.setLoop ?_).plain (List.forall_mem_nil _)
    exact (hParty.loops l).same rfl rfl rfl
  · cases hStep

/- Nor does the second answer. -/
theorem PartyBinds.sendPBC4
    (hParty : PartyBinds cfg m)
    (hStep : sendPBC4 cfg id m l leader = some e) :
    EffectBinds cfg e := by
  unfold SpeedingMVBA.sendPBC4 at hStep
  dsimp only at hStep
  split at hStep
  · split at hStep
    · cases hStep
      exact hParty.leave rfl rfl rfl (List.forall_mem_nil _)
    · cases hStep
      exact
        hParty.leave rfl rfl rfl (plain_singleton trivial)
  · cases hStep

/- The end of a broadcast stores nothing. -/
theorem PartyBinds.returnPBC
    (hParty : PartyBinds cfg m)
    (hStep : returnPBC m l leader = some e) :
    EffectBinds cfg e := by
  unfold SpeedingMVBA.returnPBC at hStep
  dsimp only at hStep
  split at hStep
  · rcases Option.ite_none_right_eq_some.mp hStep with
      ⟨_, hEq⟩
    cases hEq
    exact hParty.leave rfl rfl rfl (List.forall_mem_nil _)
  · rcases Option.ite_none_right_eq_some.mp hStep with
      ⟨_, hEq⟩
    cases hEq
    exact hParty.leave rfl rfl rfl (List.forall_mem_nil _)
  · cases hStep

/- The own broadcast stores no values. -/
theorem PartyBinds.handleMinePBC2
    (hParty : PartyBinds cfg m)
    (hStep : handleMinePBC2 cfg id m l msg = some e) :
    EffectBinds cfg e := by
  unfold SpeedingMVBA.handleMinePBC2 at hStep
  dsimp only at hStep
  split at hStep
  · rcases Option.ite_none_right_eq_some.mp hStep with
      ⟨_, hStep⟩
    rcases Option.bind_eq_some_iff.mp hStep with
      ⟨got, _, hStep⟩
    split at hStep
    · rcases Option.bind_eq_some_iff.mp hStep with
        ⟨batch, _, hEq⟩
      cases hEq
      refine
        (hParty.setLoop ?_).plain (List.forall_mem_nil _)
      exact (hParty.loops l).same rfl rfl rfl
    · cases hStep
      exact hParty.leave rfl rfl rfl (List.forall_mem_nil _)
  · cases hStep

/- The own third message carries a hash. -/
theorem PartyBinds.sendPBC3
    (hParty : PartyBinds cfg m)
    (hStep : sendPBC3 cfg id m l = some e) :
    EffectBinds cfg e := by
  unfold SpeedingMVBA.sendPBC3 at hStep
  dsimp only at hStep
  split at hStep
  · split at hStep
    · cases hStep
      exact hParty.leave rfl rfl rfl (List.forall_mem_nil _)
    · cases hStep
      exact
        hParty.leave rfl rfl rfl (plain_singleton trivial)
  · cases hStep

/- Another OK leaves what is held. -/
theorem countPi_pis
    {okSign : Signature} {certs : List Cert}
    (hCount : countPi cfg l li okSign = some (li', certs)) :
    li'.pis = li.pis := by
  unfold countPi at hCount
  dsimp only at hCount
  split at hCount
  · rcases Option.map_eq_some_iff.mp hCount with
      ⟨batch, _, hEq⟩
    cases hEq
    rfl
  · cases hCount
    rfl

/- The own pi ends it. -/
theorem PartyBinds.handleMinePBC4
    (hParty : PartyBinds cfg m)
    (hStep : handleMinePBC4 cfg id m l msg = some e) :
    EffectBinds cfg e := by
  unfold SpeedingMVBA.handleMinePBC4 at hStep
  dsimp only at hStep
  split at hStep
  · rcases Option.ite_none_right_eq_some.mp hStep with
      ⟨_, hStep⟩
    rcases Option.bind_eq_some_iff.mp hStep with
      ⟨got, _, hStep⟩
    split at hStep
    · rcases Option.bind_eq_some_iff.mp hStep with
        ⟨batch, _, hStep⟩
      rcases Option.bind_eq_some_iff.mp hStep with
        ⟨⟨li', certs⟩, hCount, hEq⟩
      cases hEq
      rcases countPi_same hCount with ⟨hVotes, hInputs, _⟩
      have hPis := countPi_pis hCount
      refine
        (hParty.setLoop
          ((hParty.loops l).same hPis hInputs
            hVotes.finish)).plain ?_
      dsimp only
      split
      · exact List.forall_mem_nil _
      · exact plain_singleton trivial
    · cases hStep
      exact hParty.leave rfl rfl rfl (List.forall_mem_nil _)
  · cases hStep

/- So does the end of the own broadcast. -/
theorem PartyBinds.returnMinePBC
    (hParty : PartyBinds cfg m)
    (hStep : returnMinePBC m l = some e) :
    EffectBinds cfg e := by
  unfold SpeedingMVBA.returnMinePBC at hStep
  dsimp only at hStep
  split at hStep
  · rcases Option.ite_none_right_eq_some.mp hStep with
      ⟨_, hEq⟩
    cases hEq
    exact hParty.leave rfl rfl rfl (List.forall_mem_nil _)
  · rcases Option.ite_none_right_eq_some.mp hStep with
      ⟨_, hEq⟩
    cases hEq
    exact hParty.leave rfl rfl rfl (List.forall_mem_nil _)
  · cases hStep

/-
  A proof replaces the values and the certificate of its
  leader together; votes that are counted are for the same.
-/
theorem PartyBinds.handlePi
    (hParty : PartyBinds cfg m)
    (hSame :
      ∀ leader, index n msg.rawMsg.id = some leader →
        m.holds l leader = true →
          cfg.sha msg.rawMsg.values =
            cfg.sha ((m.loops l).inputs leader))
    (hStep : handlePi cfg m l msg = some e) :
    EffectBinds cfg e := by
  unfold SpeedingMVBA.handlePi at hStep
  dsimp only at hStep
  rcases Option.ite_none_right_eq_some.mp hStep with
    ⟨_, hStep⟩
  rcases Option.bind_eq_some_iff.mp hStep with
    ⟨leader, hIndex, hStep⟩
  rcases Option.bind_eq_some_iff.mp hStep with
    ⟨cert, hAccept, hStep⟩
  rcases Option.bind_eq_some_iff.mp hStep with
    ⟨okSign, _, hStep⟩
  rcases Option.bind_eq_some_iff.mp hStep with
    ⟨⟨li', certs⟩, hCount, hEq⟩
  cases hEq
  have hCert := (accept_eq_some hAccept).2
  have hOld := hParty.loops l
  rcases countPi_same hCount with ⟨hVotes, hInputs, _⟩
  have hStored :
      LoopBinds cfg l
        { m.loops l with
          inputs :=
            Function.update (m.loops l).inputs leader
              msg.rawMsg.values
          pis :=
            Function.update (m.loops l).pis leader cert.2 } := by
    refine ⟨?_, ?_⟩
    · intro c hProves
      by_cases hEq : c = leader
      · subst hEq
        simp only [Function.update_self]
        exact hCert
      · simp only [LoopInfo.proves,
          Function.update_of_ne hEq] at hProves ⊢
        exact hOld.pis c hProves
    · intro coin yes no hVote
      rcases hOld.votes coin yes no hVote with ⟨hFew, hYes⟩
      refine ⟨hFew, fun sign hMem => ?_⟩
      by_cases hEq : coin = leader
      · subst hEq
        have hRelies :
            (m.loops l).finish.relies coin = true := by
          rw [hVote]
          cases yes with
          | nil => cases hMem
          | cons => simp [Finish.relies]
        dsimp only
        rw [Function.update_self,
          hSame coin hIndex (holds_of_relies hRelies)]
        exact hYes sign hMem
      · dsimp only
        rw [Function.update_of_ne hEq]
        exact hYes sign hMem
  have hLoop :=
    hStored.same (countPi_pis hCount) hInputs hVotes.finish
  refine (hParty.setLoop ?_).plain (List.forall_mem_nil _)
  exact hLoop.same rfl rfl rfl

/- Shares and the coin leave the values. -/
theorem PartyBinds.sendShare
    (hParty : PartyBinds cfg m)
    (hStep : sendShare cfg id m l = some e) :
    EffectBinds cfg e := by
  unfold SpeedingMVBA.sendShare at hStep
  dsimp only at hStep
  split at hStep
  · split at hStep
    · cases hStep
      exact hParty.leave rfl rfl rfl (List.forall_mem_nil _)
    · cases hStep
      exact
        hParty.leave rfl rfl rfl (plain_singleton trivial)
  · cases hStep

/- A share is counted. -/
theorem PartyBinds.countShare
    (hParty : PartyBinds cfg m)
    {share : Signature} {ss : BatchSignature}
    {certs : List Cert}
    (hStep : countShare cfg m l share ss certs = some e) :
    EffectBinds cfg e := by
  unfold SpeedingMVBA.countShare at hStep
  dsimp only at hStep
  split at hStep
  · rcases Option.map_eq_some_iff.mp hStep with
      ⟨batch, _, rfl⟩
    refine
      (hParty.setLoop ?_).plain (List.forall_mem_nil _)
    exact (hParty.loops l).same rfl rfl rfl
  · cases hStep
    refine
      (hParty.setLoop ?_).plain (List.forall_mem_nil _)
    exact (hParty.loops l).same rfl rfl rfl

/- It is one of another party, -/
theorem PartyBinds.handleShare
    (hParty : PartyBinds cfg m)
    (hStep : handleShare cfg m l msg = some e) :
    EffectBinds cfg e := by
  unfold SpeedingMVBA.handleShare at hStep
  rcases Option.ite_none_right_eq_some.mp hStep with
    ⟨_, hStep⟩
  rcases Option.bind_eq_some_iff.mp hStep with
    ⟨cert, _, hStep⟩
  rcases Option.bind_eq_some_iff.mp hStep with
    ⟨share, _, hStep⟩
  exact hParty.countShare hStep

/- or the own one. -/
theorem PartyBinds.handleShareMine
    (hParty : PartyBinds cfg m)
    (hStep : handleShareMine cfg m l = some e) :
    EffectBinds cfg e := by
  unfold SpeedingMVBA.handleShareMine at hStep
  dsimp only at hStep
  rcases Option.ite_none_right_eq_some.mp hStep with
    ⟨_, hStep⟩
  rcases Option.bind_eq_some_iff.mp hStep with
    ⟨msg, _, hStep⟩
  rcases Option.bind_eq_some_iff.mp hStep with
    ⟨share, _, hStep⟩
  rcases Option.bind_eq_some_iff.mp hStep with
    ⟨ss, _, hStep⟩
  have hTaken :
      PartyBinds cfg
        (m.setLoop l { m.loops l with shareMine := none }) :=
    hParty.setLoop ((hParty.loops l).same rfl rfl rfl)
  exact hTaken.countShare hStep

/- The coin is stored where proofs are looked up. -/
theorem PartyBinds.storeCoin
    (hParty : PartyBinds cfg m)
    (hStep : storeCoin cfg m l = some e) :
    EffectBinds cfg e := by
  unfold SpeedingMVBA.storeCoin at hStep
  dsimp only at hStep
  rcases Option.ite_none_right_eq_some.mp hStep with
    ⟨_, hEq⟩
  cases hEq
  have hLoop :
      PartyBinds cfg
        (m.setLoop l
          { m.loops l with storesCoin := false }) :=
    hParty.setLoop ((hParty.loops l).same rfl rfl rfl)
  refine PartyBinds.plain ?_ (List.forall_mem_nil _)
  exact hLoop.of_same rfl rfl

end Early

end SpeedingMVBA

end Jumbo

------------------------------------------------------------
-- Votes and Halts
------------------------------------------------------------

namespace Jumbo

namespace SpeedingMVBA

open Crypto (Bytes)
open Struct

variable {n : Nat}

section Late

variable {strict : Prop}
variable {cfg : Config n} {id : Fin n} {m : MVBA n}
variable {l : Nat} {li : LoopInfo n} {msg : Msg}
variable {e : Effect n} {coin : Fin n}
variable {accepted assembled : List Cert}

/- A halt goes with a certificate for its values. -/
theorem PartyBinds.haltWith
    (hParty : PartyBinds cfg m) (hLoop : LoopBinds cfg l li)
    (hCoin : coin = cfg.coin l) {ss : BatchSignature}
    (hProven :
      Proven cfg l coin (cfg.sha (li.inputs coin)) ss) :
    EffectBinds cfg
      (haltWith cfg id m l li coin ss accepted
        assembled) := by
  subst hCoin
  have hEnded :
      PartyBinds cfg
        (m.setLoop l { li with finish := .done }) :=
    hParty.setLoop (hLoop.noVotes rfl rfl nofun)
  have hAttached :
      Attached cfg
        { rawMsg :=
            cfg.rawMsg .halt (cfg.coin l)
              (li.inputs (cfg.coin l)) l
          ss := some ss
          ss2 := some li.shareBatch } :=
    ⟨rfl, ss, rfl, hProven⟩
  unfold SpeedingMVBA.haltWith
  dsimp only
  split
  · exact ⟨hEnded, nofun⟩
  · refine ⟨⟨hEnded.loops, ?_⟩, ?_⟩
    · intro out hMem
      rcases List.mem_append.mp hMem with hOld | hNew
      · exact hParty.outputs out hOld
      · rw [List.mem_singleton.mp hNew]
        exact ⟨rfl, hAttached⟩
    · intro packet hMem _
      rw [List.mem_singleton.mp hMem]
      exact hAttached

/- The coin names the party that a certificate is held for. -/
theorem PartyBinds.handleCoin
    (hN : 2 ≤ n) (hOk : LoopOk cfg id l (m.loops l))
    (hParty : PartyBinds cfg m)
    (hStep : handleCoin cfg id m l = some e) :
    EffectBinds cfg e := by
  have hLoop := hParty.loops l
  have hPos := maxCount_pos hN
  unfold SpeedingMVBA.handleCoin at hStep
  dsimp only at hStep
  split at hStep
  · rename_i coin _ hReady
    have hCoin := (hOk.coin coin hReady).1
    split at hStep
    · rename_i hMany
      cases hStep
      have hProves : (m.loops l).proves coin = true :=
        decide_eq_true (by omega)
      have hTaken :
          LoopBinds cfg l
            { m.loops l with coinReady := none } :=
        hLoop.same rfl rfl rfl
      exact
        hParty.haltWith hTaken hCoin (hLoop.pis coin hProves)
    · split at hStep
      · cases hStep
        refine
          (hParty.setLoop ?_).plain (List.forall_mem_nil _)
        exact hLoop.noVotes rfl rfl nofun
      · cases hStep
        refine
          ⟨hParty.setLoop (hLoop.noVotes rfl rfl nofun), ?_⟩
        intro packet hMem _
        rw [List.mem_singleton.mp hMem]
        dsimp only [broadcast]
        split
        · rename_i hFlag
          have hMany := of_decide_eq_true hFlag
          have hBound :
              (m.loops l).Bound cfg l coin := by
            refine
              (hOk.sigmas coin).resolve_left fun hNone => ?_
            rw [hNone, List.length_nil] at hMany
            omega
          refine ⟨(m.loops l).sigmas coin, rfl, ?_⟩
          change Certified cfg l (cfg.coin l) _ _
          rw [← hCoin]
          exact hBound
        · trivial
  · cases hStep

/- A vote yes goes with the combined signature. -/
theorem PartyBinds.castVote
    (hN : 2 ≤ n) (hCombines : Combines cfg)
    (hParty : PartyBinds cfg m) (hLoop : LoopBinds cfg l li)
    (hCoin : coin = cfg.coin l) {yesFlag : Bool}
    (hYes : yesFlag = true → li.Bound cfg l coin)
    {noCombins : List Signature}
    (hStep :
      castVote cfg id m l li coin yesFlag noCombins accepted =
        some e) :
    EffectBinds cfg e := by
  have hPos := maxCount_pos hN
  have hEnded :
      PartyBinds cfg
        (m.setLoop l { li with finish := .done }) :=
    hParty.setLoop (hLoop.noVotes rfl rfl nofun)
  unfold SpeedingMVBA.castVote at hStep
  dsimp only at hStep
  split at hStep
  · rename_i hFlag
    cases hStep
    split
    · exact ⟨hEnded, nofun⟩
    · refine ⟨hParty.setLoop ⟨hLoop.pis, ?_⟩, ?_⟩
      · intro coin' yes no hVote
        cases hVote
        refine ⟨hPos, fun sign hMem => ?_⟩
        rw [List.mem_singleton.mp hMem]
        exact hCombines.usable id _
      · intro packet hMem _
        rw [List.mem_singleton.mp hMem]
        subst hCoin
        exact ⟨rfl, li.sigmas (cfg.coin l), rfl, hYes hFlag⟩
  · rcases Option.map_eq_some_iff.mp hStep with
      ⟨batch, _, rfl⟩
    split
    · exact ⟨hEnded, nofun⟩
    · refine ⟨hParty.setLoop ⟨hLoop.pis, ?_⟩, ?_⟩
      · intro coin' yes no hVote
        cases hVote
        exact ⟨hPos, List.forall_mem_nil _⟩
      · intro packet hMem _
        rw [List.mem_singleton.mp hMem]
        trivial

/- Another party has told what it holds. -/
theorem PartyBinds.countPrev
    (hN : 2 ≤ n) (hCombines : Combines cfg)
    (hParty : PartyBinds cfg m) (hLoop : LoopBinds cfg l li)
    (hCoin : coin = cfg.coin l) {yesFlag : Bool}
    (hYes : yesFlag = true → li.Bound cfg l coin)
    {noCombins : List Signature} {prevCount : Nat}
    (hStep :
      countPrev cfg id m l li coin yesFlag noCombins prevCount
          accepted =
        some e) :
    EffectBinds cfg e := by
  unfold SpeedingMVBA.countPrev at hStep
  split at hStep
  · exact
      hParty.castVote hN hCombines hLoop hCoin hYes hStep
  · cases hStep
    exact
      ⟨hParty.setLoop (hLoop.noVotes rfl rfl nofun), nofun⟩

/- A prevote replaces values that no certificate is for. -/
theorem PartyBinds.handlePrevYes
    (hN : 2 ≤ n) (hCombines : Combines cfg)
    (hOk : LoopOk cfg id l (m.loops l))
    (hParty : PartyBinds cfg m)
    (hSame :
      ∀ coin no count,
        (m.loops l).finish = .prev coin false no count →
          (m.loops l).proves coin = true →
            cfg.sha msg.rawMsg.values =
              cfg.sha ((m.loops l).inputs coin))
    (hStep : handlePrevYes cfg id m l msg = some e) :
    EffectBinds cfg e := by
  have hLoop := hParty.loops l
  unfold SpeedingMVBA.handlePrevYes at hStep
  dsimp only at hStep
  split at hStep
  · rename_i coin yesFlag noCombins prevCount hPrev
    have hFinish := hOk.finish
    rw [hPrev] at hFinish
    rcases hFinish with ⟨hCoin, _, hYes⟩
    split at hStep
    · rename_i hFlag
      exact
        hParty.countPrev hN hCombines hLoop hCoin
          (fun _ => hYes hFlag) hStep
    · rename_i hFlag
      have hFlag : yesFlag = false :=
        Bool.eq_false_of_not_eq_true hFlag
      subst hFlag
      rcases Option.bind_eq_some_iff.mp hStep with
        ⟨batch, _, hStep⟩
      rcases Option.bind_eq_some_iff.mp hStep with
        ⟨res, hVerify, hStep⟩
      split at hStep
      · rename_i hRes
        rw [hRes] at hVerify
        let li' : LoopInfo n :=
          { m.loops l with
            inputs :=
              Function.update (m.loops l).inputs coin
                msg.rawMsg.values
            sigmas :=
              Function.update (m.loops l).sigmas coin batch }
        have hStored : LoopBinds cfg l li' := by
          refine hLoop.mono rfl ?_ fun _ _ _ h => h
          intro c hHeld
          have hProves : (m.loops l).proves c = true := by
            refine hHeld.resolve_right fun hRelies => ?_
            rw [hPrev] at hRelies
            simp [Finish.relies] at hRelies
          simp only [li']
          by_cases hEq : c = coin
          · subst hEq
            rw [Function.update_self]
            exact hSame c _ _ hPrev hProves
          · rw [Function.update_of_ne hEq]
        have hBound : li'.Bound cfg l coin := by
          simp only [LoopInfo.Bound, li', Function.update_self]
          exact hVerify
        exact
          hParty.countPrev hN hCombines hStored hCoin
            (fun _ => hBound) hStep
      · exact
          hParty.countPrev hN hCombines hLoop hCoin
            (fun hYes => Bool.noConfusion hYes) hStep
  · cases hStep

/- A prevote against the coin stores nothing. -/
theorem PartyBinds.handlePrevNo
    (hN : 2 ≤ n) (hCombines : Combines cfg)
    (hOk : LoopOk cfg id l (m.loops l))
    (hParty : PartyBinds cfg m)
    (hStep : handlePrevNo cfg id m l msg = some e) :
    EffectBinds cfg e := by
  have hLoop := hParty.loops l
  unfold SpeedingMVBA.handlePrevNo at hStep
  dsimp only at hStep
  split at hStep
  · rename_i coin yesFlag noCombins prevCount hPrev
    have hFinish := hOk.finish
    rw [hPrev] at hFinish
    rcases hFinish with ⟨hCoin, _, hYes⟩
    split at hStep
    · rename_i hFlag
      exact
        hParty.countPrev hN hCombines hLoop hCoin
          (fun _ => hYes hFlag) hStep
    · rcases Option.bind_eq_some_iff.mp hStep with
        ⟨got, _, hStep⟩
      exact
        hParty.countPrev hN hCombines hLoop hCoin
          (fun hYes => Bool.noConfusion hYes) hStep
  · cases hStep

/- The input of the next loop has its proofs elsewhere. -/
theorem PartyBinds.nextLoop
    (hParty : PartyBinds cfg m) (hLoop : LoopBinds cfg l li)
    {proofs : List (OldProof n)} {input : Bytes} :
    EffectBinds cfg
      (nextLoop cfg id m l li proofs input accepted
        assembled) := by
  have hEnded :
      PartyBinds cfg
        (m.setLoop l { li with finish := .done }) :=
    hParty.setLoop (hLoop.noVotes rfl rfl nofun)
  have hLeft :
      PartyBinds cfg
        (m.setLoop l
          { li with lastinput := input, finish := .next }) :=
    hParty.setLoop (hLoop.noVotes rfl rfl nofun)
  refine ⟨?_, ?_⟩
  · unfold SpeedingMVBA.nextLoop
    dsimp only
    split
    · exact hEnded.of_same rfl rfl
    · exact hLeft.of_same rfl rfl
  · intro packet hMem hType
    rw [List.mem_singleton.mp hMem] at hType
    exact absurd rfl hType

/- Votes yes for the values stored are put together. -/
theorem PartyBinds.countVotes
    (hCombines : Combines cfg)
    (hParty : PartyBinds cfg m) (hLoop : LoopBinds cfg l li)
    (hCoin : coin = cfg.coin l)
    {yes no : List Signature} {values : Bytes}
    (hYes :
      ∀ sign ∈ yes,
        Usable cfg
          (cfg.marshal
            (cfg.rawMsg .pbc4 coin
              (cfg.sha (li.inputs coin)) l))
          sign)
    (hValues :
      maxCount n < yes.length →
        cfg.sha values = cfg.sha (li.inputs coin))
    (hStep :
      countVotes cfg id m l li coin yes no values accepted =
        some e) :
    EffectBinds cfg e := by
  unfold SpeedingMVBA.countVotes at hStep
  dsimp only at hStep
  split at hStep
  · split at hStep
    · rename_i hMany
      split at hStep
      · rename_i hHeld
        cases hStep
        exact
          hParty.haltWith hLoop hCoin
            (hLoop.pis coin (decide_eq_true hHeld))
      · rcases Option.map_eq_some_iff.mp hStep with
          ⟨batch, hBatch, rfl⟩
        refine hParty.haltWith hLoop hCoin ?_
        rw [hValues hMany] at hBatch
        have hSome : yes ≠ [] := by
          rintro rfl
          exact Nat.not_lt_zero _ hMany
        exact hCombines.batchSign hSome hYes hBatch
    · split at hStep
      · rcases Option.map_eq_some_iff.mp hStep with
          ⟨batch, _, rfl⟩
        exact hParty.nextLoop hLoop
      · cases hStep
        exact hParty.nextLoop hLoop
  · rename_i hFew
    cases hStep
    refine ⟨hParty.setLoop ⟨hLoop.pis, ?_⟩, nofun⟩
    intro coin' yes' no' hVote
    cases hVote
    exact ⟨Nat.le_of_not_lt hFew, hYes⟩

/- A vote yes is counted for the values stored. -/
theorem PartyBinds.handleVoteYes
    (hCombines : Combines cfg)
    (hOk : LoopOk cfg id l (m.loops l))
    (hParty : PartyBinds cfg m)
    (hExact : ∀ sign ∈ msg.sign, exact cfg sign = true)
    (hAllowed :
      ∀ coin yes no,
        (m.loops l).finish = .vote coin yes no →
          ((m.loops l).proves coin = false ∧ yes = [] ∧
              ((m.loops l).inputs coin).length = 0) ∨
            cfg.sha msg.rawMsg.values =
              cfg.sha ((m.loops l).inputs coin))
    (hStep : handleVoteYes cfg id m l msg = some e) :
    EffectBinds cfg e := by
  have hLoop := hParty.loops l
  unfold SpeedingMVBA.handleVoteYes at hStep
  dsimp only at hStep
  split at hStep
  · rename_i coin yes no hVote
    have hFinish := hOk.finish
    rw [hVote] at hFinish
    rcases Option.bind_eq_some_iff.mp hStep with
      ⟨cert, _, hStep⟩
    rcases Option.bind_eq_some_iff.mp hStep with
      ⟨got, hAccept, hStep⟩
    rcases acceptSign_eq_some hAccept with
      ⟨hSign, hVerify⟩
    let inputs : Fin n → Bytes :=
      if ((m.loops l).inputs coin).length = 0 then
        Function.update (m.loops l).inputs coin
          msg.rawMsg.values
      else (m.loops l).inputs
    have hOwn :
        cfg.sha msg.rawMsg.values =
          cfg.sha (inputs coin) := by
      simp only [inputs]
      split
      · rw [Function.update_self]
      · rename_i hFull
        exact
          (hAllowed coin yes no hVote).resolve_left
            fun hFree => hFull hFree.2.2
    have hKept :
        ∀ c, (m.loops l).proves c = true ∨
            (m.loops l).finish.relies c = true →
          cfg.sha (inputs c) =
            cfg.sha ((m.loops l).inputs c) := by
      intro c hHeld
      by_cases hEq : c = coin
      · subst hEq
        rw [← hOwn]
        refine
          (hAllowed c yes no hVote).resolve_left ?_
        rintro ⟨hNot, hNil, _⟩
        rw [hVote, hNil, hNot] at hHeld
        simp [Finish.relies] at hHeld
      · simp only [inputs]
        split
        · rw [Function.update_of_ne hEq]
        · rfl
    let li' : LoopInfo n :=
      { m.loops l with
        sigmas := Function.update (m.loops l).sigmas coin cert.2
        inputs := inputs }
    have hStored : LoopBinds cfg l li' :=
      hLoop.mono rfl hKept fun _ _ _ h => h
    refine
      hParty.countVotes hCombines hStored hFinish.1 ?_
        (fun _ => hOwn) hStep
    intro sign hMem
    rcases List.mem_append.mp hMem with hOld | hNew
    · have hRelies :
          (m.loops l).finish.relies coin = true := by
        rw [hVote]
        cases yes with
        | nil => cases hOld
        | cons => simp [Finish.relies]
      change
        Usable cfg
          (cfg.marshal
            (cfg.rawMsg .pbc4 coin (cfg.sha (inputs coin)) l))
          sign
      rw [hKept coin (.inr hRelies)]
      exact (hLoop.votes coin yes no hVote).2 sign hOld
    · rw [List.mem_singleton.mp hNew]
      change
        Usable cfg
          (cfg.marshal
            (cfg.rawMsg .pbc4 coin (cfg.sha (inputs coin)) l))
          got
      rw [← hOwn]
      exact ⟨hVerify, hExact got hSign⟩
  · cases hStep

/- A vote no does not end the votes with a halt. -/
theorem PartyBinds.handleVoteNo
    (hCombines : Combines cfg)
    (hOk : LoopOk cfg id l (m.loops l))
    (hParty : PartyBinds cfg m)
    (hStep : handleVoteNo cfg id m l msg = some e) :
    EffectBinds cfg e := by
  have hLoop := hParty.loops l
  unfold SpeedingMVBA.handleVoteNo at hStep
  dsimp only at hStep
  split at hStep
  · rename_i coin yes no hVote
    have hFinish := hOk.finish
    rw [hVote] at hFinish
    rcases hLoop.votes coin yes no hVote with ⟨hFew, hYes⟩
    rcases Option.bind_eq_some_iff.mp hStep with
      ⟨cert, _, hStep⟩
    rcases Option.bind_eq_some_iff.mp hStep with
      ⟨got, _, hStep⟩
    refine
      hParty.countVotes hCombines hLoop hFinish.1 hYes
        (fun hMany => ?_) hStep
    omega
  · cases hStep

/- The coin of a halt is no certificate. -/
theorem PartyBinds.handleHalt
    (hParty : PartyBinds cfg m)
    (hStep : handleHalt cfg m msg = some e) :
    EffectBinds cfg e := by
  unfold SpeedingMVBA.handleHalt at hStep
  rcases Option.ite_none_right_eq_some.mp hStep with
    ⟨_, hStep⟩
  rcases Option.map_eq_some_iff.mp hStep with
    ⟨cert2, _, hEq⟩
  cases hEq
  refine PartyBinds.plain ?_ (List.forall_mem_nil _)
  exact hParty.of_same rfl rfl

/- A halt is adopted with its certificate. -/
theorem PartyBinds.adoptHalt
    (hHalting :
      ∀ msg, m.halt = .stored msg → msg.rawMsg.type = .halt)
    (hParty : PartyBinds cfg m)
    (hStep : adoptHalt cfg id m = some e) :
    EffectBinds cfg e := by
  unfold SpeedingMVBA.adoptHalt at hStep
  split at hStep
  · rename_i msg hStored
    rcases Option.ite_none_right_eq_some.mp hStep with
      ⟨hNamed, hStep⟩
    rcases Option.map_eq_some_iff.mp hStep with
      ⟨cert, hAccept, hEq⟩
    have hType := hHalting msg hStored
    rcases accept_eq_some hAccept with ⟨hSs, hCert⟩
    have hAttached : Attached cfg msg := by
      unfold Attached
      rw [hType]
      exact ⟨hNamed, cert.2, hSs, hCert⟩
    split at hEq
    · cases hEq
      refine PartyBinds.plain ?_ (List.forall_mem_nil _)
      exact hParty.of_same rfl rfl
    · cases hEq
      refine ⟨⟨hParty.loops, ?_⟩, ?_⟩
      · intro out hMem
        rcases List.mem_append.mp hMem with hOld | hNew
        · exact hParty.outputs out hOld
        · rw [List.mem_singleton.mp hNew]
          exact ⟨hType, hAttached⟩
      · intro packet hMem _
        rw [List.mem_singleton.mp hMem]
        exact hAttached
  · cases hStep

end Late

end SpeedingMVBA

end Jumbo

------------------------------------------------------------
-- Steps and Runs
------------------------------------------------------------

namespace Jumbo

namespace SpeedingMVBA

open Crypto (Bytes)
open Protocol
open Struct

variable {n : Nat}

section Run

variable {cfg : Config n} {id : Fin n} {m : MVBA n}
variable {msg : Msg} {e : Effect n}

/- A message of a loop is read where it is allowed. -/
theorem PartyBinds.receiveLoop
    (hN : 2 ≤ n) (hCombines : Combines cfg)
    (hOk : LoopOk cfg id msg.rawMsg.loop
      (m.loops msg.rawMsg.loop))
    (hParty : PartyBinds cfg m)
    (hBinds : bindsMsg cfg id m msg = true)
    (hStep : receiveLoop cfg id m msg = some e) :
    EffectBinds cfg e := by
  unfold SpeedingMVBA.receiveLoop at hStep
  unfold bindsMsg at hBinds
  cases hType : msg.rawMsg.type with
  | pbc1 =>
      simp only [hType] at hStep hBinds
      rcases Option.bind_eq_some_iff.mp hStep with
        ⟨leader, hIndex, hStep⟩
      refine hParty.handlePBC1 (fun hHeld => ?_) hStep
      rw [hIndex] at hBinds
      rcases Bool.or_eq_true_iff.mp hBinds with hFree | hSame
      · simp only [Bool.and_eq_true, Bool.not_eq_true']
          at hFree
        rw [hFree.1, hFree.2] at hHeld
        simp at hHeld
      · exact of_decide_eq_true hSame
  | pbc2 =>
      simp only [hType] at hStep
      exact hParty.handleMinePBC2 hStep
  | pbc3 =>
      simp only [hType] at hStep
      rcases Option.bind_eq_some_iff.mp hStep with
        ⟨leader, _, hStep⟩
      exact hParty.handlePBC3 hStep
  | pbc4 =>
      simp only [hType] at hStep
      exact hParty.handleMinePBC4 hStep
  | pi =>
      simp only [hType] at hStep hBinds
      refine hParty.handlePi (fun leader hIndex hHolds => ?_)
        hStep
      rw [hIndex] at hBinds
      rcases Bool.or_eq_true_iff.mp hBinds with hFree | hSame
      · simp [hHolds] at hFree
      · exact of_decide_eq_true hSame
  | share =>
      simp only [hType] at hStep
      exact hParty.handleShare hStep
  | prevYes =>
      simp only [hType] at hStep hBinds
      refine
        hParty.handlePrevYes hN hCombines hOk
          (fun coin no count hFinish hProves => ?_) hStep
      rw [hFinish] at hBinds
      rcases Bool.or_eq_true_iff.mp hBinds with hFree | hSame
      · simp [hProves] at hFree
      · exact of_decide_eq_true hSame
  | prevNo =>
      simp only [hType] at hStep
      exact hParty.handlePrevNo hN hCombines hOk hStep
  | voteYes =>
      simp only [hType] at hStep hBinds
      rcases Bool.and_eq_true_iff.mp hBinds with
        ⟨hExact, hBinds⟩
      refine
        hParty.handleVoteYes hCombines hOk
          ((Option.all_eq_true _ _).mp hExact)
          (fun coin yes no hFinish => ?_) hStep
      rw [hFinish] at hBinds
      rcases Bool.or_eq_true_iff.mp hBinds with hFree | hSame
      · simp only [Bool.and_eq_true, Bool.not_eq_true',
          decide_eq_true_iff, List.isEmpty_iff] at hFree
        exact .inl ⟨hFree.1.1.2, hFree.1.2, hFree.2⟩
      · exact .inr (of_decide_eq_true hSame)
  | voteNo =>
      simp only [hType] at hStep
      exact hParty.handleVoteNo hCombines hOk hStep
  | halt =>
      simp only [hType] at hStep
      cases hStep

/- A message is read where it is allowed. -/
theorem PartyBinds.receive
    (hN : 2 ≤ n) (hCombines : Combines cfg)
    (hOk : PartyOk False cfg id m) (hParty : PartyBinds cfg m)
    (hBinds : bindsMsg cfg id m msg = true)
    (hStep : receive cfg id m msg = some e) :
    EffectBinds cfg e := by
  unfold SpeedingMVBA.receive at hStep
  split at hStep
  · cases hStep
  · split at hStep
    · exact hParty.handleHalt hStep
    · rcases Option.ite_none_right_eq_some.mp hStep with
        ⟨hLt, hStep⟩
      exact
        hParty.receiveLoop hN hCombines (hOk.loops _ hLt)
          hBinds hStep

/- What is sent at the start are inputs. -/
theorem PartyBinds.launch
    (hParty : PartyBinds cfg m) {input : Bytes}
    (hStep : launch cfg id m input = some e) :
    EffectBinds cfg e := by
  unfold SpeedingMVBA.launch at hStep
  rcases Option.ite_none_right_eq_some.mp hStep with
    ⟨_, hEq⟩
  cases hEq
  have hNew :
      PartyBinds cfg
        (m.setLoop 0 (LoopInfo.new cfg id input)) :=
    hParty.setLoop (loopBinds_new cfg id 0 input)
  refine ⟨hNew.of_same rfl rfl, ?_⟩
  intro packet hMem hType
  rw [List.mem_singleton.mp hMem] at hType
  exact absurd rfl hType

/- Nothing is sent when the next loop is started. -/
theorem PartyBinds.startLoop
    (hParty : PartyBinds cfg m)
    (hStep : startLoop cfg id m = some e) :
    EffectBinds cfg e := by
  unfold SpeedingMVBA.startLoop at hStep
  rcases Option.ite_none_right_eq_some.mp hStep with
    ⟨_, hEq⟩
  cases hEq
  have hNew :
      PartyBinds cfg
        (m.setLoop m.started
          (LoopInfo.new cfg id
            (m.loops (m.started - 1)).lastinput)) :=
    hParty.setLoop (loopBinds_new cfg id _ _)
  refine PartyBinds.plain ?_ (List.forall_mem_nil _)
  exact hNew.of_same rfl rfl

/- A step of a party attaches certificates to their values. -/
theorem PartyBinds.step
    (hN : 2 ≤ n) (hCombines : Combines cfg)
    (hOk : PartyOk False cfg id m) (hParty : PartyBinds cfg m)
    {a : PartyAction n}
    (hBinds :
      ∀ msg, a = .receive msg →
        bindsMsg cfg id m msg = true)
    (hStep : step cfg id m a = some e) :
    EffectBinds cfg e := by
  unfold SpeedingMVBA.step at hStep
  split at hStep
  · cases hStep
  · cases a with
    | launch input => exact hParty.launch hStep
    | startLoop => exact hParty.startLoop hStep
    | receive msg =>
        exact
          hParty.receive hN hCombines hOk (hBinds msg rfl)
            hStep
    | adoptHalt => exact hParty.adoptHalt hOk.halting hStep
    | returnAll =>
        rcases Option.ite_none_right_eq_some.mp hStep with
          ⟨_, hEq⟩
        cases hEq
        refine PartyBinds.plain ?_ (List.forall_mem_nil _)
        exact hParty.of_same rfl rfl
    | sendPBC2 l leader =>
        rcases Option.ite_none_right_eq_some.mp hStep with
          ⟨_, hStep⟩
        exact hParty.sendPBC2 hStep
    | sendPBC4 l leader =>
        rcases Option.ite_none_right_eq_some.mp hStep with
          ⟨_, hStep⟩
        exact hParty.sendPBC4 hStep
    | returnPBC l leader =>
        rcases Option.ite_none_right_eq_some.mp hStep with
          ⟨_, hStep⟩
        exact hParty.returnPBC hStep
    | sendPBC3 l =>
        rcases Option.ite_none_right_eq_some.mp hStep with
          ⟨_, hStep⟩
        exact hParty.sendPBC3 hStep
    | returnMinePBC l =>
        rcases Option.ite_none_right_eq_some.mp hStep with
          ⟨_, hStep⟩
        exact hParty.returnMinePBC hStep
    | sendShare l =>
        rcases Option.ite_none_right_eq_some.mp hStep with
          ⟨_, hStep⟩
        exact hParty.sendShare hStep
    | shareMine l =>
        rcases Option.ite_none_right_eq_some.mp hStep with
          ⟨_, hStep⟩
        exact hParty.handleShareMine hStep
    | storeCoin l =>
        rcases Option.ite_none_right_eq_some.mp hStep with
          ⟨_, hStep⟩
        exact hParty.storeCoin hStep
    | coin l =>
        rcases Option.ite_none_right_eq_some.mp hStep with
          ⟨hLt, hStep⟩
        exact hParty.handleCoin hN (hOk.loops l hLt) hStep

end Run

/- Every party is well, and so is all that has been sent. -/
structure PartiesBind (cfg : Config n) (s : Parties n) :
    Prop where
  ok : PartiesOk False cfg s
  party : ∀ id, PartyBinds cfg (s.party id)
  sent : ∀ packet ∈ s.sent, Attached cfg packet.msg

section Runs

variable {cfg : Config n} {s s' : Parties n}

/- A step that meets the condition keeps all in order. -/
theorem PartiesBind.step
    (hN : 2 ≤ n) (hCombines : Combines cfg)
    (hBind : PartiesBind cfg s) {a : PartiesAction n}
    (hBinds : binds cfg s a = true)
    (hExec : (parties cfg).exec s a = some s') :
    PartiesBind cfg s' := by
  have hOk : PartiesOk False cfg s' :=
    hBind.ok.step hN hCombines
      (fun _ _ hActor =>
        reads_of_binds (bindsMsg_of_binds hBinds hActor))
      hExec
  rcases Option.bind_eq_some_iff.mp hExec with
    ⟨⟨id, act⟩, hActor, hMap⟩
  rcases Option.map_eq_some_iff.mp hMap with ⟨e, hStep, rfl⟩
  have hMsg :
      ∀ msg, act = .receive msg →
        bindsMsg cfg id (s.party id) msg = true := by
    rintro msg rfl
    exact bindsMsg_of_binds hBinds hActor
  have hEffect :=
    (hBind.party id).step hN hCombines (hBind.ok.party id)
      hMsg hStep
  refine ⟨hOk, fun q => ?_, fun packet hMem => ?_⟩
  · change
      PartyBinds cfg (Function.update s.party id e.mvba q)
    by_cases hEq : q = id
    · subst hEq
      rw [Function.update_self]
      exact hEffect.party
    · rw [Function.update_of_ne hEq]
      exact hBind.party q
  · by_cases hType : packet.msg.rawMsg.type = .pbc1
    · -- inputs and their proofs are those of the parties
      unfold Attached
      rw [hType]
      exact hOk.sent packet hMem hType
    · rcases List.mem_append.mp hMem with hOld | hNew
      · exact hBind.sent packet hOld
      · exact hEffect.sent packet hNew hType

/-
  In a run whose messages leave values and certificates
  together, what a party sends or puts out is certified.
-/
theorem certificates_bound
    (hN : 2 ≤ n) (hCombines : Combines cfg)
    (hReach :
      (parties cfg).ReachableBy
        (fun s a => binds cfg s a = true) s) :
    (∀ packet ∈ s.sent, Attached cfg packet.msg) ∧
      ∀ id, ∀ msg ∈ (s.party id).outputs,
        msg.rawMsg.type = .halt ∧ Attached cfg msg := by
  have hBind : PartiesBind cfg s := by
    refine hReach.invariant (PartiesBind cfg) ?_ ?_
    · refine ⟨partiesOk_new cfg, fun id => ?_, nofun⟩
      exact ⟨fun l => loopBinds_new cfg id l [], nofun⟩
    · intro s a s' _ hBind hBinds hExec
      exact hBind.step hN hCombines hBinds hExec
  exact ⟨hBind.sent, fun id => (hBind.party id).outputs⟩

end Runs

end SpeedingMVBA

end Jumbo

------------------------------------------------------------
-- A Leader That Sends Two Values
------------------------------------------------------------

namespace Jumbo

namespace SpeedingMVBA

open Crypto (Bytes)
open Protocol
open Struct

/- Party 1 has `[1]` certified by parties 2 and 3. -/
def byzThird : Msg where
  rawMsg := paddedConfig.rawMsg .pbc3 1 [1] 0
  ss :=
    combined [2, 3, 1]
      (paddedConfig.marshal
        (paddedConfig.rawMsg .pbc2 1 [1] 0))

/- It has their second signatures as well. -/
def byzPi : Msg where
  rawMsg := paddedConfig.rawMsg .pi 1 [1] 0
  sign := some (sign paddedConfig 1 (paddedConfig.tagged 0 .ok))
  ss :=
    combined [2, 3, 1]
      (paddedConfig.marshal
        (paddedConfig.rawMsg .pbc4 1 [1] 0))

/- Party `id` signs the input `[1]` of party 1 twice. -/
def signTwice (id : Fin 4) : List (PartiesAction 4) :=
  [.act id (.receive (byzInput [1])), .act id (.sendPBC2 0 1),
    .act id (.receive byzThird), .act id (.sendPBC4 0 1)]

/-
  Party 1 has `[1]` certified by parties 2 and 3, sends the
  certificate to party 0, and then `input` as its input. The
  coin names party 1, and party 0 halts.
-/
def haltRun (input : Bytes) : List (PartiesAction 4) :=
  ([.act 0 (.launch [10]), .act 2 (.launch [12]),
    .act 3 (.launch [13])] : List (PartiesAction 4)) ++
  certifyInput 0 2 [10] 0 3 ++
  certifyInput 2 3 [12] 1 7 ++
  certifyInput 3 0 [13] 2 11 ++
  signTwice 2 ++ signTwice 3 ++
  ([.act 0 (.receive byzPi),
    .act 0 (.receive (byzInput input))]
    : List (PartiesAction 4)) ++
  -- pi and shares
  ([.relay 2 6, .relay 2 14, .relay 3 6, .relay 3 10,
    .act 2 (.sendShare 0), .act 3 (.sendShare 0),
    .relay 0 19, .relay 0 20, .act 0 (.receive byzShare),
    .act 0 (.storeCoin 0), .act 0 (.coin 0)]
    : List (PartiesAction 4))

/- Where the run with one input ends. -/
def boundState : Parties 4 :=
  (parties paddedConfig).drive (binds paddedConfig)
    (parties paddedConfig).init (haltRun [1])

/- Party 0 has halted with the input of party 1. -/
theorem boundState_halted :
    (boundState.party 0).outputs.map (·.rawMsg.values) =
      [[1]] := by
  decide +kernel

/- Its certificate is for it. -/
theorem certificates_bound_halt :
    ∃ msg ∈ (boundState.party 0).outputs,
      msg.rawMsg.values = [1] ∧
        msg.rawMsg.type = .halt ∧
          Attached paddedConfig msg := by
  have hReach :
      (parties paddedConfig).ReachableBy
        (fun s a => binds paddedConfig s a = true)
        boundState :=
    Machine.ReachableBy.drive .init (haltRun [1])
  have hOne :
      [1] ∈
        (boundState.party 0).outputs.map
          (·.rawMsg.values) := by
    rw [boundState_halted]
    exact List.mem_singleton_self _
  rcases List.mem_map.mp hOne with ⟨msg, hMem, hValues⟩
  exact
    ⟨msg, hMem, hValues,
      (certificates_bound (by decide) paddedConfig_combines
        hReach).2 0 msg hMem⟩

/- Where the run with another input ends. -/
def unboundState : Parties 4 :=
  (parties paddedConfig).drive (fun _ _ => true)
    (parties paddedConfig).init (haltRun [2])

/- Whether a certificate is for the values of a halt. -/
def provenHalt (msg : Msg) : Bool :=
  msg.ss.any fun batch =>
    decide
      (verifySigns paddedConfig
        (paddedConfig.marshal
          (paddedConfig.rawMsg .pbc4
            (paddedConfig.coin msg.rawMsg.loop)
            (paddedConfig.sha msg.rawMsg.values)
            msg.rawMsg.loop))
        batch = some true)

/- Party 0 has halted with `[2]` and a certificate for `[1]`. -/
theorem unboundState_halted :
    (unboundState.party 0).outputs.map
        (fun msg =>
          (msg.rawMsg.type, msg.rawMsg.values,
            provenHalt msg)) =
      [(.halt, [2], false)] := by
  decide +kernel

/- A party halts with values that nobody has certified. -/
theorem certificates_not_bound :
    ¬ ∀ (n : Nat) (cfg : Config n) (s : Parties n),
      2 ≤ n → Combines cfg → (parties cfg).Reachable s →
        ∀ id, ∀ msg ∈ (s.party id).outputs,
          Attached cfg msg := by
  intro hAll
  have hHalted :
      (.halt, [2], false) ∈
        (unboundState.party 0).outputs.map
          (fun msg =>
            (msg.rawMsg.type, msg.rawMsg.values,
              provenHalt msg)) := by
    rw [unboundState_halted]
    exact List.mem_singleton_self _
  rcases List.mem_map.mp hHalted with ⟨msg, hMem, hEq⟩
  have hType : msg.rawMsg.type = .halt :=
    congrArg (·.1) hEq
  have hProven : provenHalt msg = false :=
    congrArg (·.2.2) hEq
  have hAttached :=
    hAll 4 paddedConfig unboundState (by decide)
      paddedConfig_combines
      (Machine.reachable_drive _ (haltRun [2])) 0 msg hMem
  unfold Attached at hAttached
  rw [hType] at hAttached
  rcases hAttached with ⟨_, batch, hSs, hVerify⟩
  unfold provenHalt at hProven
  rw [hSs] at hProven
  exact of_decide_eq_false hProven hVerify

end SpeedingMVBA

end Jumbo
