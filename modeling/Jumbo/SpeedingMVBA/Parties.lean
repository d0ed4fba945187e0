import Jumbo.Lib.Machine
import Jumbo.SpeedingMVBA.Proofs

/-
  Parties of the speeding MVBA among any others.

  Every message may be handed to a party, so that any other
  party may be Byzantine. A party keeps the input stored for
  the leader of a coin apart from the combined signature for
  it. The invariant says that they belong together as long as
  no message takes them apart, and that the proofs held are
  those that `check_values` asks for.

  Main declarations:
    * `Parties` and `parties`
    * `steady`
    * `PartyOk`
    * `PartyOk.setLoop`
-/

------------------------------------------------------------
-- Parties among Any Others
------------------------------------------------------------

namespace Jumbo

namespace SpeedingMVBA

open Crypto (Bytes)
open Protocol
open Struct

/- The parties that run the code, and what they have sent. -/
structure Parties (n : Nat) where
  party : Fin n → MVBA n
  sent : List (Packet n)

/-
  A step of a party. Any message may be handed to it, from
  Byzantine parties as well; `relay` hands it one that a party
  has sent.
-/
inductive PartiesAction (n : Nat) where
| act (id : Fin n) (a : PartyAction n)
| relay (id : Fin n) (i : Nat)

variable {n : Nat}

namespace Parties

/- Nobody has started. -/
def new (cfg : Config n) : Parties n where
  party := MVBA.new cfg
  sent := []

/- What a step changes and sends. -/
def apply (s : Parties n) (id : Fin n) (e : Effect n) :
    Parties n where
  party := Function.update s.party id e.mvba
  sent := s.sent ++ e.sent

/- The party that steps, and how. -/
def actor (s : Parties n) :
    PartiesAction n → Option (Fin n × PartyAction n)
| .act id a => some (id, a)
| .relay id i =>
    s.sent[i]?.map fun packet => (id, .receive packet.msg)

/- A step of a party, or of one that may send anything. -/
def exec (cfg : Config n) (s : Parties n)
    (a : PartiesAction n) : Option (Parties n) :=
  (s.actor a).bind fun (id, a) =>
    (step cfg id (s.party id) a).map (s.apply id)

end Parties

/- All parties as a machine. -/
def parties (cfg : Config n) :
    Machine (Parties n) (PartiesAction n) where
  init := Parties.new cfg
  exec := Parties.exec cfg

end SpeedingMVBA

end Jumbo

------------------------------------------------------------
-- The Condition
------------------------------------------------------------

namespace Jumbo

namespace SpeedingMVBA

open Crypto (Bytes)
open Struct

variable {n : Nat}

/- The votes rely on the combined signature for `c`. -/
def Finish.relies (c : Fin n) : Finish n → Bool
| .prev elected yesFlag _ _ =>
    decide (elected = c) && yesFlag
| .vote elected yes _ =>
    decide (elected = c) && !yes.isEmpty
| _ => false

/- A combined signature for `c` is held for loop `l`. -/
def MVBA.holds (m : MVBA n) (l : Nat) (c : Fin n) : Bool :=
  decide ((m.loops l).sigmas c ≠ ⟨[], []⟩) ||
    decide (.sigma l c ∈ m.oldProofs) ||
      (m.loops l).finish.relies c

/- The values have the hash of the input stored for `c`. -/
def LoopInfo.sameInput
    (cfg : Config n) (li : LoopInfo n) (c : Fin n)
    (values : Bytes) : Bool :=
  decide (cfg.sha values = cfg.sha (li.inputs c))

/-
  The coin of the loop has been stored by `handle_share`, and
  `handle_halt` has not stored another one in its place.
-/
def MVBA.coinStored
    (cfg : Config n) (m : MVBA n) (l : Nat) : Bool :=
  !(m.loops l).storesCoin &&
    (m.mvbaDone || decide (m.halt = .waits) ||
      decide (m.oldCoins[l]? = some (cfg.coin l)))

/-
  What a message must not do: replace the own input, or the
  input that a combined signature is held for, by one with
  another hash; bring a combined signature for another hash
  than the one of the input stored; bring a signature that a
  batch cannot be cut at. Votes are read after the coin of
  the loop has been stored, and not while `handle_halt` has
  another coin in its place and the round goes on.
-/
def steadyMsg
    (cfg : Config n) (id : Fin n) (m : MVBA n)
    (msg : Msg) : Bool :=
  let l := msg.rawMsg.loop
  let li := m.loops l
  let values := msg.rawMsg.values
  match msg.rawMsg.type with
  | .pbc1 =>
      (index n msg.rawMsg.id).all fun leader =>
        !m.holds l leader || li.sameInput cfg leader values
  | .pbc2 => msg.sign.all (exact cfg)
  | .pbc3 =>
      (index n msg.rawMsg.id).all fun leader =>
        decide (values = cfg.sha (li.inputs leader))
  | .pi =>
      (index n msg.rawMsg.id).all fun leader =>
        (decide (leader ≠ id) && !m.holds l leader) ||
          li.sameInput cfg leader values
  | .prevYes =>
      match li.finish with
      | .prev coin false _ _ =>
          decide (coin ≠ id) || li.sameInput cfg coin values
      | _ => true
  | .voteYes =>
      m.coinStored cfg l &&
        match li.finish with
        | .vote coin _ _ =>
            (decide (coin ≠ id) &&
                decide ((li.inputs coin).length = 0)) ||
              li.sameInput cfg coin values
        | _ => true
  | .voteNo => m.coinStored cfg l && msg.sign.all (exact cfg)
  | _ => true

/- Every message that is read is steady. -/
def steady
    (cfg : Config n) (s : Parties n)
    (a : PartiesAction n) : Bool :=
  (s.actor a).all fun (id, a) =>
    match a with
    | .receive msg => steadyMsg cfg id (s.party id) msg
    | _ => true

end SpeedingMVBA

end Jumbo

------------------------------------------------------------
-- The Invariant
------------------------------------------------------------

namespace Jumbo

namespace SpeedingMVBA

open Crypto (Bytes)
open Struct

variable {n : Nat}

/- The combined signature for `c` is for the input stored. -/
def LoopInfo.Bound
    (cfg : Config n) (l : Nat) (li : LoopInfo n) (c : Fin n) :
    Prop :=
  Certified cfg l c (cfg.sha (li.inputs c)) (li.sigmas c)

/- The votes are for the coin and are bound to what is held. -/
def FinishOk
    (cfg : Config n) (l : Nat) (li : LoopInfo n) :
    Finish n → Prop
| .prev coin yesFlag _ _ =>
    coin = cfg.coin l ∧ li.handlesShare = false ∧
      (yesFlag = true → li.Bound cfg l coin)
| .vote coin yes no =>
    coin = cfg.coin l ∧ li.handlesShare = false ∧
      (yes ≠ [] → li.Bound cfg l coin) ∧
        ∀ sign ∈ no, Usable cfg (cfg.tagged l .voteno) sign
| _ => True

/- The invariant of a loop. -/
structure LoopOk
    (cfg : Config n) (id : Fin n) (l : Nat)
    (li : LoopInfo n) : Prop where
  sigmas :
    ∀ c, li.sigmas c = ⟨[], []⟩ ∨ li.Bound cfg l c
  mine :
    ∀ hash signs, li.mine = .wait2 hash signs →
      hash = cfg.sha (li.inputs id) ∧
        ∀ sign ∈ signs,
          Usable cfg
            (cfg.marshal (cfg.rawMsg .pbc2 id hash l)) sign
  pbc : li.pbc id = .done
  coin :
    ∀ c, li.coinReady = some c →
      c = cfg.coin l ∧ li.handlesShare = false
  share : li.handlesShare = true → li.storesCoin = false
  finish : FinishOk cfg l li li.finish

/- Proofs held now for an input with this hash. -/
inductive CarriesNow
    (cfg : Config n) (m : MVBA n) (hash : Bytes) :
    Nat → List (OldProof n) → Prop
| start : CarriesNow cfg m hash 0 []
| sigma (l : Nat)
    (hCert :
      Certified cfg l (cfg.coin l) hash
        ((m.loops l).sigmas (cfg.coin l))) :
    CarriesNow cfg m hash (l + 1) [.sigma l (cfg.coin l)]
| no (l : Nat) (proofs : List (OldProof n))
    (batch : BatchSignature)
    (hProofs : CarriesNow cfg m hash l proofs)
    (hNo :
      verifySigns cfg (cfg.tagged l .voteno) batch =
        some true) :
    CarriesNow cfg m hash (l + 1) (proofs ++ [.no batch])

/- The input of the loop that the party is in, or next in. -/
def MVBA.input (m : MVBA n) (id : Fin n) : Bytes :=
  if m.loop < m.started then (m.loops m.loop).inputs id
  else (m.loops (m.started - 1)).lastinput

/- The loop that the party is in has ended for good. -/
def MVBA.ended (m : MVBA n) : Prop :=
  m.loop < m.started ∧ (m.loops m.loop).finish = .done

/-
  The invariant of a party. What it has stored of coins is
  part of it where `strict` is asked for.
-/
structure PartyOk
    (strict : Prop) (cfg : Config n) (id : Fin n)
    (m : MVBA n) : Prop where
  loops : ∀ l < m.started, LoopOk cfg id l (m.loops l)
  ahead : m.loop ≤ m.started ∧ m.started ≤ m.loop + 1
  left :
    ∀ l < m.loop, (m.loops l).finish = .next ∧
      (m.loops l).handlesShare = false ∧
        (strict → (m.loops l).storesCoin = false)
  here :
    m.loop < m.started → (m.loops m.loop).finish ≠ .next
  coins :
    strict →
      ∀ l < m.loop, m.oldCoins[l]? = some (cfg.coin l)
  stored :
    strict →
      ∀ l < m.started, (m.loops l).handlesShare = false →
        (m.loops l).storesCoin = false →
          l < m.oldCoins.length
  honest :
    strict → m.mvbaDone = false → m.halt = .waits →
      ∀ (i : Nat) c, m.oldCoins[i]? = some c → c = cfg.coin i
  halting :
    ∀ msg, m.halt = .stored msg → msg.rawMsg.type = .halt
  tied :
    ¬ m.ended → ∀ l c, .sigma l c ∈ m.oldProofs →
      l < m.loop ∧
        cfg.sha ((m.loops l).inputs c) =
          cfg.sha (m.input id)
  carries :
    ¬ m.ended →
      CarriesNow cfg m (cfg.sha (m.input id)) m.loop
        m.oldProofs

/- An input of a later loop carries its proofs. -/
def SentOk (cfg : Config n) (packet : Packet n) : Prop :=
  packet.msg.rawMsg.type = .pbc1 →
    packet.msg.rawMsg.loop = 0 ∨
      Carries cfg (cfg.sha packet.msg.rawMsg.values)
        packet.msg.rawMsg.loop packet.msg.oldProof

end SpeedingMVBA

end Jumbo

------------------------------------------------------------
-- Changes of One Loop
------------------------------------------------------------

namespace Jumbo

namespace SpeedingMVBA

open Crypto (Bytes)
open Struct

variable {n : Nat}

section Change

variable {strict : Prop}
variable {cfg : Config n} {id : Fin n} {m m' : MVBA n}
variable {l : Nat} {li li' : LoopInfo n} {hash : Bytes}

/- What is held is what is sent. -/
theorem CarriesNow.carries
    {proofs : List (OldProof n)}
    (hCarries : CarriesNow cfg m hash l proofs) :
    Carries cfg hash l (proofs.map m.proof) := by
  induction hCarries with
  | start => exact .start
  | sigma l hCert => exact .coin l _ hCert
  | no l proofs batch _ hNo ih =>
      rw [List.map_append]
      exact .no l _ batch ih hNo

/- More that is held keeps the proofs. -/
theorem CarriesNow.mono
    {proofs : List (OldProof n)}
    (hCarries : CarriesNow cfg m hash l proofs)
    (hSigma :
      ∀ l c, .sigma l c ∈ proofs →
        Certified cfg l c hash ((m.loops l).sigmas c) →
          Certified cfg l c hash ((m'.loops l).sigmas c)) :
    CarriesNow cfg m' hash l proofs := by
  induction hCarries with
  | start => exact .start
  | sigma l hCert =>
      exact .sigma l (hSigma l _ (List.mem_singleton_self _)
        hCert)
  | no l proofs batch _ hNo ih =>
      exact
        .no l proofs batch
          (ih fun l c hMem =>
            hSigma l c (List.mem_append_left _ hMem))
          hNo

/- More that is held keeps the votes in order. -/
theorem FinishOk.mono
    {finish : Finish n}
    (hFinish : FinishOk cfg l li finish)
    (hHandles :
      li.handlesShare = false → li'.handlesShare = false)
    (hBound :
      ∀ c, finish.relies c = true → li.Bound cfg l c →
        li'.Bound cfg l c) :
    FinishOk cfg l li' finish := by
  cases finish with
  | coin | next | done => trivial
  | prev coin yesFlag no count =>
      rcases hFinish with ⟨hCoin, hShare, hYes⟩
      refine ⟨hCoin, hHandles hShare, fun hFlag => ?_⟩
      exact
        hBound coin (by simp [Finish.relies, hFlag])
          (hYes hFlag)
  | vote coin yes no =>
      rcases hFinish with ⟨hCoin, hShare, hYes, hNo⟩
      refine ⟨hCoin, hHandles hShare, fun hSome => ?_, hNo⟩
      exact
        hBound coin (by simp [Finish.relies, hSome])
          (hYes hSome)

/- A change of one loop, as the other fields see it. -/
structure Stays
    (strict : Prop) (cfg : Config n) (id : Fin n)
    (m : MVBA n) (l : Nat) (li' : LoopInfo n) : Prop where
  lastinput : li'.lastinput = (m.loops l).lastinput
  next : li'.finish = .next ↔ (m.loops l).finish = .next
  done :
    (m.loops l).finish = .done → li'.finish = .done
  input :
    cfg.sha (li'.inputs id) =
      cfg.sha ((m.loops l).inputs id)
  share :
    l < m.loop →
      li'.handlesShare = false ∧
        (strict → li'.storesCoin = false)
  stored :
    strict → li'.handlesShare = false →
      li'.storesCoin = false → l < m.oldCoins.length
  tied :
    ∀ c, .sigma l c ∈ m.oldProofs →
      cfg.sha (li'.inputs c) =
          cfg.sha ((m.loops l).inputs c) ∧
        ((m.loops l).Bound cfg l c → li'.Bound cfg l c)

theorem setLoop_same : (m.setLoop l li').loops l = li' := by
  simp [MVBA.setLoop]

theorem setLoop_other
    {k : Nat} (hNe : k ≠ l) :
    (m.setLoop l li').loops k = m.loops k := by
  simp [MVBA.setLoop, hNe]

/- The hash of the input stays. -/
theorem Stays.input_eq
    (hStays : Stays strict cfg id m l li') :
    cfg.sha ((m.setLoop l li').input id) =
      cfg.sha (m.input id) := by
  unfold MVBA.input
  change cfg.sha (if m.loop < m.started then _ else _) = _
  by_cases hLt : m.loop < m.started
  · rw [if_pos hLt, if_pos hLt]
    by_cases hEq : m.loop = l
    · subst hEq
      rw [show (m.setLoop m.loop li').loop = m.loop from rfl,
        setLoop_same, hStays.input]
    · rw [show (m.setLoop l li').loop = m.loop from rfl,
        setLoop_other hEq]
  · rw [if_neg hLt, if_neg hLt]
    by_cases hEq : m.started - 1 = l
    · subst hEq
      rw [show (m.setLoop (m.started - 1) li').started =
          m.started from rfl,
        setLoop_same, hStays.lastinput]
    · rw [show (m.setLoop l li').started = m.started from
          rfl,
        setLoop_other hEq]

/- A change of one loop keeps the others in order. -/
theorem PartyOk.setLoop
    (hOk : PartyOk strict cfg id m) (hLt : l < m.started)
    (hLoop : LoopOk cfg id l li')
    (hStays : Stays strict cfg id m l li') :
    PartyOk strict cfg id (m.setLoop l li') := by
  have hEnded : m.ended → (m.setLoop l li').ended := by
    rintro ⟨hHere, hDone⟩
    refine ⟨hHere, ?_⟩
    change ((m.setLoop l li').loops m.loop).finish = .done
    by_cases hEq : m.loop = l
    · subst hEq
      rw [setLoop_same]
      exact hStays.done hDone
    · rw [setLoop_other hEq]
      exact hDone
  have hTied :
      ¬ m.ended → ∀ k c, .sigma k c ∈ m.oldProofs →
        k < m.loop ∧
          cfg.sha (((m.setLoop l li').loops k).inputs c) =
            cfg.sha ((m.setLoop l li').input id) := by
    intro hNot k c hMem
    rcases hOk.tied hNot k c hMem with ⟨hBefore, hSame⟩
    refine ⟨hBefore, ?_⟩
    rw [hStays.input_eq, ← hSame]
    by_cases hEq : k = l
    · subst hEq
      rw [setLoop_same]
      exact (hStays.tied c hMem).1
    · rw [setLoop_other hEq]
  refine
    { loops := ?_
      ahead := hOk.ahead
      left := ?_
      here := ?_
      coins := hOk.coins
      stored := ?_
      honest := hOk.honest
      halting := hOk.halting
      tied := fun hNot => hTied fun h => hNot (hEnded h)
      carries := ?_ }
  · intro k hk
    by_cases hEq : k = l
    · subst hEq
      rw [setLoop_same]
      exact hLoop
    · rw [setLoop_other hEq]
      exact hOk.loops k hk
  · intro k hk
    by_cases hEq : k = l
    · subst hEq
      rw [setLoop_same]
      exact
        ⟨hStays.next.mpr (hOk.left k hk).1, hStays.share hk⟩
    · rw [setLoop_other hEq]
      exact hOk.left k hk
  · intro hHere
    change ((m.setLoop l li').loops m.loop).finish ≠ .next
    by_cases hEq : m.loop = l
    · subst hEq
      rw [setLoop_same]
      exact fun h => hOk.here hHere (hStays.next.mp h)
    · rw [setLoop_other hEq]
      exact hOk.here hHere
  · intro hStrict k hk
    by_cases hEq : k = l
    · subst hEq
      rw [setLoop_same]
      exact hStays.stored hStrict
    · rw [setLoop_other hEq]
      exact hOk.stored hStrict k hk
  · intro hNot
    have hBefore : ¬ m.ended := fun h => hNot (hEnded h)
    rw [hStays.input_eq]
    refine (hOk.carries hBefore).mono ?_
    intro k c hMem hCert
    by_cases hEq : k = l
    · subst hEq
      rw [setLoop_same]
      rcases hStays.tied c hMem with ⟨hSame, hBound⟩
      have hHash := (hOk.tied hBefore k c hMem).2
      rw [← hHash] at hCert ⊢
      rw [← hSame]
      exact hBound hCert
    · rw [setLoop_other hEq]
      exact hCert

end Change

end SpeedingMVBA

end Jumbo
