import Jumbo.MultiShot.Ledgers
import Jumbo.SpeedingMVBA.Checked

/-
  Rounds of the speeding MVBA.

  Any party may crash, in one round or in all of them, and
  messages are delivered in any order or lost.

  Main declarations:
    * `Setting.config`
    * `speeding` and `speeding_sound`
    * `rounds_agree`
    * `rounds_checked`
    * `speeding_ledgers_agree`
-/

------------------------------------------------------------
-- The Rounds
------------------------------------------------------------

namespace Jumbo

namespace MultiShot

open Crypto (Bytes)
open Jumbo.Ordering (BroadcastType Order)
open Protocol
open SpeedingMVBA (Config Net NetAction network)
open SpeedingMVBA.Agreement
open Struct

/- What all rounds have in common. -/
structure Setting (n : Nat) (type : BroadcastType) where
  base : Config n
  -- `check_input`, given the last commit
  check : Bytes → Bytes → Bool
  decode : Bytes → Option (Ordering.Input type)

variable {n K : Nat} {type : BroadcastType}

/- `New_mvba` of a round, with the last commit. -/
def Setting.config
    (st : Setting n type) (round : Nat) (lastCommit : Bytes) :
    Config n :=
  { st.base with
    round := round
    mvbaRound := 0
    rbc := decide (type = .rbc ∨ type = .wrbc)
    checkInput := st.check lastCommit }

/- Who makes a step; the network carries messages. -/
def actor : NetAction n → Option (Fin n)
| .act id _ => some id
| .receive id _ => some id
| _ => none

/- The first halt, once the round is done for the party. -/
def halted (net : Net n) (id : Fin n) : Option Bytes :=
  if (net.party id).mvbaDone then
    (net.party id).outputs.head?.map (·.rawMsg.values)
  else none

/- What `handle_rcvCH_normal` starts. -/
def speeding (st : Setting n type) :
    Shots (Fin n) (Net n) (NetAction n) Bytes where
  start := []
  init := fun round => Net.new (st.config round [])
  exec := fun round lastCommit =>
    Net.exec (st.config round lastCommit)
  actor := actor
  output := fun _ => halted

/- Values that may be put out in a round. -/
def Decided
    (st : Setting n type) (round : Nat) (net : Net n)
    (values : Bytes) : Prop :=
  ∃ msg : SpeedingMVBA.Msg, msg.rawMsg.values = values ∧
    HaltOk (st.config round []) net.log msg

section Shot

variable {st : Setting n type} {round : Nat}
variable {lastCommit values : Bytes} {net net' : Net n}

/- The last commit is for the check of inputs only. -/
theorem speeding_shot :
    (speeding st).shot round lastCommit =
      network (st.config round lastCommit) :=
  rfl

/- What a party halts with is decided in some loop. -/
theorem decided_of_halted
    (hN : 2 ≤ n)
    (hReach :
      (network (st.config round lastCommit)).Reachable net)
    {id : Fin n} (hHalted : halted net id = some values) :
    Decided st round net values := by
  rcases Option.ite_none_right_eq_some.mp hHalted with
    ⟨_, hHead⟩
  rcases Option.map_eq_some_iff.mp hHead with
    ⟨msg, hMsg, rfl⟩
  exact
    ⟨msg, rfl,
      ((reachable_netOk hN hReach).party id).outputs msg
        (List.mem_of_mem_head? hMsg)⟩

/- More messages keep a decision. -/
theorem Decided.mono
    (hDecided : Decided st round net values)
    (hSub : net.log.sent ⊆ net'.log.sent) :
    Decided st round net' values := by
  rcases hDecided with ⟨msg, hValues, hHalt⟩
  exact ⟨msg, hValues, hHalt.mono hSub⟩

/- Rounds agree on a checked value. -/
theorem speeding_sound
    (hN : 2 ≤ n) (st : Setting n type) :
    (speeding st).Sound (Decided st)
      (fun _ lastCommit values =>
        st.check lastCommit values = true) where
  network := by
    intro round lastCommit other net a hActor
    cases a with
    | act id a => cases hActor
    | receive id i => cases hActor
    | transmit id i => rfl
    | drop id i => rfl
    | crash id => rfl
  output := by
    intro round lastCommit net id _ hReach hHalted
    rw [speeding_shot] at hReach
    exact decided_of_halted hN hReach hHalted
  stable := fun _ hExec hDecided =>
    hDecided.mono (sent_exec hExec)
  agree := by
    rintro round lastCommit net _ _ hReach ⟨msg, rfl, hHalt⟩
      ⟨msg', rfl, hHalt'⟩
    rw [speeding_shot] at hReach
    have hNet := reachable_netOk hN hReach
    exact hNet.log.sound.decided_agree hHalt hHalt'
  valid := by
    rintro round lastCommit net _ hReach ⟨msg, rfl, hHalt⟩
    rw [speeding_shot] at hReach
    exact
      (reachable_netChecked hN hReach).halt
        (reachable_netOk hN hReach) hHalt

end Shot

------------------------------------------------------------
-- Agreement
------------------------------------------------------------

/- `handle_rcvCH_normal` of all orders. -/
def handleRcvCHNormal (K : Nat) (st : Setting n type) :
    Machine (System n K type (Net n))
      (SystemAction n (NetAction n)) :=
  multiShot K (speeding st) st.decode

section Runs

variable {st : Setting n type} {s : System n K type (Net n)}

/-
  Agreement over the rounds: of what two orders have taken as
  outputs, one is the beginning of the other.
-/
theorem rounds_agree
    (hN : 2 ≤ n) (hReach : (handleRcvCHNormal K st).Reachable s)
    (p q : Fin n) :
    (s.party p).commits <+: (s.party q).commits ∨
      (s.party q).commits <+: (s.party p).commits :=
  commits_comparable (speeding_sound hN st) hReach p q

/- Every output has passed the check against the last one. -/
theorem rounds_checked
    (hN : 2 ≤ n) (hReach : (handleRcvCHNormal K st).Reachable s)
    {p : Fin n} {round : Nat} {lastCommit values : Bytes}
    (hLast :
      ([] :: (s.party p).commits)[round]? = some lastCommit)
    (hAt : (s.party p).commits[round]? = some values) :
    st.check lastCommit values = true :=
  (speeding_sound hN st).commits_valid
    (reachable_rounds hReach) hLast hAt

/-
  Consistency of the whole system: the ledgers of two parties
  agree as far as the shorter one goes, whatever rounds their
  orders are in and whoever has crashed.
-/
theorem speeding_ledgers_agree
    {rawBC : Fin n → Fin K → Int → RawBC}
    (hN : 2 ≤ n)
    (hReach :
      (handleRcvCHNormal K st).ReachableBy
        (System.orderly rawBC) s)
    (p q : Fin n) :
    (∀ i j, (s.party p).order.records i j <+:
        (s.party q).order.records i j) ∨
      ∀ i j, (s.party q).order.records i j <+:
        (s.party p).order.records i j :=
  ledgers_comparable (speeding_sound hN st) hReach p q

end Runs

end MultiShot

end Jumbo

------------------------------------------------------------
-- One Round of Two Parties
------------------------------------------------------------

namespace Jumbo

namespace MultiShot

open Crypto (Bytes)
open Jumbo.Ordering
open Protocol
open SpeedingMVBA (Net NetAction network)
open SpeedingMVBA.Agreement
open Struct

/- Inputs are heights, which change from round to round. -/
def plainSetting : Setting 4 .rbc where
  base := SpeedingMVBA.paddedConfig
  check := fun lastCommit values =>
    decide (values.length = 4 ∧ values ≠ lastCommit)
  decode := plainDecode

/- The votes of `splitVotes`, on these inputs. -/
def plainVotes : List (NetAction 4) :=
  splitVotes.map fun a =>
    match a with
    | .act id (.launch _) => .act id (.launch (plainInput id))
    | a => a

/- One round of the speeding agreement. -/
def plainNet : Net 4 :=
  (network (plainSetting.config 0 [])).drive (fun _ _ => true)
    (network (plainSetting.config 0 [])).init plainVotes

/- Two parties halt and cut. -/
def plainSystem : System 4 1 .rbc (Net 4) :=
  (handleRcvCHNormal 1 plainSetting).drive plainSystemOrderly
    (System.first (speeding plainSetting) plainNet)
    (earlyCut 1 ++ lateCut 0)

/- Where two parties have run a round. -/
theorem plainSystem_reachable :
    (handleRcvCHNormal 1 plainSetting).ReachableBy
      (System.orderly plainRawBC) plainSystem := by
  have hRound :
      (network (plainSetting.config 0 [])).Reachable plainNet :=
    Machine.reachable_drive _ plainVotes
  have hFirst :
      (handleRcvCHNormal 1 plainSetting).ReachableBy
        (fun s a => plainSystemOrderly s a = true)
        (System.first (speeding plainSetting) plainNet) :=
    reachable_first 1 (speeding plainSetting)
      plainSetting.decode (fun _ _ => rfl) hRound
  exact
    (hFirst.drive (earlyCut 1 ++ lateCut 0)).mono
      fun _ _ hOk => orderly_of_plain hOk

/- Both have committed and cut. -/
theorem plainSystem_cut :
    (plainSystem.party 0).commits = [[1, 1, 1, 0]] ∧
      (plainSystem.party 1).commits.length = 1 ∧
        ((plainSystem.party 0).order.ledger 0 0).length = 1 ∧
          ((plainSystem.party 1).order.ledger 0 0).length =
            1 := by
  decide +kernel

/- They have committed the same. -/
theorem rounds_agree_two :
    (plainSystem.party 1).commits =
      (plainSystem.party 0).commits := by
  have hLength :
      (plainSystem.party 1).commits.length =
        (plainSystem.party 0).commits.length := by
    rw [plainSystem_cut.1, plainSystem_cut.2.1]
    rfl
  rcases rounds_agree (by decide)
      plainSystem_reachable.reachable 1 0 with
    hLe | hLe
  · exact hLe.eq_of_length hLength
  · exact (hLe.eq_of_length hLength.symm).symm

/- What they have committed is valid. -/
theorem rounds_checked_two :
    plainSetting.check [] [1, 1, 1, 0] = true := by
  have hAt :
      (plainSystem.party 0).commits[0]? =
        some [1, 1, 1, 0] := by
    rw [plainSystem_cut.1]
    rfl
  exact
    rounds_checked (by decide)
      plainSystem_reachable.reachable rfl hAt

/- And their ledgers are the same. -/
theorem speeding_ledgers_agree_two :
    (plainSystem.party 0).order.records 0 0 =
      (plainSystem.party 1).order.records 0 0 := by
  have hLength :
      ((plainSystem.party 0).order.records 0 0).length =
        ((plainSystem.party 1).order.records 0 0).length := by
    unfold Order.records
    rw [List.length_map, List.length_map,
      plainSystem_cut.2.2.1, plainSystem_cut.2.2.2]
  rcases speeding_ledgers_agree (by decide)
      plainSystem_reachable 0 1 with hLe | hLe
  · exact (hLe 0 0).eq_of_length hLength
  · exact ((hLe 0 0).eq_of_length hLength.symm).symm

end MultiShot

end Jumbo
