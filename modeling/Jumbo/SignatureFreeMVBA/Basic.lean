import Jumbo.BinaryAgreement.Network
import Jumbo.ReliableBroadcast.Network

/-
  One round of the signature-free MVBA: `n` broadcasts with
  finish, successive binary agreements on whether the
  broadcast of an elected party has been received, and the
  loop of `Launch` around them.

  A party is described by the variables of `Launch` and of
  the goroutines it starts; the broadcasts and agreements are
  the systems of their own packages, one for each broadcaster
  and one for each agreement round. `MVBA_done` only stops
  goroutines, which a run can do by never scheduling them
  again.

  Main declarations:
    * `Config.commonCoin`
    * `Party`
    * `State`
    * `Action`
    * `exec`
    * `machine`
-/

------------------------------------------------------------
-- Parameters
------------------------------------------------------------

namespace Jumbo

namespace SignatureFreeMVBA

open ReliableBroadcast (Bytes)

/- The parameters of `New_mvba` of all parties. -/
structure Config (n : Nat) where
  pos : 0 < n
  roundmvba : Nat
  input : Fin n → Bytes
  byzfairness : Nat
  sha256 : List UInt8 → List UInt8
  unmarshal : Bytes → Option (List Int)

namespace Config

variable {n : Nat}

/-
  `common_coin() - 1` in agreement round `roundba`; the field
  `Loop` stays zero.
-/
def commonCoin (cfg : Config n) (roundba : Nat) : Fin n :=
  if cfg.byzfairness ≠ 0 then ⟨0, cfg.pos⟩
  else
    let hash := cfg.sha256
      (BinaryAgreement.intToBytes
        (cfg.roundmvba * 100 + roundba * 10))
    ⟨(hash.headD 0).toNat % n, Nat.mod_lt _ cfg.pos⟩

/- The broadcast of one party. -/
def rbc (cfg : Config n) (lid : Fin n) :
    ReliableBroadcast.Config n where
  lid := lid
  round := cfg.roundmvba
  input := cfg.input lid
  unmarshal := cfg.unmarshal

/- The agreement of one round. -/
def ba (cfg : Config n) (roundba : Nat) :
    BinaryAgreement.Config where
  sha256 := cfg.sha256
  mvbaround := cfg.roundmvba
  baround := roundba

end Config

end SignatureFreeMVBA

end Jumbo

------------------------------------------------------------
-- States
------------------------------------------------------------

namespace Jumbo

namespace SignatureFreeMVBA

open ReliableBroadcast (Bytes)

/- Where the main goroutine `Launch` stands. -/
inductive Main where
| idle
| finish
| elect
| agree
| wait
| done
deriving DecidableEq, Repr

/- The local state of one party. -/
structure Party (n : Nat) where
  roundba : Nat
  rbcouts : Fin n → Bytes
  rbcready : Fin n → Nat
  -- outputs taken from rbcout1 and rbcout2
  taken1 : Fin n → Nat
  taken2 : Fin n → Nat
  finishcount : Nat
  iscoinready : Bool
  coinready : Nat
  main : Main
  -- the variable `input` and the goroutine of each round
  input : Nat → Bool
  waiting : Nat → Bool
  output : Option Bytes

/- A party that has not started. -/
def Party.new (n : Nat) : Party n where
  roundba := 0
  rbcouts := fun _ => []
  rbcready := fun _ => 0
  taken1 := fun _ => 0
  taken2 := fun _ => 0
  finishcount := 0
  iscoinready := false
  coinready := 0
  main := .idle
  input := fun _ => false
  waiting := fun _ => false
  output := none

/- The parties with all broadcasts and agreements. -/
structure State (n : Nat) where
  party : Fin n → Party n
  rbc : Fin n → ReliableBroadcast.State n
  ba : Nat → BinaryAgreement.State n
  crashed : Fin n → Bool

variable {n : Nat}

namespace State

/- Nobody has started. -/
def init : State n where
  party := fun _ => Party.new n
  rbc := fun _ => ReliableBroadcast.State.init
  ba := fun _ => BinaryAgreement.State.init
  crashed := fun _ => false

/- What one party has changed. -/
def setParty (s : State n) (p : Fin n) (party : Party n) :
    State n :=
  { s with party := Function.update s.party p party }

/- A process that has launched and not crashed. -/
def running (s : State n) (p : Fin n) : Bool :=
  !s.crashed p && decide ((s.party p).main ≠ .idle)

end State

/- What `p` has put on `rbcout1` of one broadcast. -/
def rbcout1
    (lid : Fin n) (s : ReliableBroadcast.State n)
    (p : Fin n) : List Bytes :=
  if p = lid then s.leader.output1
  else (s.follower p).output1

/- What a broadcast puts out second. -/
def rbcout2
    (lid : Fin n) (s : ReliableBroadcast.State n)
    (p : Fin n) : List Bytes :=
  if p = lid then s.leader.output2
  else (s.follower p).output2

end SignatureFreeMVBA

end Jumbo

------------------------------------------------------------
-- Steps of One Party
------------------------------------------------------------

namespace Jumbo

namespace SignatureFreeMVBA

open ReliableBroadcast (Bytes)

variable {n : Nat}

namespace Party

/- An output of the broadcast of `lid` is taken. -/
def store
    (party : Party n) (lid : Fin n) (value : Bytes) :
    Party n :=
  let party :=
    { party with
      rbcouts := Function.update party.rbcouts lid value
      rbcready :=
        Function.update party.rbcready lid
          (party.rbcready lid + 2) }
  if party.finishcount = (n - 1) / 3 * 2 + 1 ∧
      party.iscoinready = false then
    { party with
      coinready := party.coinready + 1
      iscoinready := true }
  else party

/- The party takes the next first output of a broadcast. -/
def take1
    (party : Party n) (lid : Fin n) (outputs : List Bytes) :
    Option (Party n) :=
  match outputs[party.taken1 lid]? with
  | some value =>
      some
        (({ party with
            taken1 :=
              Function.update party.taken1 lid
                (party.taken1 lid + 1) } : Party n).store
          lid value)
  | none => none

/- The party takes the next second output. -/
def take2
    (party : Party n) (lid : Fin n) (outputs : List Bytes) :
    Option (Party n) :=
  match outputs[party.taken2 lid]? with
  | some value =>
      some
        (({ party with
            taken2 :=
              Function.update party.taken2 lid
                (party.taken2 lid + 1)
            finishcount := party.finishcount + 1 } :
          Party n).store lid value)
  | none => none

/- The start of an iteration, up to the launch of its BA. -/
def elect (cfg : Config n) (party : Party n) : Party n :=
  let coin := cfg.commonCoin party.roundba
  let input := decide (party.rbcouts coin ≠ [])
  { party with
    input := Function.update party.input party.roundba input
    waiting :=
      Function.update party.waiting party.roundba !input
    main := .agree }

/- The goroutine that waits for the broadcast elected. -/
def second
    (cfg : Config n) (party : Party n) (roundba : Nat) :
    Option (Party n) :=
  let coin := cfg.commonCoin roundba
  if party.waiting roundba ∧ 0 < party.rbcready coin then
    some { party with
      rbcready :=
        Function.update party.rbcready coin
          (party.rbcready coin - 1)
      waiting := Function.update party.waiting roundba false
      input := Function.update party.input roundba true }
  else none

/- `outputCH <- rbcouts[coin-1]`. -/
def finish (cfg : Config n) (party : Party n) : Party n :=
  { party with
    output :=
      some (party.rbcouts (cfg.commonCoin party.roundba))
    main := .done }

/- The agreement of this round has given an output. -/
def agree
    (cfg : Config n) (party : Party n) (output : Bool) :
    Party n :=
  if output then
    if party.input party.roundba then party.finish cfg
    else { party with main := .wait }
  else
    { party with
      roundba := party.roundba + 1
      main := .elect }

/- The broadcast waited for has given an output. -/
def await (cfg : Config n) (party : Party n) :
    Option (Party n) :=
  let coin := cfg.commonCoin party.roundba
  if 0 < party.rbcready coin then
    some
      (({ party with
          rbcready :=
            Function.update party.rbcready coin
              (party.rbcready coin - 1) } : Party n).finish
        cfg)
  else none

end Party

end SignatureFreeMVBA

end Jumbo

------------------------------------------------------------
-- Steps of the System
------------------------------------------------------------

namespace Jumbo

namespace SignatureFreeMVBA

open Protocol

variable {n : Nat}

/- What can happen next. -/
inductive Action (n : Nat) where
| launch (p : Fin n)
| crash (p : Fin n)
| advance (p : Fin n) (heightsnow : List (List Int))
| rbc (lid : Fin n) (a : ReliableBroadcast.Action n)
| take1 (p lid : Fin n)
| take2 (p lid : Fin n)
| coinready (p : Fin n)
| elect (p : Fin n)
| second (p : Fin n) (roundba : Nat)
| ba (roundba : Nat) (a : BinaryAgreement.Action n)
| agree (p : Fin n)
| await (p : Fin n)

/- The party whose goroutine makes a broadcast step. -/
def rbcParty
    (lid : Fin n) :
    ReliableBroadcast.Action n → Option (Fin n)
| .receive p _ => some p
| .sendVal => some lid
| .sendEcho => some lid
| .sendReady p => some p
| .forward1 p => some p
| .forward2 p => some p
| _ => none

/- The party whose goroutine makes an agreement step. -/
def baParty :
    BinaryAgreement.Action n → Option (Fin n)
| .route p _ => some p
| .handle p _ => some p
| .go p _ => some p
| _ => none

namespace State

/- A panic in a broadcast ends the process. -/
def setRbc
    (s : State n) (lid p : Fin n)
    (rbc : ReliableBroadcast.State n) : State n :=
  { s with
    rbc := Function.update s.rbc lid rbc
    crashed :=
      Function.update s.crashed p
        (s.crashed p || rbc.panicked p) }

/- What one agreement has changed. -/
def setBa
    (s : State n) (roundba : Nat)
    (ba : BinaryAgreement.State n) : State n :=
  { s with ba := Function.update s.ba roundba ba }

end State

/-
  A step of a party, of a broadcast, of an agreement, or of
  the network between them.
-/
def exec
    (cfg : Config n) (s : State n) :
    Action n → Option (State n)
| .launch p =>
    if !s.crashed p && decide ((s.party p).main = .idle) then
      some (s.setParty p
        { s.party p with main := .finish })
    else none
| .crash p =>
    some { s with crashed := Function.update s.crashed p true }
| .advance p heightsnow =>
    some { s with
      rbc := fun lid =>
        { s.rbc lid with
          heightsnow :=
            Function.update (s.rbc lid).heightsnow p
              heightsnow } }
| .rbc lid a =>
    match rbcParty lid a with
    | some p =>
        if s.running p then
          (ReliableBroadcast.exec (cfg.rbc lid) ∅
            (s.rbc lid) a).map (s.setRbc lid p)
        else none
    | none => none
| .take1 p lid =>
    if s.running p then
      ((s.party p).take1 lid (rbcout1 lid (s.rbc lid) p)).map
        (s.setParty p)
    else none
| .take2 p lid =>
    if s.running p then
      ((s.party p).take2 lid (rbcout2 lid (s.rbc lid) p)).map
        (s.setParty p)
    else none
| .coinready p =>
    if s.running p ∧ (s.party p).main = .finish ∧
        0 < (s.party p).coinready then
      some
        { s.setParty p
            { s.party p with
              coinready := (s.party p).coinready - 1
              main := .elect } with
          rbc := fun lid =>
            { s.rbc lid with
              closeval :=
                Function.update (s.rbc lid).closeval p
                  true } }
    else none
| .elect p =>
    if s.running p ∧ (s.party p).main = .elect then
      let party := (s.party p).elect cfg
      let roundba := party.roundba
      (BinaryAgreement.exec (cfg.ba roundba) (s.ba roundba)
        (.launch p (party.input roundba))).map
        ((s.setParty p party).setBa roundba)
    else none
| .second p roundba =>
    if s.running p then
      match (s.party p).second cfg roundba with
      | some party =>
          (BinaryAgreement.exec (cfg.ba roundba)
            (s.ba roundba) (.second p)).map
            ((s.setParty p party).setBa roundba)
      | none => none
    else none
| .ba roundba a =>
    match baParty a with
    | some p =>
        -- also in a round that the party has left, as long as
        -- its goroutines have not seen the close
        if s.running p then
          (BinaryAgreement.exec (cfg.ba roundba)
            (s.ba roundba) a).map (s.setBa roundba)
        else none
    | none => none
| .agree p =>
    if s.running p ∧ (s.party p).main = .agree then
      (((s.ba (s.party p).roundba).party p).output).map
        fun output =>
          s.setParty p ((s.party p).agree cfg output)
    else none
| .await p =>
    if s.running p ∧ (s.party p).main = .wait then
      ((s.party p).await cfg).map (s.setParty p)
    else none

/- The agreement on values as a machine. -/
def machine (n : Nat) (cfg : Config n) :
    Machine (State n) (Action n) where
  init := State.init
  exec := exec cfg

end SignatureFreeMVBA

end Jumbo
