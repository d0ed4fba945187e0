import Jumbo.SpeedingMVBA.NextLoop
import Jumbo.SpeedingMVBA.Phases

/-
  What a loop waits for, and what it has sent.

  Every goroutine of a loop waits for messages of one kind
  and counts them. A step counts the message that it takes,
  and passes a place where something is sent only when it has
  sent it, unless the broadcasts of the loop or the round are
  over. Nothing here looks at what the messages say.

  Main declarations:
    * `Kind` and `kindOf`
    * `count`, `own` and `Counted`
    * `Due` and `Pays`
    * `Bounded`
    * `Moves`
-/

------------------------------------------------------------
-- Kinds of Messages
------------------------------------------------------------

namespace Jumbo

namespace SpeedingMVBA

namespace Agreement

open Crypto (Bytes)
open Struct

/-
  What a goroutine waits for. There is a goroutine for each
  leader, and prevotes and votes are read by one.
-/
inductive Kind (n : Nat) where
| pbc1 (leader : Fin n)
| pbc2
| pbc3 (leader : Fin n)
| pbc4
| pi
| share
| prev
| vote
deriving DecidableEq

variable {n : Nat}

/- The goroutine that a message is for. -/
def kindOf (n : Nat) (msg : Msg) : Option (Kind n) :=
  match msg.rawMsg.type with
  | .pbc1 => (index n msg.rawMsg.id).map .pbc1
  | .pbc2 => some .pbc2
  | .pbc3 => (index n msg.rawMsg.id).map .pbc3
  | .pbc4 => some .pbc4
  | .pi => some .pi
  | .share => some .share
  | .prevYes | .prevNo => some .prev
  | .voteYes | .voteNo => some .vote
  | .halt => none

/-
  How many messages of a kind have been counted, while they
  are still read.
-/
def count (kind : Kind n) (li : LoopInfo n) : Option Nat :=
  match kind with
  | .pbc1 c => if li.pbc c = .wait1 then some 0 else none
  | .pbc2 =>
      match li.mine with
      | .wait2 _ signs => some signs.length
      | _ => none
  | .pbc3 c =>
      match li.pbc c with
      | .wait1 => some 0
      | .send2 _ => some 0
      | .wait3 _ => some 0
      | _ => none
  | .pbc4 =>
      match li.mine with
      | .wait2 _ _ => some 0
      | .send3 _ _ => some 0
      | .wait4 _ signs => some signs.length
      | .done => none
  | .pi => if li.handlesPi then some li.piCount else none
  | .share =>
      if li.handlesShare then some li.shares.length else none
  | .prev =>
      match li.finish with
      | .coin => some 0
      | .prev _ _ _ prevCount => some prevCount
      | _ => none
  | .vote =>
      match li.finish with
      | .coin => some 0
      | .prev _ _ _ _ => some 0
      | .vote _ yes no => some (yes.length + no.length)
      | _ => none

/- Shares are counted as long as they are read. -/
theorem count_share
    {li : LoopInfo n} (hWaits : li.handlesShare = true) :
    count .share li = some li.shares.length := by
  unfold count
  exact if_pos hWaits

/- So are pis. -/
theorem count_pi
    {li : LoopInfo n} (hWaits : li.handlesPi = true) :
    count .pi li = some li.piCount := by
  unfold count
  exact if_pos hWaits

/- What the party has counted of its own. -/
def own (kind : Kind n) (li : LoopInfo n) : Nat :=
  match kind with
  | .pi =>
      if li.mine = .done ∧ li.pbcDone = false then 1 else 0
  | .share =>
      if li.sendsShare = false ∧ li.shareMine = none then 1
      else 0
  | .vote =>
      match li.finish with
      | .vote _ _ _ => 1
      | _ => 0
  | _ => 0

/- A step counts what it takes of a kind, and its own. -/
def CountedAt
    (li li' : LoopInfo n) (got : Option (Kind n))
    (kind : Kind n) : Prop :=
  ∀ k', count kind li' = some k' →
    ∃ k, count kind li = some k ∧
      k + (if got = some kind then 1 else 0) + own kind li' ≤
        k' + own kind li

/- A step counts what it takes, and its own. -/
def Counted
    (li li' : LoopInfo n) (got : Option (Kind n)) : Prop :=
  ∀ kind, CountedAt li li' got kind

/- The first answer to a leader has been tried. -/
def answered : PBC → Bool
| .wait1 => false
| .send2 _ => false
| _ => true

/-
  What the party `id` has sent to the party `q`, where its
  goroutines stand, unless the round is over.
-/
def Due
    (id q : Fin n) (kind : Kind n) (li : LoopInfo n) : Prop :=
  match kind with
  | .pbc1 _ => False
  | .pbc2 => li.pbcDone = false ∧ answered (li.pbc q) = true
  | .pbc3 c =>
      c = id ∧ li.pbcDone = false ∧ tried3 li.mine = true
  | .pbc4 => li.pbcDone = false ∧ li.pbc q = .done
  | .pi => li.pbcDone = false ∧ li.mine = .done
  | .share => li.sendsShare = false
  | .prev => 1 ≤ rank li.finish
  | .vote => 2 ≤ rank li.finish

/- A message of a kind in a loop, for the party `q`. -/
def Reaches
    (q : Fin n) (kind : Kind n) (l : Nat)
    (packet : Packet n) : Prop :=
  packet.dest q = true ∧ packet.msg.rawMsg.loop = l ∧
    kindOf n packet.msg = some kind

instance
    (q : Fin n) (kind : Kind n) (l : Nat)
    (packet : Packet n) :
    Decidable (Reaches q kind l packet) :=
  inferInstanceAs (Decidable (_ ∧ _ ∧ _))

/- What becomes due is sent. -/
def Pays
    (id : Fin n) (l : Nat) (li li' : LoopInfo n)
    (sent : List (Packet n)) : Prop :=
  ∀ q kind, q ≠ id → Due id q kind li' →
    Due id q kind li ∨
      ∃ packet ∈ sent, Reaches q kind l packet

/-
  The counts of a goroutine that still waits are too small,
  and whatever ends a wait is on its way.
-/
structure Bounded (li : LoopInfo n) : Prop where
  wait2 :
    ∀ hash signs, li.mine = .wait2 hash signs →
      signs.length < maxCount n
  wait4 :
    ∀ hash signs, li.mine = .wait4 hash signs →
      signs.length < maxCount n
  share :
    li.handlesShare = true → li.shares.length ≤ maxCount n
  prev :
    ∀ coin yesFlag no prevCount,
      li.finish = .prev coin yesFlag no prevCount →
        prevCount < maxCount n
  vote :
    ∀ coin yes no, li.finish = .vote coin yes no →
      yes.length + no.length ≤ maxCount n
  pi : li.handlesPi = false → maxCount n < li.piCount
  ready :
    li.sendsShare = true →
      maxCount n < li.piCount ∨ li.firstShare = false ∨
          li.pbcDone = true →
        li.shareReady ≠ []
  first :
    li.handlesShare = false ∨ li.shares ≠ [] →
      li.firstShare = false
  coin :
    li.handlesShare = false → li.finish = .coin →
      li.coinReady ≠ none
  elected : li.coinReady ≠ none → li.handlesShare = false
  finish : li.finish ≠ .coin → li.handlesShare = false

/-
  A step in the loop `l` that takes a message of the kind
  `got`, or none.
-/
structure Moves
    (id : Fin n) (m : MVBA n) (l : Nat)
    (got : Option (Kind n)) (e : Effect n) : Prop where
  loops : ∀ k, k ≠ l → e.mvba.loops k = m.loops k
  counted :
    m.mvbaDone = false →
      Counted (m.loops l) (e.mvba.loops l) got
  pays :
    e.mvba.mvbaDone = false →
      Pays id l (m.loops l) (e.mvba.loops l) e.sent
  bounded : Bounded (m.loops l) → Bounded (e.mvba.loops l)
  -- `handle_finish` returns for good when the round is over
  finished :
    e.mvba.mvbaDone = false →
      (e.mvba.loops l).finish = .done →
        (m.loops l).finish = .done

section Moves

variable {id : Fin n} {m : MVBA n} {l : Nat}
variable {li li' : LoopInfo n} {got : Option (Kind n)}
variable {e : Effect n} {sent : List (Packet n)}

/- A goroutine that is left as it is. -/
theorem countedAt_same
    {kind : Kind n} (hCount : count kind li' = count kind li)
    (hOwn : own kind li' ≤ own kind li)
    (hGot : got ≠ some kind) :
    CountedAt li li' got kind := by
  intro k' hSome
  refine ⟨k', hCount ▸ hSome, ?_⟩
  rw [if_neg hGot]
  omega

/- A goroutine that waits no more. -/
theorem countedAt_none
    {kind : Kind n} (hCount : count kind li' = none) :
    CountedAt li li' got kind := by
  intro k' hSome
  rw [hCount] at hSome
  cases hSome

/- A step that changes one loop. -/
theorem Moves.setLoop
    (hLoops : e.mvba.loops = (m.setLoop l li').loops)
    (hOver :
      e.mvba.mvbaDone = false → li'.finish = .done →
        (m.loops l).finish = .done)
    (hCounted :
      m.mvbaDone = false → Counted (m.loops l) li' got)
    (hPays :
      e.mvba.mvbaDone = false →
        Pays id l (m.loops l) li' e.sent)
    (hBounded : Bounded (m.loops l) → Bounded li') :
    Moves id m l got e := by
  have hSame : e.mvba.loops l = li' := by
    rw [hLoops, setLoop_same]
  refine ⟨fun k hNe => ?_, ?_, ?_, ?_, ?_⟩
  · rw [hLoops, setLoop_other hNe]
  · rw [hSame]
    exact hCounted
  · rw [hSame]
    exact hPays
  · rw [hSame]
    exact hBounded
  · rw [hSame]
    exact hOver

end Moves

end Agreement

end SpeedingMVBA

end Jumbo

------------------------------------------------------------
-- Broadcasts
------------------------------------------------------------

namespace Jumbo

namespace SpeedingMVBA

namespace Agreement

open Crypto (Bytes)
open Struct

variable {n : Nat}

section Broadcasts

variable {cfg : Config n} {id leader : Fin n} {m : MVBA n}
variable {l : Nat} {li : LoopInfo n} {msg : Msg}
variable {got : Option (Kind n)} {e : Effect n}
variable {sent : List (Packet n)}

/- The third message of a leader is still to come. -/
def awaits3 : PBC → Bool
| .wait1 => true
| .send2 _ => true
| .wait3 _ => true
| _ => false

theorem count_pbc3 (li : LoopInfo n) (c : Fin n) :
    count (.pbc3 c) li =
      if awaits3 (li.pbc c) then some 0 else none := by
  unfold count
  cases hPbc : li.pbc c <;> simp [awaits3, hPbc]

/- Another place in the goroutine for a leader. -/
theorem counted_setPbc
    {pbc : PBC} (hPast : pbc ≠ .wait1)
    (hGot :
      got = none ∨ got = some (.pbc1 leader) ∨
        got = some (.pbc3 leader))
    (hThird :
      awaits3 pbc = true →
        awaits3 (li.pbc leader) = true ∧
          got ≠ some (.pbc3 leader)) :
    Counted li
      { li with pbc := Function.update li.pbc leader pbc }
      got := by
  have hOther :
      ∀ kind : Kind n, kind ≠ .pbc1 leader →
        kind ≠ .pbc3 leader → got ≠ some kind := by
    rintro kind hFirst hLast rfl
    rcases hGot with hEq | hEq | hEq
    · cases hEq
    · exact hFirst (Option.some.inj hEq)
    · exact hLast (Option.some.inj hEq)
  intro kind
  cases kind with
  | pbc1 c =>
      by_cases hEq : c = leader
      · subst hEq
        exact countedAt_none (by simp [count, hPast])
      · refine
          countedAt_same ?_ (Nat.le_refl _)
            (hOther _ (by simp [hEq]) nofun)
        simp only [count, Function.update_of_ne hEq]
  | pbc3 c =>
      by_cases hEq : c = leader
      · subst hEq
        by_cases hAwaits : awaits3 pbc = true
        · rcases hThird hAwaits with ⟨hBefore, hNot⟩
          refine countedAt_same ?_ (Nat.le_refl _) hNot
          simp only [count_pbc3, Function.update_self,
            hAwaits, hBefore]
        · refine countedAt_none ?_
          simp only [count_pbc3, Function.update_self,
            if_neg hAwaits]
      · refine
          countedAt_same ?_ (Nat.le_refl _)
            (hOther _ nofun (by simp [hEq]))
        simp only [count_pbc3, Function.update_of_ne hEq]
  | pbc2 | pbc4 | pi | share | prev | vote =>
      exact
        countedAt_same rfl (Nat.le_refl _)
          (hOther _ nofun nofun)

/- What becomes due in the goroutine for a leader. -/
theorem pays_setPbc
    {pbc : PBC}
    (hSecond :
      leader ≠ id → li.pbcDone = false →
        answered pbc = true →
          answered (li.pbc leader) = true ∨
            ∃ packet ∈ sent, Reaches leader .pbc2 l packet)
    (hLast :
      leader ≠ id → li.pbcDone = false → pbc = .done →
        ∃ packet ∈ sent, Reaches leader .pbc4 l packet) :
    Pays id l li
      { li with pbc := Function.update li.pbc leader pbc }
      sent := by
  intro q kind hNe hDue
  cases kind with
  | pbc2 =>
      rcases hDue with ⟨hOpen, hAnswered⟩
      by_cases hEq : q = leader
      · subst hEq
        simp only [Function.update_self] at hAnswered
        rcases hSecond hNe hOpen hAnswered with hOld | hSent
        · exact .inl ⟨hOpen, hOld⟩
        · exact .inr hSent
      · simp only [Function.update_of_ne hEq] at hAnswered
        exact .inl ⟨hOpen, hAnswered⟩
  | pbc4 =>
      rcases hDue with ⟨hOpen, hDone⟩
      by_cases hEq : q = leader
      · subst hEq
        simp only [Function.update_self] at hDone
        exact .inr (hLast hNe hOpen hDone)
      · simp only [Function.update_of_ne hEq] at hDone
        exact .inl ⟨hOpen, hDone⟩
  | pbc1 | pbc3 | pi | share | prev | vote => exact .inl hDue

/- No other goroutine is at another place. -/
theorem Bounded.setPbc
    (hBounded : Bounded li) {pbc : PBC} :
    Bounded
      { li with
        pbc := Function.update li.pbc leader pbc } :=
  { hBounded with }

/- The first message of a leader is taken. -/
theorem Moves.handlePBC1
    (hAccepts : cfg.checkInput msg.rawMsg.values = true)
    (hStep : handlePBC1 cfg m l leader msg = some e) :
    Moves id m l (some (.pbc1 leader)) e := by
  unfold SpeedingMVBA.handlePBC1 at hStep
  dsimp only at hStep
  rcases Option.ite_none_left_eq_some.mp hStep with
    ⟨hWait, hStep⟩
  have hWait : (m.loops l).pbc leader = .wait1 :=
    not_not.mp hWait
  rw [if_pos hAccepts] at hStep
  rcases Option.map_eq_some_iff.mp hStep with ⟨certs, _, rfl⟩
  have hCounted :
      Counted (m.loops l)
        { m.loops l with
          pbc :=
            Function.update (m.loops l).pbc leader
              (.send2 (cfg.sha msg.rawMsg.values)) }
        (some (.pbc1 leader)) :=
    counted_setPbc nofun (.inr (.inl rfl)) fun _ =>
      ⟨by rw [hWait]; rfl, nofun⟩
  have hPays :
      Pays id l (m.loops l)
        { m.loops l with
          pbc :=
            Function.update (m.loops l).pbc leader
              (.send2 (cfg.sha msg.rawMsg.values)) } [] :=
    pays_setPbc nofun nofun
  exact
    .setLoop rfl (fun _ h => h) (fun _ => hCounted)
      (fun _ => hPays) fun hBounded => { hBounded with }

/- The first answer is sent, unless it is too late. -/
theorem Moves.sendPBC2
    (hStep : sendPBC2 cfg id m l leader = some e) :
    Moves id m l none e := by
  unfold SpeedingMVBA.sendPBC2 at hStep
  dsimp only at hStep
  split at hStep
  · rename_i hash hPbc
    split at hStep
    · rename_i hLate
      cases hStep
      have hClosed :
          m.mvbaDone = false → (m.loops l).pbcDone = true := by
        intro hOpen
        simpa [hOpen] using hLate
      refine
        .setLoop rfl (fun _ h => h)
          (fun _ => counted_setPbc nofun (.inl rfl) nofun)
          (fun hOpen => ?_) fun hBounded => hBounded.setPbc
      have hDone := hClosed hOpen
      refine pays_setPbc (fun _ hNot => ?_) fun _ hNot => ?_
      · rw [hDone] at hNot
        cases hNot
      · rw [hDone] at hNot
        cases hNot
    · cases hStep
      refine
        .setLoop rfl (fun _ h => h)
          (fun _ =>
            counted_setPbc nofun (.inl rfl) fun _ =>
              ⟨by rw [hPbc]; rfl, nofun⟩)
          (fun _ => ?_) fun hBounded => hBounded.setPbc
      refine
        pays_setPbc (fun _ _ _ => .inr ?_)
          fun _ _ => PBC.noConfusion
      exact
        ⟨_, List.mem_singleton_self _,
          decide_eq_true rfl, rfl, rfl⟩
  · cases hStep

/- The third message of a leader is taken. -/
theorem Moves.handlePBC3
    (hStep : handlePBC3 cfg m l leader msg = some e) :
    Moves id m l (some (.pbc3 leader)) e := by
  unfold SpeedingMVBA.handlePBC3 at hStep
  dsimp only at hStep
  split at hStep
  · rename_i hash hPbc
    rcases Option.ite_none_right_eq_some.mp hStep with
      ⟨_, hStep⟩
    rcases Option.map_eq_some_iff.mp hStep with
      ⟨cert, _, rfl⟩
    have hCounted :
        Counted (m.loops l)
          { m.loops l with
            pbc :=
              Function.update (m.loops l).pbc leader
                (.send4 hash) }
          (some (.pbc3 leader)) :=
      counted_setPbc nofun (.inr (.inr rfl)) nofun
    have hPays :
        Pays id l (m.loops l)
          { m.loops l with
            pbc :=
              Function.update (m.loops l).pbc leader
                (.send4 hash) } [] :=
      pays_setPbc (fun _ _ _ => .inl (by rw [hPbc]; rfl))
        fun _ _ => PBC.noConfusion
    exact
      .setLoop rfl (fun _ h => h) (fun _ => hCounted)
        (fun _ => hPays) fun hBounded => { hBounded with }
  · cases hStep

/- The second answer is sent, unless it is too late. -/
theorem Moves.sendPBC4
    (hStep : sendPBC4 cfg id m l leader = some e) :
    Moves id m l none e := by
  unfold SpeedingMVBA.sendPBC4 at hStep
  dsimp only at hStep
  split at hStep
  · rename_i hash hPbc
    have hCounted :
        Counted (m.loops l)
          { m.loops l with
            pbc :=
              Function.update (m.loops l).pbc leader .done }
          none :=
      counted_setPbc nofun (.inl rfl) nofun
    have hBefore :
        answered ((m.loops l).pbc leader) = true := by
      rw [hPbc]
      rfl
    split at hStep
    · rename_i hLate
      cases hStep
      refine
        .setLoop rfl (fun _ h => h) (fun _ => hCounted)
          (fun hOpen => ?_) fun hBounded => hBounded.setPbc
      have hOpen : m.mvbaDone = false := hOpen
      have hDone : (m.loops l).pbcDone = true := by
        simpa [hOpen] using hLate
      refine
        pays_setPbc (fun _ _ _ => .inl hBefore)
          fun _ hNot => ?_
      rw [hDone] at hNot
      cases hNot
    · cases hStep
      refine
        .setLoop rfl (fun _ h => h) (fun _ => hCounted)
          (fun _ => ?_) fun hBounded => hBounded.setPbc
      refine
        pays_setPbc (fun _ _ _ => .inl hBefore)
          fun _ _ _ => ?_
      exact
        ⟨_, List.mem_singleton_self _,
          decide_eq_true rfl, rfl, rfl⟩
  · cases hStep

/- `handle_PBC` returns when the broadcasts are over. -/
theorem Moves.returnPBC
    (hStep : returnPBC m l leader = some e) :
    Moves id m l none e := by
  have hReturn :
      (if (m.loops l).pbcDone then
          some
            (m.leave l
              { m.loops l with
                pbc :=
                  Function.update (m.loops l).pbc leader
                    .done } [])
        else none) = some e →
        Moves id m l none e := by
    intro hReturn
    rcases Option.ite_none_right_eq_some.mp hReturn with
      ⟨hDone, hEq⟩
    cases hEq
    refine
      .setLoop rfl (fun _ h => h)
        (fun _ => counted_setPbc nofun (.inl rfl) nofun)
        (fun _ => ?_) fun hBounded => hBounded.setPbc
    refine pays_setPbc (fun _ hNot => ?_) fun _ hNot => ?_
    · rw [hDone] at hNot
      cases hNot
    · rw [hDone] at hNot
      cases hNot
  unfold SpeedingMVBA.returnPBC at hStep
  dsimp only at hStep
  split at hStep
  · exact hReturn hStep
  · exact hReturn hStep
  · cases hStep

end Broadcasts

end Agreement

end SpeedingMVBA

end Jumbo

------------------------------------------------------------
-- The Own Broadcast
------------------------------------------------------------

namespace Jumbo

namespace SpeedingMVBA

namespace Agreement

open Crypto (Bytes)
open Struct

variable {n : Nat}

section Own

variable {cfg : Config n} {id : Fin n} {m : MVBA n}
variable {l : Nat} {li li' : LoopInfo n} {msg : Msg}
variable {e : Effect n} {sent : List (Packet n)}
variable {okSign : Signature} {certs : List Cert}

/- The number of a party is in range. -/
theorem index_self (id : Fin n) :
    index n (id.val + 1) = some id := by
  unfold index
  rw [dif_pos (by omega)]
  refine congrArg some (Fin.ext ?_)
  dsimp only
  omega

/- A message for the own broadcast is taken. -/
theorem Moves.handleMinePBC2
    (hStep : handleMinePBC2 cfg id m l msg = some e) :
    Moves id m l (some .pbc2) e := by
  unfold SpeedingMVBA.handleMinePBC2 at hStep
  dsimp only at hStep
  split at hStep
  · rename_i hash signs hMine
    rcases Option.ite_none_right_eq_some.mp hStep with
      ⟨_, hStep⟩
    rcases Option.bind_eq_some_iff.mp hStep with
      ⟨got, _, hStep⟩
    split at hStep
    · rcases Option.bind_eq_some_iff.mp hStep with
        ⟨batch, _, hEq⟩
      cases hEq
      refine
        .setLoop rfl (fun _ h => h) (fun _ kind => ?_)
          (fun _ => ?_) ?_
      · cases kind with
        | pbc2 => exact countedAt_none rfl
        | pbc4 =>
            refine countedAt_same ?_ (Nat.le_refl _) nofun
            simp only [count, hMine]
        | pi =>
            refine countedAt_same rfl ?_ nofun
            simp [own, hMine]
        | pbc1 c | pbc3 c =>
            exact countedAt_same rfl (Nat.le_refl _) nofun
        | share | prev | vote =>
            exact countedAt_same rfl (Nat.le_refl _) nofun
      · intro q kind _ hDue
        cases kind with
        | pbc3 c => exact absurd hDue.2.2 nofun
        | pi => exact absurd hDue.2 nofun
        | pbc1 c | pbc2 | pbc4 | share | prev | vote =>
            exact .inl hDue
      · exact fun hBounded =>
          { hBounded with wait2 := nofun, wait4 := nofun }
    · rename_i hFew
      cases hStep
      refine
        .setLoop rfl (fun _ h => h) (fun _ kind => ?_)
          (fun _ => ?_) ?_
      · cases kind with
        | pbc2 =>
            intro k' hCount
            simp only [count, Option.some.injEq,
              List.length_append, List.length_singleton]
              at hCount
            refine ⟨signs.length, by simp [count, hMine], ?_⟩
            simp only [if_true, own]
            omega
        | pbc4 =>
            refine countedAt_same ?_ (Nat.le_refl _) nofun
            simp only [count, hMine]
        | pi =>
            refine countedAt_same rfl ?_ nofun
            simp [own, hMine]
        | pbc1 c | pbc3 c =>
            exact countedAt_same rfl (Nat.le_refl _) nofun
        | share | prev | vote =>
            exact countedAt_same rfl (Nat.le_refl _) nofun
      · intro q kind _ hDue
        cases kind with
        | pbc3 c => exact absurd hDue.2.2 nofun
        | pi => exact absurd hDue.2 nofun
        | pbc1 c | pbc2 | pbc4 | share | prev | vote =>
            exact .inl hDue
      · intro hBounded
        refine { hBounded with wait2 := ?_, wait4 := nofun }
        intro hash' signs' hWait
        cases hWait
        omega
  · cases hStep

/- The own third message is sent, unless it is too late. -/
theorem Moves.sendPBC3
    (hN : 2 ≤ n)
    (hStep : sendPBC3 cfg id m l = some e) :
    Moves id m l none e := by
  unfold SpeedingMVBA.sendPBC3 at hStep
  dsimp only at hStep
  split at hStep
  · rename_i hash batch hMine
    split at hStep
    · rename_i hLate
      cases hStep
      have hDone :
          m.mvbaDone = false → (m.loops l).pbcDone = true := by
        intro hOpen
        simpa [hOpen] using hLate
      refine
        .setLoop rfl (fun _ h => h) (fun hOpen kind => ?_)
          (fun hOpen => ?_) ?_
      · cases kind with
        | pbc2 => exact countedAt_none rfl
        | pbc4 => exact countedAt_none rfl
        | pi =>
            refine countedAt_same rfl ?_ nofun
            simp [own, hDone hOpen]
        | pbc1 c | pbc3 c =>
            exact countedAt_same rfl (Nat.le_refl _) nofun
        | share | prev | vote =>
            exact countedAt_same rfl (Nat.le_refl _) nofun
      · have hClosed := hDone hOpen
        intro q kind _ hDue
        cases kind with
        | pbc3 c => simp [Due, hClosed] at hDue
        | pi => simp [Due, hClosed] at hDue
        | pbc1 c | pbc2 | pbc4 | share | prev | vote =>
            exact .inl hDue
      · exact fun hBounded =>
          { hBounded with wait2 := nofun, wait4 := nofun }
    · cases hStep
      refine
        .setLoop rfl (fun _ h => h) (fun _ kind => ?_)
          (fun _ => ?_) ?_
      · cases kind with
        | pbc2 => exact countedAt_none rfl
        | pbc4 =>
            refine countedAt_same ?_ (Nat.le_refl _) nofun
            simp only [count, hMine, List.length_nil]
        | pi =>
            refine countedAt_same rfl ?_ nofun
            simp [own]
        | pbc1 c | pbc3 c =>
            exact countedAt_same rfl (Nat.le_refl _) nofun
        | share | prev | vote =>
            exact countedAt_same rfl (Nat.le_refl _) nofun
      · intro q kind hNe hDue
        cases kind with
        | pbc3 c =>
            right
            refine
              ⟨_, List.mem_singleton_self _,
                decide_eq_true hNe, rfl, ?_⟩
            rw [hDue.1]
            change (index n (id.val + 1)).map Kind.pbc3 = _
            rw [index_self]
            rfl
        | pi => exact absurd hDue.2 nofun
        | pbc1 c | pbc2 | pbc4 | share | prev | vote =>
            exact .inl hDue
      · intro hBounded
        refine { hBounded with wait2 := nofun, wait4 := ?_ }
        intro hash' signs' hWait
        cases hWait
        exact maxCount_pos hN
  · cases hStep

/- What another OK does. -/
theorem countPi_cases
    (hCount : countPi cfg l li okSign = some (li', certs)) :
    (maxCount n < li.piCount + 1 ∧
        ∃ batch,
          batchSign cfg (cfg.tagged l .ok) (li.ok ++ [okSign]) =
            some batch ∧
          li' =
            { li with
              ok := li.ok ++ [okSign]
              piCount := li.piCount + 1
              shareReady := li.shareReady ++ [batch]
              pbcDone := true }) ∨
      (li.piCount + 1 ≤ maxCount n ∧
        li' =
          { li with
            ok := li.ok ++ [okSign]
            piCount := li.piCount + 1 }) := by
  unfold countPi at hCount
  dsimp only at hCount
  split at hCount
  · rename_i hMany
    rcases Option.map_eq_some_iff.mp hCount with
      ⟨batch, hBatch, hEq⟩
    cases hEq
    exact .inl ⟨hMany, batch, hBatch, rfl⟩
  · rename_i hFew
    cases hCount
    exact .inr ⟨Nat.le_of_not_lt hFew, rfl⟩

/- Another OK is bounded. -/
theorem Bounded.countPi
    (hBounded : Bounded li)
    (hCount : countPi cfg l li okSign = some (li', certs)) :
    Bounded li' := by
  rcases countPi_cases hCount with
    ⟨hMany, batch, _, rfl⟩ | ⟨hFew, rfl⟩
  · refine { hBounded with pi := ?_, ready := ?_ }
    · exact fun _ => hMany
    · intro _ _ hNil
      exact absurd (List.append_eq_nil_iff.mp hNil).2 nofun
  · refine { hBounded with pi := ?_, ready := ?_ }
    · intro hDone
      exact Nat.lt_succ_of_lt (hBounded.pi hDone)
    · intro hSends hWhy
      refine hBounded.ready hSends ?_
      rcases hWhy with hMany | hRest
      · dsimp only at hMany
        omega
      · exact .inr hRest

/- The last answer to the own third message. -/
theorem Moves.handleMinePBC4
    (hStep : handleMinePBC4 cfg id m l msg = some e) :
    Moves id m l (some .pbc4) e := by
  unfold SpeedingMVBA.handleMinePBC4 at hStep
  dsimp only at hStep
  split at hStep
  · rename_i hash signs hMine
    rcases Option.ite_none_right_eq_some.mp hStep with
      ⟨_, hStep⟩
    rcases Option.bind_eq_some_iff.mp hStep with
      ⟨got, _, hStep⟩
    split at hStep
    · rcases Option.bind_eq_some_iff.mp hStep with
        ⟨batch, _, hStep⟩
      rcases Option.bind_eq_some_iff.mp hStep with
        ⟨⟨li', certs⟩, hCount, hEq⟩
      cases hEq
      have hMoved :
          ∀ open' : Bool, li'.pbcDone = open' →
            (open' = false → (m.loops l).pbcDone = false) ∧
              li'.mine = .done ∧ li'.pbc = (m.loops l).pbc ∧
              li'.finish = (m.loops l).finish ∧
              li'.handlesPi = (m.loops l).handlesPi ∧
              li'.piCount = (m.loops l).piCount + 1 ∧
              li'.handlesShare = (m.loops l).handlesShare ∧
              li'.shares = (m.loops l).shares ∧
              li'.sendsShare = (m.loops l).sendsShare ∧
              li'.shareMine = (m.loops l).shareMine := by
        rintro _ rfl
        rcases countPi_cases hCount with
          ⟨_, batch, _, rfl⟩ | ⟨_, rfl⟩
        · exact
            ⟨nofun, rfl, rfl, rfl, rfl, rfl, rfl, rfl, rfl, rfl⟩
        · exact
            ⟨fun h => h, rfl, rfl, rfl, rfl, rfl, rfl, rfl, rfl,
              rfl⟩
      rcases hMoved _ rfl with
        ⟨hOpen, hDone, hPbc, hFinish, hHandles, hPi, hShares,
          hList, hSends, hOwn⟩
      refine
        .setLoop rfl (fun _ h => hFinish ▸ h)
          (fun _ kind => ?_) (fun hGo => ?_) ?_
      · cases kind with
        | pbc2 =>
            refine countedAt_none ?_
            simp only [count, hDone]
        | pbc4 =>
            refine countedAt_none ?_
            simp only [count, hDone]
        | pi =>
            intro k' hSome
            simp only [count, hHandles, hPi] at hSome
            rcases Option.ite_none_right_eq_some.mp hSome with
              ⟨hWaits, hEq⟩
            cases hEq
            refine
              ⟨(m.loops l).piCount, count_pi hWaits, ?_⟩
            have hOne : own .pi li' ≤ 1 := by
              simp only [own]
              split
              · exact Nat.le_refl 1
              · exact Nat.zero_le 1
            simp only [reduceCtorEq, Option.some.injEq, if_false]
            omega
        | pbc1 c =>
            refine countedAt_same ?_ (Nat.le_refl _) nofun
            simp only [count, hPbc]
        | pbc3 c =>
            refine countedAt_same ?_ (Nat.le_refl _) nofun
            simp only [count, hPbc]
        | share =>
            refine countedAt_same ?_ ?_ nofun
            · simp only [count, hShares, hList]
            · simp only [own, hSends, hOwn, Nat.le_refl]
        | prev =>
            refine countedAt_same ?_ (Nat.le_refl _) nofun
            simp only [count, hFinish]
        | vote =>
            refine countedAt_same ?_ ?_ nofun
            · simp only [count, hFinish]
            · simp only [own, hFinish, Nat.le_refl]
      · have hGo : m.mvbaDone = false := hGo
        intro q kind hNe hDue
        cases kind with
        | pbc1 c => exact hDue.elim
        | pbc2 =>
            refine .inl ⟨hOpen hDue.1, ?_⟩
            rw [← hPbc]
            exact hDue.2
        | pbc3 c =>
            refine .inl ⟨hDue.1, hOpen hDue.2.1, ?_⟩
            rw [hMine]
            rfl
        | pbc4 =>
            refine .inl ⟨hOpen hDue.1, ?_⟩
            rw [← hPbc]
            exact hDue.2
        | pi =>
            right
            dsimp only
            rw [if_neg (by simp [hGo])]
            exact
              ⟨_, List.mem_singleton_self _,
                decide_eq_true hNe, rfl, rfl⟩
        | share => exact .inl (hSends.symm.trans hDue)
        | prev =>
            simp only [Due, hFinish] at hDue
            exact .inl hDue
        | vote =>
            simp only [Due, hFinish] at hDue
            exact .inl hDue
      · intro hBounded
        refine Bounded.countPi ?_ hCount
        exact { hBounded with wait2 := nofun, wait4 := nofun }
    · rename_i hFew
      cases hStep
      refine
        .setLoop rfl (fun _ h => h) (fun _ kind => ?_)
          (fun _ => ?_) ?_
      · cases kind with
        | pbc4 =>
            intro k' hCount
            simp only [count, Option.some.injEq,
              List.length_append, List.length_singleton]
              at hCount
            refine ⟨signs.length, by simp [count, hMine], ?_⟩
            simp only [if_true, own]
            omega
        | pbc2 => exact countedAt_none rfl
        | pi =>
            refine countedAt_same rfl ?_ nofun
            simp [own]
        | pbc1 c | pbc3 c =>
            exact countedAt_same rfl (Nat.le_refl _) nofun
        | share | prev | vote =>
            exact countedAt_same rfl (Nat.le_refl _) nofun
      · intro q kind _ hDue
        cases kind with
        | pbc3 c =>
            refine .inl ⟨hDue.1, hDue.2.1, ?_⟩
            rw [hMine]
            rfl
        | pi => exact absurd hDue.2 nofun
        | pbc1 c | pbc2 | pbc4 | share | prev | vote =>
            exact .inl hDue
      · intro hBounded
        refine { hBounded with wait2 := nofun, wait4 := ?_ }
        intro hash' signs' hWait
        cases hWait
        omega
  · cases hStep

/- The own broadcast is given up once it is over. -/
theorem Moves.returnMinePBC
    (hStep : returnMinePBC m l = some e) :
    Moves id m l none e := by
  have hReturn :
      (if (m.loops l).pbcDone then
          some (m.leave l { m.loops l with mine := .done } [])
        else none) = some e →
        Moves id m l none e := by
    intro hReturn
    rcases Option.ite_none_right_eq_some.mp hReturn with
      ⟨hClosed, hEq⟩
    cases hEq
    refine
      .setLoop rfl (fun _ h => h) (fun _ kind => ?_)
        (fun _ => ?_) ?_
    · cases kind with
      | pbc2 => exact countedAt_none rfl
      | pbc4 => exact countedAt_none rfl
      | pi =>
          refine countedAt_same rfl ?_ nofun
          simp [own, hClosed]
      | pbc1 c | pbc3 c =>
          exact countedAt_same rfl (Nat.le_refl _) nofun
      | share | prev | vote =>
          exact countedAt_same rfl (Nat.le_refl _) nofun
    · intro q kind _ hDue
      cases kind with
      | pbc3 c => simp [Due, hClosed] at hDue
      | pi => simp [Due, hClosed] at hDue
      | pbc1 c | pbc2 | pbc4 | share | prev | vote =>
          exact .inl hDue
    · exact fun hBounded =>
        { hBounded with wait2 := nofun, wait4 := nofun }
  unfold SpeedingMVBA.returnMinePBC at hStep
  dsimp only at hStep
  split at hStep
  · exact hReturn hStep
  · exact hReturn hStep
  · cases hStep

end Own

end Agreement

end SpeedingMVBA

end Jumbo
