import Jumbo.SpeedingMVBA.Waiting

/-
  Pi, shares and votes, as far as they wait.

  Once a share is counted the first one is ready to be sent
  on, with enough of them the coin is, and with the coin the
  party tells and then votes.

  Main declarations:
    * `Moves.handlePi` and `Moves.sendShare`
    * `Moves.countShare`
    * `Moves.handleCoin`
    * `Moves.countPrev` and `Moves.countVotes`
-/

------------------------------------------------------------
-- Pi and Shares
------------------------------------------------------------

namespace Jumbo

namespace SpeedingMVBA

namespace Agreement

open Crypto (Bytes)
open Struct

variable {n : Nat}

section Shares

variable {cfg : Config n} {id : Fin n} {m : MVBA n}
variable {l : Nat} {li li' : LoopInfo n} {msg : Msg}
variable {e : Effect n}

/- A pi is taken. -/
theorem Moves.handlePi
    (hStep : handlePi cfg m l msg = some e) :
    Moves id m l (some .pi) e := by
  unfold SpeedingMVBA.handlePi at hStep
  dsimp only at hStep
  rcases Option.ite_none_right_eq_some.mp hStep with
    ⟨hWaits, hStep⟩
  rcases Option.bind_eq_some_iff.mp hStep with
    ⟨leader, _, hStep⟩
  rcases Option.bind_eq_some_iff.mp hStep with
    ⟨cert, _, hStep⟩
  rcases Option.bind_eq_some_iff.mp hStep with
    ⟨okSign, _, hStep⟩
  rcases Option.bind_eq_some_iff.mp hStep with
    ⟨⟨li', certs⟩, hCount, hEq⟩
  cases hEq
  have hBoundedPi :
      Bounded (m.loops l) →
        Bounded
          { li' with
            handlesPi :=
              !decide (maxCount n < li'.piCount) } := by
    intro hBounded
    have hCounted : Bounded li' := by
      refine Bounded.countPi ?_ hCount
      exact { hBounded with }
    refine { hCounted with pi := ?_ }
    intro hDone
    simpa using hDone
  refine
    .setLoop rfl
      (fun _ h => (countPi_same hCount).1.finish.symm.trans h)
      (fun _ kind => ?_) (fun hGo => ?_) hBoundedPi
  · rcases countPi_cases hCount with
      ⟨hMany, batch, _, rfl⟩ | ⟨hFew, rfl⟩
    · cases kind with
      | pi =>
          refine countedAt_none ?_
          simp only [count, hMany, decide_true, Bool.not_true,
            Bool.false_eq_true, if_false]
      | pbc1 c | pbc2 | pbc3 c | pbc4 =>
          exact countedAt_same rfl (Nat.le_refl _) (by rintro ⟨⟩)
      | share | prev | vote =>
          exact countedAt_same rfl (Nat.le_refl _) (by rintro ⟨⟩)
    · cases kind with
      | pi =>
          intro k' hSome
          simp only [count] at hSome
          rcases Option.ite_none_right_eq_some.mp hSome with
            ⟨_, hEq⟩
          cases hEq
          refine
            ⟨(m.loops l).piCount, count_pi hWaits, ?_⟩
          simp only [if_true, own]
          omega
      | pbc1 c | pbc2 | pbc3 c | pbc4 =>
          exact countedAt_same rfl (Nat.le_refl _) (by rintro ⟨⟩)
      | share | prev | vote =>
          exact countedAt_same rfl (Nat.le_refl _) (by rintro ⟨⟩)
  · intro q kind _ hDue
    rcases countPi_cases hCount with
      ⟨hMany, batch, _, rfl⟩ | ⟨hFew, rfl⟩
    · cases kind with
      | pbc2 | pbc4 | pi => exact absurd hDue.1 (by rintro ⟨⟩)
      | pbc3 c => exact absurd hDue.2.1 (by rintro ⟨⟩)
      | pbc1 c | share | prev | vote => exact .inl hDue
    · cases kind with
      | pbc1 c | pbc2 | pbc3 c | pbc4 => exact .inl hDue
      | pi | share | prev | vote => exact .inl hDue

/- The share is sent with the first batch that is ready. -/
theorem Moves.sendShare
    (hStep : sendShare cfg id m l = some e) :
    Moves id m l none e := by
  unfold SpeedingMVBA.sendShare at hStep
  dsimp only at hStep
  split at hStep
  · split at hStep
    · rename_i hDone
      cases hStep
      refine
        .setLoop rfl (fun _ h => h) (fun hOpen => ?_)
          (fun hOpen => ?_) ?_
      · rw [hDone] at hOpen
        cases hOpen
      · have hOpen : m.mvbaDone = false := hOpen
        rw [hDone] at hOpen
        cases hOpen
      · exact fun hBounded =>
          { hBounded with ready := by rintro ⟨⟩ }
    · cases hStep
      refine
        .setLoop rfl (fun _ h => h) (fun _ kind => ?_)
          (fun _ => ?_) ?_
      · cases kind with
        | share =>
            refine countedAt_same rfl ?_ (by rintro ⟨⟩)
            simp [own]
        | pbc1 c | pbc2 | pbc3 c | pbc4 =>
            exact
              countedAt_same rfl (Nat.le_refl _)
                (by rintro ⟨⟩)
        | pi | prev | vote =>
            exact
              countedAt_same rfl (Nat.le_refl _)
                (by rintro ⟨⟩)
      · intro q kind hNe hDue
        cases kind with
        | share =>
            exact
              .inr
                ⟨_, List.mem_singleton_self _,
                  decide_eq_true hNe, rfl, rfl⟩
        | pbc1 c | pbc2 | pbc3 c | pbc4 => exact .inl hDue
        | pi | prev | vote => exact .inl hDue
      · exact fun hBounded =>
          { hBounded with ready := by rintro ⟨⟩ }
  · cases hStep

/-
  A share is counted, `got` of another party or, without,
  the own one. The loop before is `li`, but for the own share.
-/
theorem Moves.countShare
    {got : Option (Kind n)} {m' : MVBA n}
    {share : Signature} {ss : BatchSignature}
    {certs : List Cert}
    (hHandles : (m.loops l).handlesShare = true)
    (hLoops : m'.loops = (m.setLoop l li).loops)
    (hOwner : li = { m.loops l with shareMine := li.shareMine })
    (hGot :
      (got = some .share ∧
          li.shareMine = (m.loops l).shareMine) ∨
        (got = none ∧ (m.loops l).shareMine ≠ none))
    (hStep : countShare cfg m' l share ss certs = some e) :
    Moves id m l got e := by
  have hSame : m'.loops l = li := by
    rw [hLoops, setLoop_same]
  have hOther :
      ∀ kind : Kind n, kind ≠ .share → got ≠ some kind := by
    rintro kind hNe rfl
    rcases hGot with ⟨hEq, _⟩ | ⟨hEq, _⟩
    · exact hNe (Option.some.inj hEq)
    · cases hEq
  unfold SpeedingMVBA.countShare at hStep
  dsimp only at hStep
  rw [hSame] at hStep
  have hUpdate :
      ∀ li',
        (m'.setLoop l li').loops = (m.setLoop l li').loops := by
    intro li'
    unfold MVBA.setLoop at hLoops ⊢
    dsimp only at hLoops ⊢
    rw [hLoops, Function.update_idem]
  have hReady :
      (if li.firstShare = true then li.shareReady ++ [ss]
        else li.shareReady) = [] →
        li.firstShare = false ∧ li.shareReady = [] := by
    intro hNil
    split at hNil
    · exact absurd (List.append_eq_nil_iff.mp hNil).2
        (List.cons_ne_nil _ _)
    · rename_i hFirst
      exact ⟨Bool.eq_false_of_not_eq_true hFirst, hNil⟩
  have hBoundedReady :
      Bounded (m.loops l) →
        (m.loops l).sendsShare = true →
          (if li.firstShare = true then li.shareReady ++ [ss]
            else li.shareReady) ≠ [] := by
    intro hBounded hSends hNil
    rcases hReady hNil with ⟨hFirst, hNil⟩
    rw [hOwner] at hFirst hNil
    exact
      hBounded.ready hSends (.inr (.inl hFirst)) hNil
  have hOver :
      ∀ {P : Prop}, P → li.finish = .done →
        (m.loops l).finish = .done := by
    intro _ _ hDone
    rw [hOwner] at hDone
    exact hDone
  split at hStep
  · rcases Option.map_eq_some_iff.mp hStep with
      ⟨batch, _, rfl⟩
    refine
      .setLoop (hUpdate _) hOver (fun _ kind => ?_) (fun _ => ?_)
        fun hBounded => ?_
    · rw [hOwner]
      cases kind with
      | share => exact countedAt_none rfl
      | pi =>
          refine countedAt_same rfl ?_ (hOther _ (by rintro ⟨⟩))
          simp only [own, Bool.or_eq_false_iff]
          split
          · rename_i hBoth
            rw [if_pos ⟨hBoth.1, hBoth.2.1⟩]
          · exact Nat.zero_le _
      | pbc1 c | pbc2 | pbc3 c | pbc4 =>
          exact
            countedAt_same rfl (Nat.le_refl _)
              (hOther _ (by rintro ⟨⟩))
      | prev | vote =>
          exact
            countedAt_same rfl (Nat.le_refl _)
              (hOther _ (by rintro ⟨⟩))
    · rw [hOwner]
      intro q kind _ hDue
      cases kind with
      | pbc2 | pbc4 | pi =>
          exact
            .inl ⟨(Bool.or_eq_false_iff.mp hDue.1).1, hDue.2⟩
      | pbc3 c =>
          exact
            .inl
              ⟨hDue.1, (Bool.or_eq_false_iff.mp hDue.2.1).1,
                hDue.2.2⟩
      | pbc1 c | share | prev | vote => exact .inl hDue
    · have hNotNil := hBoundedReady hBounded
      rw [hOwner] at hNotNil ⊢
      refine
        { hBounded with
          share := by rintro ⟨⟩
          ready := ?_
          first := fun _ => rfl
          coin := fun _ _ => Option.some_ne_none _
          elected := fun _ => rfl
          finish := fun _ => rfl }
      exact fun hSends _ => hNotNil hSends
  · rename_i hFew
    cases hStep
    rw [List.length_append, List.length_singleton] at hFew
    refine
      .setLoop (hUpdate _) hOver (fun _ kind => ?_) (fun _ => ?_)
        fun hBounded => ?_
    · cases kind with
      | share =>
          intro k' hSome
          simp only [count] at hSome
          rcases Option.ite_none_right_eq_some.mp hSome with
            ⟨_, hEq⟩
          rw [List.length_append, List.length_singleton]
            at hEq
          cases hEq
          have hLength :
              li.shares.length = (m.loops l).shares.length := by
            rw [hOwner]
          have hSends :
              li.sendsShare = (m.loops l).sendsShare := by
            rw [hOwner]
          refine
            ⟨(m.loops l).shares.length, count_share hHandles,
              ?_⟩
          rw [hLength]
          rcases hGot with ⟨hEq, hMine⟩ | ⟨hEq, hMine⟩
          · simp only [hEq, if_true, own, hMine, hSends]
            omega
          · have hZero : own .share (m.loops l) = 0 := by
              simp [own, hMine]
            have hOne :
                ∀ li : LoopInfo n, own .share li ≤ 1 := by
              intro li
              simp only [own]
              split
              · exact Nat.le_refl 1
              · exact Nat.zero_le 1
            have hLe := hOne
              { li with
                shares := li.shares ++ [share]
                shareReady :=
                  if li.firstShare then li.shareReady ++ [ss]
                  else li.shareReady
                pbcDone := li.pbcDone || li.firstShare
                firstShare := false }
            simp only [hEq, reduceCtorEq, if_false]
            omega
      | pi =>
          rw [hOwner]
          refine countedAt_same rfl ?_ (hOther _ (by rintro ⟨⟩))
          simp only [own, Bool.or_eq_false_iff]
          split
          · rename_i hBoth
            rw [if_pos ⟨hBoth.1, hBoth.2.1⟩]
          · exact Nat.zero_le _
      | pbc1 c | pbc2 | pbc3 c | pbc4 =>
          rw [hOwner]
          exact
            countedAt_same rfl (Nat.le_refl _)
              (hOther _ (by rintro ⟨⟩))
      | prev | vote =>
          rw [hOwner]
          exact
            countedAt_same rfl (Nat.le_refl _)
              (hOther _ (by rintro ⟨⟩))
    · rw [hOwner]
      intro q kind _ hDue
      cases kind with
      | pbc2 | pbc4 | pi =>
          exact
            .inl ⟨(Bool.or_eq_false_iff.mp hDue.1).1, hDue.2⟩
      | pbc3 c =>
          exact
            .inl
              ⟨hDue.1, (Bool.or_eq_false_iff.mp hDue.2.1).1,
                hDue.2.2⟩
      | pbc1 c | share | prev | vote => exact .inl hDue
    · have hNotNil := hBoundedReady hBounded
      rw [hOwner] at hNotNil hFew ⊢
      refine
        { hBounded with
          share := ?_
          ready := fun hSends _ => hNotNil hSends
          first := fun _ => rfl }
      intro _
      rw [List.length_append, List.length_singleton]
      omega

/- A share of another party is taken. -/
theorem Moves.handleShare
    (hStep : handleShare cfg m l msg = some e) :
    Moves id m l (some .share) e := by
  unfold SpeedingMVBA.handleShare at hStep
  rcases Option.ite_none_right_eq_some.mp hStep with
    ⟨hHandles, hStep⟩
  rcases Option.bind_eq_some_iff.mp hStep with
    ⟨cert, _, hStep⟩
  rcases Option.bind_eq_some_iff.mp hStep with
    ⟨share, _, hStep⟩
  have hLoops :
      m.loops = (m.setLoop l (m.loops l)).loops := by
    rw [setLoop_self]
  exact
    .countShare hHandles hLoops rfl (.inl ⟨rfl, rfl⟩) hStep

/- The own share is counted. -/
theorem Moves.handleShareMine
    (hStep : handleShareMine cfg m l = some e) :
    Moves id m l none e := by
  unfold SpeedingMVBA.handleShareMine at hStep
  dsimp only at hStep
  rcases Option.ite_none_right_eq_some.mp hStep with
    ⟨hHandles, hStep⟩
  rcases Option.bind_eq_some_iff.mp hStep with
    ⟨msg, hMine, hStep⟩
  rcases Option.bind_eq_some_iff.mp hStep with
    ⟨share, _, hStep⟩
  rcases Option.bind_eq_some_iff.mp hStep with
    ⟨ss, _, hStep⟩
  refine
    .countShare hHandles rfl rfl (.inr ⟨rfl, ?_⟩) hStep
  rw [hMine]
  exact Option.some_ne_none _

/- The coin is stored. -/
theorem Moves.storeCoin
    (hStep : storeCoin cfg m l = some e) :
    Moves id m l none e := by
  unfold SpeedingMVBA.storeCoin at hStep
  dsimp only at hStep
  rcases Option.ite_none_right_eq_some.mp hStep with ⟨_, hEq⟩
  cases hEq
  refine
    .setLoop rfl (fun _ h => h) (fun _ kind => ?_)
      (fun _ => ?_) ?_
  · cases kind with
    | pbc1 c | pbc2 | pbc3 c | pbc4 =>
        exact countedAt_same rfl (Nat.le_refl _) (by rintro ⟨⟩)
    | pi | share | prev | vote =>
        exact countedAt_same rfl (Nat.le_refl _) (by rintro ⟨⟩)
  · intro q kind _ hDue
    cases kind with
    | pbc1 c | pbc2 | pbc3 c | pbc4 => exact .inl hDue
    | pi | share | prev | vote => exact .inl hDue
  · exact fun hBounded => { hBounded with }

end Shares

end Agreement

end SpeedingMVBA

end Jumbo

------------------------------------------------------------
-- Prevotes and Votes
------------------------------------------------------------

namespace Jumbo

namespace SpeedingMVBA

namespace Agreement

open Crypto (Bytes)
open Struct

variable {n : Nat}

section Votes

variable {cfg : Config n} {id : Fin n} {m : MVBA n}
variable {l : Nat} {li li' : LoopInfo n} {msg : Msg}
variable {e : Effect n} {got : Option (Kind n)}
variable {coin : Fin n} {yesFlag : Bool}
variable {noCombins yes no : List Signature}
variable {prevCount : Nat} {values : Bytes}
variable {accepted assembled : List Cert}

/- What `handle_finish` changes of a loop. -/
def Finishes (li li' : LoopInfo n) : Prop :=
  li' =
    { li with
      inputs := li'.inputs
      sigmas := li'.sigmas
      coinReady := li'.coinReady
      lastinput := li'.lastinput
      finish := li'.finish }

/- A broadcast of a kind in the loop is sent. -/
def Broadcasts
    (id : Fin n) (kind : Kind n) (l : Nat)
    (sent : List (Packet n)) : Prop :=
  ∃ msg, broadcast id msg ∈ sent ∧ msg.rawMsg.loop = l ∧
    kindOf n msg = some kind

/- A step of `handle_finish`. -/
theorem Moves.finish
    (li' : LoopInfo n)
    (hLoops : e.mvba.loops = (m.setLoop l li').loops)
    (hOnly : Finishes (m.loops l) li')
    (hOver :
      e.mvba.mvbaDone = false → li'.finish = .done →
        (m.loops l).finish = .done)
    (hGot : got = none ∨ got = some .prev ∨ got = some .vote)
    (hPrev :
      m.mvbaDone = false →
        CountedAt (m.loops l) li' got .prev)
    (hVote :
      m.mvbaDone = false →
        CountedAt (m.loops l) li' got .vote)
    (hDuePrev :
      e.mvba.mvbaDone = false → 1 ≤ rank li'.finish →
        1 ≤ rank (m.loops l).finish ∨
          Broadcasts id .prev l e.sent)
    (hDueVote :
      e.mvba.mvbaDone = false → 2 ≤ rank li'.finish →
        2 ≤ rank (m.loops l).finish ∨
          Broadcasts id .vote l e.sent)
    (hBounded : Bounded (m.loops l) → Bounded li') :
    Moves id m l got e := by
  have hOther :
      ∀ kind : Kind n, kind ≠ .prev → kind ≠ .vote →
        got ≠ some kind := by
    rintro kind hFirst hLast rfl
    rcases hGot with hEq | hEq | hEq
    · cases hEq
    · exact hFirst (Option.some.inj hEq)
    · exact hLast (Option.some.inj hEq)
  refine
    .setLoop hLoops hOver (fun hOpen kind => ?_)
      (fun hOpen => ?_) hBounded
  · cases kind with
    | prev => exact hPrev hOpen
    | vote => exact hVote hOpen
    | pbc1 c | pbc2 | pbc3 c | pbc4 | pi | share =>
        rw [hOnly]
        exact
          countedAt_same rfl (Nat.le_refl _)
            (hOther _ (by rintro ⟨⟩) (by rintro ⟨⟩))
  · intro q kind hNe hDue
    cases kind with
    | prev =>
        refine (hDuePrev hOpen hDue).imp_right ?_
        rintro ⟨msg, hMem, hLoop, hKind⟩
        exact ⟨_, hMem, decide_eq_true hNe, hLoop, hKind⟩
    | vote =>
        refine (hDueVote hOpen hDue).imp_right ?_
        rintro ⟨msg, hMem, hLoop, hKind⟩
        exact ⟨_, hMem, decide_eq_true hNe, hLoop, hKind⟩
    | pbc1 c | pbc2 | pbc3 c | pbc4 | pi | share =>
        rw [hOnly] at hDue
        exact .inl hDue

/- A loop is halted in, or left by a halt. -/
theorem Moves.haltWith
    {ss : BatchSignature} {li : LoopInfo n}
    (hOnly : Finishes (m.loops l) li)
    (hCoin : Bounded (m.loops l) → li.handlesShare = false)
    (hGot : got = none ∨ got = some .prev ∨ got = some .vote) :
    Moves id m l got
      (haltWith cfg id m l li coin ss accepted assembled) := by
  have hDone :
      (SpeedingMVBA.haltWith cfg id m l li coin ss accepted
        assembled).mvba.mvbaDone = true := by
    unfold SpeedingMVBA.haltWith
    dsimp only
    split
    · assumption
    · rfl
  refine
    .finish { li with finish := .done } ?_ ?_
      (fun hOpen => ?_) hGot
      (fun _ => countedAt_none rfl)
      (fun _ => countedAt_none rfl) (fun hOpen => ?_)
      (fun hOpen => ?_) fun hBounded => ?_
  · unfold SpeedingMVBA.haltWith
    dsimp only
    split
    · rfl
    · rfl
  · rw [hOnly]
    rfl
  · rw [hDone] at hOpen
    cases hOpen
  · rw [hDone] at hOpen
    cases hOpen
  · rw [hDone] at hOpen
    cases hOpen
  · have hFalse := hCoin hBounded
    rw [hOnly] at hFalse ⊢
    exact
      { hBounded with
        prev := by rintro _ _ _ _ ⟨⟩
        vote := by rintro _ _ _ ⟨⟩
        coin := by rintro _ ⟨⟩
        elected := fun _ => hFalse
        finish := fun _ => hFalse }

/- The coin is taken. -/
theorem Moves.handleCoin
    (hN : 2 ≤ n)
    (hStep : handleCoin cfg id m l = some e) :
    Moves id m l none e := by
  unfold SpeedingMVBA.handleCoin at hStep
  dsimp only at hStep
  split at hStep
  · rename_i coin hFinish hCoin
    have hElected :
        Bounded (m.loops l) →
          (m.loops l).handlesShare = false := by
      intro hBounded
      refine hBounded.elected ?_
      rw [hCoin]
      exact Option.some_ne_none _
    split at hStep
    · cases hStep
      exact .haltWith rfl hElected (.inl rfl)
    · split at hStep
      · rename_i hDone
        cases hStep
        refine
          .finish _ rfl rfl (fun hOpen => ?_) (.inl rfl)
            (fun _ => countedAt_none rfl)
            (fun _ => countedAt_none rfl) (fun hOpen => ?_)
            (fun hOpen => ?_) fun hBounded => ?_
        · have hOpen : m.mvbaDone = false := hOpen
          rw [hDone] at hOpen
          cases hOpen
        · have hOpen : m.mvbaDone = false := hOpen
          rw [hDone] at hOpen
          cases hOpen
        · have hOpen : m.mvbaDone = false := hOpen
          rw [hDone] at hOpen
          cases hOpen
        · have hFalse := hElected hBounded
          exact
            { hBounded with
              prev := by rintro _ _ _ _ ⟨⟩
              vote := by rintro _ _ _ ⟨⟩
              coin := by rintro _ ⟨⟩
              elected := fun _ => hFalse
              finish := fun _ => hFalse }
      · cases hStep
        refine
          .finish _ rfl rfl (by rintro _ ⟨⟩) (.inl rfl)
            (fun _ => ?_) (fun _ => ?_) (fun _ _ => .inr ?_)
            (fun _ hRank => ?_) fun hBounded => ?_
        · refine countedAt_same ?_ (Nat.le_refl _) (by rintro ⟨⟩)
          simp only [count, hFinish]
        · refine countedAt_same ?_ ?_ (by rintro ⟨⟩)
          · simp only [count, hFinish]
          · simp only [own, Nat.zero_le]
        · refine ⟨_, List.mem_singleton_self _, ?_, ?_⟩
          · split
            · rfl
            · rfl
          · split
            · rfl
            · rfl
        · simp only [rank] at hRank
          omega
        · have hFalse := hElected hBounded
          refine
            { hBounded with
              prev := ?_
              vote := by rintro _ _ _ ⟨⟩
              coin := by rintro _ ⟨⟩
              elected := fun _ => hFalse
              finish := fun _ => hFalse }
          intro _ _ _ _ hPrev
          cases hPrev
          exact maxCount_pos hN
  · cases hStep

/- The vote is cast. -/
theorem Moves.castVote
    (hN : 2 ≤ n)
    {noCombins' : List Signature} {prevCount' : Nat}
    {yesFlag' : Bool}
    (hOnly : Finishes (m.loops l) li)
    (hFinish :
      (m.loops l).finish =
        .prev coin yesFlag' noCombins' prevCount')
    (hStep :
      castVote cfg id m l li coin yesFlag noCombins accepted =
        some e) :
    Moves id m l (some .prev) e := by
  have hElected :
      Bounded (m.loops l) →
        (m.loops l).handlesShare = false := by
    intro hBounded
    refine hBounded.finish ?_
    rw [hFinish]
    rintro ⟨⟩
  have hEnd :
      ∀ {e : Effect n},
        e.mvba.loops =
            (m.setLoop l { li with finish := .done }).loops →
          m.mvbaDone = true →
            e.mvba.mvbaDone = m.mvbaDone →
              Moves id m l (some .prev) e := by
    intro e hLoops hDone hSame
    refine
      .finish _ hLoops ?_ (fun hOpen => ?_) (.inr (.inl rfl))
        (fun _ => countedAt_none rfl)
        (fun _ => countedAt_none rfl) (fun hOpen => ?_)
        (fun hOpen => ?_) fun hBounded => ?_
    · rw [hOnly]
      rfl
    · rw [hSame, hDone] at hOpen
      cases hOpen
    · rw [hSame, hDone] at hOpen
      cases hOpen
    · rw [hSame, hDone] at hOpen
      cases hOpen
    · have hFalse := hElected hBounded
      rw [hOnly]
      exact
        { hBounded with
          prev := by rintro _ _ _ _ ⟨⟩
          vote := by rintro _ _ _ ⟨⟩
          coin := by rintro _ ⟨⟩
          elected := fun _ => hFalse
          finish := fun _ => hFalse }
  have hCast :
      ∀ {e : Effect n} {yes no : List Signature},
        yes.length + no.length = 1 →
          e.mvba.loops =
              (m.setLoop l
                { li with finish := .vote coin yes no }).loops →
            Broadcasts id .vote l e.sent →
              Moves id m l (some .prev) e := by
    intro e yes no hOne hLoops hSent
    refine
      .finish _ hLoops ?_ (by rintro _ ⟨⟩) (.inr (.inl rfl))
        (fun _ => countedAt_none rfl) (fun _ => ?_)
        (fun _ _ => .inl ?_) (fun _ _ => .inr hSent)
        fun hBounded => ?_
    · rw [hOnly]
      rfl
    · intro k' hSome
      simp only [count, Option.some.injEq] at hSome
      refine ⟨0, by simp [count, hFinish], ?_⟩
      simp only [own, reduceCtorEq, Option.some.injEq,
        if_false]
      omega
    · rw [hFinish]
      exact Nat.le_refl 1
    · have hFalse := hElected hBounded
      rw [hOnly]
      refine
        { hBounded with
          prev := by rintro _ _ _ _ ⟨⟩
          vote := ?_
          coin := by rintro _ ⟨⟩
          elected := fun _ => hFalse
          finish := fun _ => hFalse }
      intro _ _ _ hVote
      cases hVote
      rw [hOne]
      exact maxCount_pos hN
  unfold SpeedingMVBA.castVote at hStep
  dsimp only at hStep
  split at hStep
  · cases hStep
    by_cases hDone : m.mvbaDone = true
    · rw [if_pos hDone]
      exact hEnd rfl hDone rfl
    · rw [if_neg hDone]
      exact
        hCast rfl rfl
          ⟨_, List.mem_singleton_self _, rfl, rfl⟩
  · rcases Option.map_eq_some_iff.mp hStep with
      ⟨batch, _, rfl⟩
    by_cases hDone : m.mvbaDone = true
    · rw [if_pos hDone]
      exact hEnd rfl hDone rfl
    · rw [if_neg hDone]
      exact
        hCast rfl rfl
          ⟨_, List.mem_singleton_self _, rfl, rfl⟩

/- A prevote is counted. -/
theorem Moves.countPrev
    (hN : 2 ≤ n)
    {noCombins' : List Signature} {yesFlag' : Bool}
    (hOnly : Finishes (m.loops l) li)
    (hFinish :
      (m.loops l).finish =
        .prev coin yesFlag' noCombins' prevCount)
    (hStep :
      countPrev cfg id m l li coin yesFlag noCombins
          (prevCount + 1) accepted =
        some e) :
    Moves id m l (some .prev) e := by
  unfold SpeedingMVBA.countPrev at hStep
  split at hStep
  · exact .castVote hN hOnly hFinish hStep
  · rename_i hFew
    cases hStep
    refine
      .finish _ rfl ?_ (by rintro _ ⟨⟩) (.inr (.inl rfl))
        (fun _ => ?_) (fun _ => ?_) (fun _ _ => .inl ?_)
        (fun _ hRank => ?_) fun hBounded => ?_
    · rw [hOnly]
      rfl
    · intro k' hSome
      simp only [count, Option.some.injEq] at hSome
      refine ⟨prevCount, by simp [count, hFinish], ?_⟩
      simp only [own, if_true]
      omega
    · refine countedAt_same ?_ ?_ (by rintro ⟨⟩)
      · simp only [count, hFinish]
      · simp only [own, Nat.zero_le]
    · rw [hFinish]
      exact Nat.le_refl 1
    · simp only [rank] at hRank
      omega
    · have hFalse : (m.loops l).handlesShare = false := by
        refine hBounded.finish ?_
        rw [hFinish]
        rintro ⟨⟩
      rw [hOnly]
      refine
        { hBounded with
          prev := ?_
          vote := by rintro _ _ _ ⟨⟩
          coin := by rintro _ ⟨⟩
          elected := fun _ => hFalse
          finish := fun _ => hFalse }
      intro _ _ _ _ hPrev
      cases hPrev
      omega

/- A combined signature that comes with a prevote verifies. -/
def GoodPrev
    (cfg : Config n) (l : Nat) (msg : Msg) : Prop :=
  ∀ batch, msg.ss = some batch →
    verifySigns cfg
        (cfg.marshal
          (cfg.rawMsg .pbc2 (cfg.coin l)
            (cfg.sha msg.rawMsg.values) l))
        batch =
      some true

/- A prevote for the coin is taken. -/
theorem Moves.handlePrevYes
    (hN : 2 ≤ n)
    (hGood : GoodPrev cfg l msg)
    (hCoin :
      ∀ coin yesFlag no count,
        (m.loops l).finish = .prev coin yesFlag no count →
          coin = cfg.coin l)
    (hStep : handlePrevYes cfg id m l msg = some e) :
    Moves id m l (some .prev) e := by
  unfold SpeedingMVBA.handlePrevYes at hStep
  dsimp only at hStep
  split at hStep
  · rename_i coin yesFlag noCombins prevCount hFinish
    split at hStep
    · refine .countPrev hN ?_ hFinish hStep
      exact rfl
    · rcases Option.bind_eq_some_iff.mp hStep with
        ⟨batch, hBatch, hStep⟩
      rcases Option.bind_eq_some_iff.mp hStep with
        ⟨res, hRes, hStep⟩
      have hTrue := hGood batch hBatch
      rw [← hCoin _ _ _ _ hFinish, hRes] at hTrue
      cases hTrue
      rw [if_pos rfl] at hStep
      refine .countPrev hN ?_ hFinish hStep
      exact rfl
  · cases hStep

/- A prevote against the coin is taken. -/
theorem Moves.handlePrevNo
    (hN : 2 ≤ n)
    (hStep : handlePrevNo cfg id m l msg = some e) :
    Moves id m l (some .prev) e := by
  unfold SpeedingMVBA.handlePrevNo at hStep
  dsimp only at hStep
  split at hStep
  · rename_i coin yesFlag noCombins prevCount hFinish
    split at hStep
    · refine .countPrev hN ?_ hFinish hStep
      exact rfl
    · rcases Option.bind_eq_some_iff.mp hStep with
        ⟨got, _, hStep⟩
      refine .countPrev hN ?_ hFinish hStep
      exact rfl
  · cases hStep

/- The loop is left for the next one. -/
theorem Moves.nextLoop
    {proofs : List (OldProof n)} {input : Bytes}
    {yes' no' : List Signature}
    (hOnly : Finishes (m.loops l) li)
    (hFinish : (m.loops l).finish = .vote coin yes' no') :
    Moves id m l (some .vote)
      (nextLoop cfg id m l li proofs input accepted
        assembled) := by
  have hElected :
      Bounded (m.loops l) →
        (m.loops l).handlesShare = false := by
    intro hBounded
    refine hBounded.finish ?_
    rw [hFinish]
    rintro ⟨⟩
  have hRank : 2 ≤ rank (m.loops l).finish := by
    rw [hFinish]
    exact Nat.le_refl 2
  by_cases hDone : m.mvbaDone = true
  · unfold SpeedingMVBA.nextLoop
    dsimp only
    rw [if_pos hDone]
    refine
      .finish { li with finish := .done } rfl ?_
        (fun hOpen => ?_) (.inr (.inr rfl))
        (fun _ => countedAt_none rfl)
        (fun _ => countedAt_none rfl)
        (fun _ _ => .inl (Nat.le_of_lt hRank))
        (fun _ _ => .inl hRank) fun hBounded => ?_
    · rw [hOnly]
      rfl
    · have hOpen : m.mvbaDone = false := hOpen
      rw [hDone] at hOpen
      cases hOpen
    · have hFalse := hElected hBounded
      rw [hOnly]
      exact
        { hBounded with
          prev := by rintro _ _ _ _ ⟨⟩
          vote := by rintro _ _ _ ⟨⟩
          coin := by rintro _ ⟨⟩
          elected := fun _ => hFalse
          finish := fun _ => hFalse }
  · unfold SpeedingMVBA.nextLoop
    dsimp only
    rw [if_neg hDone]
    refine
      .finish
        { li with lastinput := input, finish := .next }
        rfl ?_ (by rintro _ ⟨⟩) (.inr (.inr rfl))
        (fun _ => countedAt_none rfl)
        (fun _ => countedAt_none rfl)
        (fun _ _ => .inl (Nat.le_of_lt hRank))
        (fun _ _ => .inl hRank) fun hBounded => ?_
    · rw [hOnly]
      rfl
    · have hFalse := hElected hBounded
      rw [hOnly]
      exact
        { hBounded with
          prev := by rintro _ _ _ _ ⟨⟩
          vote := by rintro _ _ _ ⟨⟩
          coin := by rintro _ ⟨⟩
          elected := fun _ => hFalse
          finish := fun _ => hFalse }

/- A vote is counted. -/
theorem Moves.countVotes
    {yes' no' : List Signature}
    (hOnly : Finishes (m.loops l) li)
    (hFinish : (m.loops l).finish = .vote coin yes' no')
    (hMore :
      yes'.length + no'.length + 1 = yes.length + no.length)
    (hStep :
      countVotes cfg id m l li coin yes no values accepted =
        some e) :
    Moves id m l (some .vote) e := by
  have hElected :
      Bounded (m.loops l) → li.handlesShare = false := by
    intro hBounded
    rw [hOnly]
    refine hBounded.finish ?_
    rw [hFinish]
    rintro ⟨⟩
  unfold SpeedingMVBA.countVotes at hStep
  split at hStep
  · split at hStep
    · split at hStep
      · cases hStep
        exact .haltWith hOnly hElected (.inr (.inr rfl))
      · rcases Option.map_eq_some_iff.mp hStep with
          ⟨batch, _, rfl⟩
        exact .haltWith hOnly hElected (.inr (.inr rfl))
    · split at hStep
      · rcases Option.map_eq_some_iff.mp hStep with
          ⟨batch, _, rfl⟩
        exact .nextLoop hOnly hFinish
      · cases hStep
        exact .nextLoop hOnly hFinish
  · rename_i hFew
    cases hStep
    refine
      .finish _ rfl ?_ (by rintro _ ⟨⟩) (.inr (.inr rfl))
        (fun _ => countedAt_none rfl) (fun _ => ?_)
        (fun _ _ => .inl ?_) (fun _ _ => .inl ?_)
        fun hBounded => ?_
    · rw [hOnly]
      rfl
    · intro k' hSome
      simp only [count, Option.some.injEq] at hSome
      refine
        ⟨yes'.length + no'.length, by simp [count, hFinish], ?_⟩
      simp only [own, if_true, hFinish]
      omega
    · rw [hFinish]
      exact Nat.le_succ 1
    · rw [hFinish]
      exact Nat.le_refl 2
    · have hFalse : (m.loops l).handlesShare = false := by
        refine hBounded.finish ?_
        rw [hFinish]
        rintro ⟨⟩
      rw [hOnly]
      refine
        { hBounded with
          prev := by rintro _ _ _ _ ⟨⟩
          vote := ?_
          coin := by rintro _ ⟨⟩
          elected := fun _ => hFalse
          finish := fun _ => hFalse }
      intro _ _ _ hVote
      cases hVote
      omega

/- A vote for the coin is taken. -/
theorem Moves.handleVoteYes
    (hStep : handleVoteYes cfg id m l msg = some e) :
    Moves id m l (some .vote) e := by
  unfold SpeedingMVBA.handleVoteYes at hStep
  dsimp only at hStep
  split at hStep
  · rename_i coin yes no hFinish
    rcases Option.bind_eq_some_iff.mp hStep with
      ⟨cert, _, hStep⟩
    rcases Option.bind_eq_some_iff.mp hStep with
      ⟨got, _, hStep⟩
    refine .countVotes ?_ hFinish ?_ hStep
    · exact rfl
    rw [List.length_append, List.length_singleton]
    omega
  · cases hStep

/- A vote against the coin is taken. -/
theorem Moves.handleVoteNo
    (hStep : handleVoteNo cfg id m l msg = some e) :
    Moves id m l (some .vote) e := by
  unfold SpeedingMVBA.handleVoteNo at hStep
  dsimp only at hStep
  split at hStep
  · rename_i coin yes no hFinish
    rcases Option.bind_eq_some_iff.mp hStep with
      ⟨cert, _, hStep⟩
    rcases Option.bind_eq_some_iff.mp hStep with
      ⟨got, _, hStep⟩
    refine .countVotes ?_ hFinish ?_ hStep
    · exact rfl
    rw [List.length_append, List.length_singleton]
    omega
  · cases hStep

end Votes

end Agreement

end SpeedingMVBA

end Jumbo
