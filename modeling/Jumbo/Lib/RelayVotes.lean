import Mathlib.Data.Finset.Card
import Jumbo.Lib.RelayMessages

/-
  Votes in a lane: messages with a sender and a value.

  A worker that counts no second vote of a sender for a value
  has counted as many senders as votes for it.

  Main declarations:
    * `Ballot`
    * `Ballot.countsOnce`
    * `Ballot.Polled`
    * `Ballot.Tallies`
    * `Ballot.Audited`
    * `Ballot.Audited.quorum`
-/

------------------------------------------------------------
-- Votes
------------------------------------------------------------

namespace Protocol

namespace Relay

/- Who votes, and for what. -/
structure Ballot (α ι β : Type*) where
  sender : α → ι
  value : α → β

namespace Ballot

variable {α ι β σ : Type*} [DecidableEq β]

/- The messages that vote for a value. -/
def votesFor
    (bl : Ballot α ι β) (v : β) (msgs : List α) : List α :=
  msgs.filter fun msg => decide (bl.value msg = v)

/- No sender votes twice for a value. -/
def Distinct
    (bl : Ballot α ι β) (msgs : List α) : Prop :=
  ∀ v, ((bl.votesFor v msgs).map bl.sender).Nodup

/- The message is not the second one of its sender. -/
def firstOf
    [DecidableEq ι] (bl : Ballot α ι β) (msgs : List α) (msg : α) : Bool :=
  msgs.all fun other =>
    decide
      (bl.value other = bl.value msg →
        bl.sender other ≠ bl.sender msg)

/-
  The condition on reading a vote: none of its sender for its
  value has been counted for the round.
-/
def countsOnce
    [DecidableEq ι] (bl : Ballot α ι β) (hd : Handler α σ)
    (L : Lane α σ) (i : Nat) : Bool :=
  match (L.workers i).pc with
  | .holding msg =>
      decide (hd.round msg ≠ i) ||
        bl.firstOf (L.workers i).handled msg
  | _ => true

section Distinct

variable {bl : Ballot α ι β} {msgs : List α} {msg : α}

/- One more message is one vote more at most. -/
theorem votesFor_append (v : β) :
    bl.votesFor v (msgs ++ [msg]) =
      bl.votesFor v msgs ++
        if bl.value msg = v then [msg] else [] := by
  unfold votesFor
  rw [List.filter_append, List.filter_singleton]
  by_cases hValue : bl.value msg = v
  · rw [if_pos hValue, decide_eq_true hValue]
    rfl
  · rw [if_neg hValue, decide_eq_false hValue]
    rfl

/- Votes for a value are messages with that value. -/
theorem mem_votesFor {v : β} :
    msg ∈ bl.votesFor v msgs ↔
      msg ∈ msgs ∧ bl.value msg = v := by
  unfold votesFor
  rw [List.mem_filter, decide_eq_true_eq]

theorem distinct_nil : bl.Distinct [] :=
  fun _ => List.nodup_nil

/- A first vote of its sender keeps senders apart. -/
theorem Distinct.append
    [DecidableEq ι] (hDistinct : bl.Distinct msgs)
    (hFirst : bl.firstOf msgs msg = true) :
    bl.Distinct (msgs ++ [msg]) := by
  intro v
  rw [votesFor_append]
  split
  · rename_i hValue
    rw [List.map_append, List.nodup_append]
    refine ⟨hDistinct v, List.nodup_singleton _, ?_⟩
    intro id hMem other hOther hEq
    rcases List.mem_map.mp hMem with ⟨old, hOld, hId⟩
    cases List.mem_singleton.mp hOther
    rcases mem_votesFor.mp hOld with ⟨hIn, hSame⟩
    have hApart :=
      of_decide_eq_true (List.all_eq_true.mp hFirst old hIn)
    exact hApart (hSame.trans hValue.symm) (hId.trans hEq)
  · rw [List.append_nil]
    exact hDistinct v

/- As many votes, as many voters. -/
theorem Distinct.voters
    [DecidableEq ι] (hDistinct : bl.Distinct msgs)
    {v : β} {k : Nat}
    (hLength : (bl.votesFor v msgs).length = k) :
    ∃ S : Finset ι, S.card = k ∧
      ∀ j ∈ S, ∃ msg ∈ msgs,
        bl.value msg = v ∧ bl.sender msg = j := by
  refine
    ⟨((bl.votesFor v msgs).map bl.sender).toFinset, ?_, ?_⟩
  · rw [List.toFinset_card_of_nodup (hDistinct v),
      List.length_map, hLength]
  · intro j hMem
    rcases List.mem_map.mp (List.mem_toFinset.mp hMem) with
      ⟨msg, hVote, hSender⟩
    rcases mem_votesFor.mp hVote with ⟨hIn, hValue⟩
    exact ⟨msg, hIn, hValue, hSender⟩

end Distinct

------------------------------------------------------------
-- Votes That a Worker Has Handled
------------------------------------------------------------

/- The votes handled are of the round and of one vote each. -/
def Polled
    (bl : Ballot α ι β) (hd : Handler α σ) (L : Lane α σ) :
    Prop :=
  L.Worked fun i _ handled =>
    (∀ msg ∈ handled, hd.round msg = i) ∧ bl.Distinct handled

/- `count` of a state is how often a value is voted for. -/
structure Tallies
    (bl : Ballot α ι β) (hd : Handler α σ)
    (count : σ → β → Nat) : Prop where
  new : ∀ v, count hd.new v = 0
  own :
    ∀ {stop i state msg reading},
      hd.read stop i state msg = some reading →
        hd.round msg = i → ∀ v,
          count reading.state v =
            count state v +
              if bl.value msg = v then 1 else 0
  other :
    ∀ {stop i state msg reading},
      hd.read stop i state msg = some reading →
        hd.round msg ≠ i → ∀ v,
          count reading.state v = count state v

/- The counts are those of the votes handled. -/
def Counted
    (bl : Ballot α ι β) (count : σ → β → Nat) (L : Lane α σ) :
    Prop :=
  L.Worked fun _ state handled =>
    ∀ v, count state v = (bl.votesFor v handled).length

section Handled

variable {bl : Ballot α ι β} {hd : Handler α σ}
variable {count : σ → β → Nat} {L L' : Lane α σ}
variable {i : Nat} {a : Act}

/- With the guard a counted message is its sender's first. -/
theorem countsOnce_first
    [DecidableEq ι] {msg : α}
    (hOnce : bl.countsOnce hd L i = true)
    (hPc : (L.workers i).pc = .holding msg)
    (hOwn : hd.round msg = i) :
    bl.firstOf (L.workers i).handled msg = true := by
  unfold countsOnce at hOnce
  rw [hPc] at hOnce
  dsimp only at hOnce
  rw [decide_eq_false (not_not_intro hOwn),
    Bool.false_or] at hOnce
  exact hOnce

/- A new worker has counted nobody. -/
theorem polled_new (i : Nat) :
    (∀ msg ∈ ([] : List α), hd.round msg = i) ∧
      bl.Distinct [] :=
  ⟨List.forall_mem_nil _, distinct_nil⟩

/- A worker counts nobody twice under the guard. -/
theorem Polled.act
    [DecidableEq ι] (hPolled : bl.Polled hd L)
    (hOnce : a = .work → bl.countsOnce hd L i = true)
    (hExec : L.act hd i a = some L') :
    bl.Polled hd L' := by
  refine Lane.Worked.act hPolled ?_ hExec
  intro msg reading hWork hPc _
  rcases hPolled i with ⟨hOwn, hDistinct⟩
  split
  · rename_i hRound
    refine
      ⟨?_,
        hDistinct.append
          (countsOnce_first (hOnce hWork) hPc hRound)⟩
    intro other hMem
    rcases List.mem_append.mp hMem with hOld | hNew
    · exact hOwn other hOld
    · cases List.mem_singleton.mp hNew
      exact hRound
  · exact ⟨hOwn, hDistinct⟩

/- A new worker has all counts at zero. -/
theorem counted_new
    (hTallies : bl.Tallies hd count) (v : β) :
    count hd.new v = (bl.votesFor v []).length :=
  hTallies.new v

/- The counts follow the messages that are handled. -/
theorem Counted.act
    (hTallies : bl.Tallies hd count)
    (hCounted : bl.Counted count L)
    (hExec : L.act hd i a = some L') :
    bl.Counted count L' := by
  refine Lane.Worked.act hCounted ?_ hExec
  intro msg reading _ _ hRead v
  split
  · rename_i hOwn
    rw [hTallies.own hRead hOwn, votesFor_append,
      List.length_append, hCounted i v]
    split
    · rfl
    · rfl
  · rename_i hOther
    rw [hTallies.other hRead hOther, hCounted i v]

end Handled

------------------------------------------------------------
-- A Lane of Votes
------------------------------------------------------------

/- All votes have the property, and are counted rightly. -/
structure Audited
    (bl : Ballot α ι β) (hd : Handler α σ)
    (count : σ → β → Nat) (P : α → Prop) (L : Lane α σ) :
    Prop where
  all : L.All P
  polled : bl.Polled hd L
  counted : bl.Counted count L

section Audited

variable {bl : Ballot α ι β} {hd : Handler α σ}
variable {count : σ → β → Nat} {P Q : α → Prop}
variable {L L' : Lane α σ}

/- At the start there is nothing to audit. -/
theorem audited_init (hTallies : bl.Tallies hd count) :
    bl.Audited hd count P (Lane.init hd) where
  all := Lane.all_init
  polled := Lane.worked_init polled_new
  counted := Lane.worked_init fun _ => counted_new hTallies

/- Weaken the property of the messages. -/
theorem Audited.mono
    (hAudited : bl.Audited hd count P L)
    (hSubset : ∀ msg, P msg → Q msg) :
    bl.Audited hd count Q L :=
  { hAudited with all := hAudited.all.mono hSubset }

/- A good message may arrive. -/
theorem Audited.arrive
    (hAudited : bl.Audited hd count P L)
    {msg : α} (hMsg : P msg) :
    bl.Audited hd count P (L.arrive hd msg) where
  all := hAudited.all.arrive hMsg
  polled := Lane.Worked.same hAudited.polled rfl
  counted := Lane.Worked.same hAudited.counted rfl

/- Preparing a round counts nothing. -/
theorem Audited.prepare
    (hTallies : bl.Tallies hd count)
    (hAudited : bl.Audited hd count P L)
    (hExec : L.prepare hd = some L') :
    bl.Audited hd count P L' where
  all := hAudited.all.prepare hExec
  polled := Lane.Worked.prepare polled_new hAudited.polled hExec
  counted :=
    Lane.Worked.prepare (fun _ => counted_new hTallies)
      hAudited.counted hExec

/- The end of a round counts nothing. -/
theorem Audited.close
    (hAudited : bl.Audited hd count P L)
    (hExec : L.close = some L') :
    bl.Audited hd count P L' where
  all := hAudited.all.close hExec
  polled :=
    Lane.Worked.same hAudited.polled (Lane.close_workers hExec)
  counted :=
    Lane.Worked.same hAudited.counted (Lane.close_workers hExec)

/- The next round starts with empty counts. -/
theorem Audited.next
    (hAudited : bl.Audited hd count P L)
    (hExec : L.next = some L') :
    bl.Audited hd count P L' where
  all := hAudited.all.next hExec
  polled :=
    Lane.Worked.same hAudited.polled (Lane.next_workers hExec)
  counted :=
    Lane.Worked.same hAudited.counted (Lane.next_workers hExec)

/- One statement of a worker keeps the counts true. -/
theorem Audited.act
    [DecidableEq ι] (hTallies : bl.Tallies hd count)
    (hSendsOn : SendsOn hd)
    (hAudited : bl.Audited hd count P L) {i : Nat} {a : Act}
    (hOnce : a = .work → bl.countsOnce hd L i = true)
    (hExec : L.act hd i a = some L') :
    bl.Audited hd count P L' where
  all := hAudited.all.act hSendsOn hExec
  polled := hAudited.polled.act hOnce hExec
  counted := hAudited.counted.act hTallies hExec

/- What is counted is voted for by as many parties. -/
theorem Audited.quorum
    [DecidableEq ι] (hAudited : bl.Audited hd count P L)
    {i k : Nat} {v : β}
    (hCount : count (L.workers i).state v = k) :
    ∃ S : Finset ι, S.card = k ∧
      ∀ j ∈ S, ∃ msg, P msg ∧ hd.round msg = i ∧
        bl.value msg = v ∧ bl.sender msg = j := by
  rcases hAudited.polled i with ⟨hOwn, hDistinct⟩
  have hLength := (hAudited.counted i v).symm.trans hCount
  rcases hDistinct.voters hLength with ⟨S, hCard, hS⟩
  refine ⟨S, hCard, fun j hMem => ?_⟩
  rcases hS j hMem with ⟨msg, hIn, hValue, hSender⟩
  exact
    ⟨msg, hAudited.all.handled i msg hIn, hOwn msg hIn, hValue,
      hSender⟩

end Audited

end Ballot

end Relay

end Protocol
