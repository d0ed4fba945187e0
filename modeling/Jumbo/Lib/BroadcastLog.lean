import Mathlib.Data.Fintype.Card

/-
  A log of broadcast messages with, for every receiver, the
  place each message has reached at that receiver.

  Every broadcast is appended once; receivers differ only in
  where they hold it. Counting what one receiver holds at one
  place is counting positions of the log, so two receivers
  are compared through the log they share.

  Main declarations:
    * `BroadcastLog`
    * `BroadcastLog.post`
    * `BroadcastLog.move`
    * `BroadcastLog.relocate`
    * `BroadcastLog.tally`
    * `BroadcastLog.total`
    * `BroadcastLog.senders`
-/

------------------------------------------------------------
-- Logs
------------------------------------------------------------

namespace Protocol

/- Messages in sending order and their places by receiver. -/
structure BroadcastLog (n : Nat) (M L : Type) where
  sent : List M
  loc : Fin n → Nat → L

namespace BroadcastLog

variable {n : Nat} {M L : Type}

/-
  Append a broadcast: the sender holds it at `own`, every
  other receiver at `away`.
-/
def post
    (log : BroadcastLog n M L)
    (src : Fin n)
    (own away : L)
    (m : M) : BroadcastLog n M L where
  sent := log.sent ++ [m]
  loc := fun p i =>
    if i = log.sent.length then
      if p = src then own else away
    else log.loc p i

/- Append a list of broadcasts of one sender. -/
def postAll
    (log : BroadcastLog n M L)
    (src : Fin n)
    (own away : L) : List M → BroadcastLog n M L
| [] => log
| m :: ms => (log.post src own away m).postAll src own away ms

/- Give one receiver new places for all its messages. -/
def relocate
    (log : BroadcastLog n M L)
    (p : Fin n)
    (places : Nat → L) : BroadcastLog n M L where
  sent := log.sent
  loc := fun q i => if q = p then places i else log.loc q i

/- Move one message of one receiver to a new place. -/
def move
    (log : BroadcastLog n M L)
    (p : Fin n)
    (i : Nat)
    (l : L) : BroadcastLog n M L :=
  log.relocate p fun j => if j = i then l else log.loc p j

@[simp] theorem post_sent
    (log : BroadcastLog n M L)
    (src : Fin n) (own away : L) (m : M) :
    (log.post src own away m).sent = log.sent ++ [m] := rfl

@[simp] theorem relocate_sent
    (log : BroadcastLog n M L)
    (p : Fin n) (places : Nat → L) :
    (log.relocate p places).sent = log.sent := rfl

@[simp] theorem move_sent
    (log : BroadcastLog n M L)
    (p : Fin n) (i : Nat) (l : L) :
    (log.move p i l).sent = log.sent := rfl

/- Messages are posted in order, behind the others. -/
@[simp] theorem postAll_sent
    (log : BroadcastLog n M L)
    (src : Fin n) (own away : L) (ms : List M) :
    (log.postAll src own away ms).sent =
      log.sent ++ ms := by
  induction ms generalizing log with
  | nil => simp [postAll]
  | cons m ms ih => simp [postAll, ih]

/- The message that is moved is at its new place. -/
theorem move_loc_self
    (log : BroadcastLog n M L)
    (p : Fin n) (i : Nat) (l : L) :
    (log.move p i l).loc p i = l := by
  simp [move, relocate]

/- All other messages stay where they are. -/
theorem move_loc_of_ne
    (log : BroadcastLog n M L)
    {p q : Fin n} {i j : Nat} (l : L)
    (hNe : q ≠ p ∨ j ≠ i) :
    (log.move p i l).loc q j = log.loc q j := by
  by_cases hq : q = p
  · subst hq
    have hj : j ≠ i := by simpa using hNe
    simp [move, relocate, hj]
  · simp [move, relocate, hq]

/- Posting leaves the earlier messages where they are. -/
theorem post_loc_of_lt
    (log : BroadcastLog n M L)
    (src p : Fin n) (own away : L) (m : M) {i : Nat}
    (hLt : i < log.sent.length) :
    (log.post src own away m).loc p i = log.loc p i := by
  simp [post, Nat.ne_of_lt hLt]

theorem postAll_loc_of_lt
    (log : BroadcastLog n M L)
    (src p : Fin n) (own away : L) (ms : List M) {i : Nat}
    (hLt : i < log.sent.length) :
    (log.postAll src own away ms).loc p i =
      log.loc p i := by
  induction ms generalizing log with
  | nil => rfl
  | cons m ms ih =>
      have hLonger :
          i < (log.post src own away m).sent.length := by
        simp only [post_sent, List.length_append,
          List.length_singleton]
        omega
      rw [postAll, ih _ hLonger,
        post_loc_of_lt _ _ _ _ _ _ hLt]

/- A fresh broadcast waits at `own` or `away`. -/
theorem postAll_loc_of_ge
    (log : BroadcastLog n M L)
    (src p : Fin n) (own away : L) (ms : List M) {i : Nat}
    (hGe : log.sent.length ≤ i)
    (hLt : i < log.sent.length + ms.length) :
    (log.postAll src own away ms).loc p i =
      if p = src then own else away := by
  induction ms generalizing log with
  | nil =>
      simp only [List.length_nil] at hLt
      omega
  | cons m ms ih =>
      rw [postAll]
      by_cases hEq : i = log.sent.length
      · rw [postAll_loc_of_lt _ _ _ _ _ _ (by
          simp [hEq])]
        simp [post, hEq]
      · apply ih
        · simp only [post_sent, List.length_append,
            List.length_singleton]
          omega
        · simp only [post_sent, List.length_append,
            List.length_singleton]
          simp only [List.length_cons] at hLt
          omega

end BroadcastLog

end Protocol

------------------------------------------------------------
-- Positions and Counts
------------------------------------------------------------

namespace Protocol

namespace BroadcastLog

variable {n : Nat} {M L : Type} [DecidableEq L]

/- Positions of the messages with a property. -/
def positions
    (log : BroadcastLog n M L)
    (P : M → Bool) : Finset Nat :=
  (Finset.range log.sent.length).filter fun i =>
    (log.sent[i]?).any P = true

/- Positions with a property held at one place. -/
def settled
    (log : BroadcastLog n M L)
    (p : Fin n) (l : L)
    (P : M → Bool) : Finset Nat :=
  (log.positions P).filter fun i => log.loc p i = l

/- How many broadcasts have a property. -/
def total
    (log : BroadcastLog n M L)
    (P : M → Bool) : Nat :=
  (log.positions P).card

/- How many of them one receiver holds at one place. -/
def tally
    (log : BroadcastLog n M L)
    (p : Fin n) (l : L)
    (P : M → Bool) : Nat :=
  (log.settled p l P).card

omit [DecidableEq L] in
/- The positions of the messages with a property. -/
theorem mem_positions_iff
    (log : BroadcastLog n M L)
    (P : M → Bool) (i : Nat) :
    i ∈ log.positions P ↔
      ∃ m, log.sent[i]? = some m ∧ P m = true := by
  simp only [positions, Finset.mem_filter,
    Finset.mem_range, Option.any_eq_true]
  constructor
  · rintro ⟨_, m, hm, hP⟩
    exact ⟨m, hm, hP⟩
  · rintro ⟨m, hm, hP⟩
    exact ⟨(List.getElem?_eq_some_iff.mp hm).1,
      m, hm, hP⟩

/- The messages a party has brought to a place. -/
theorem mem_settled_iff
    (log : BroadcastLog n M L)
    (p : Fin n) (l : L) (P : M → Bool) (i : Nat) :
    i ∈ log.settled p l P ↔
      (∃ m, log.sent[i]? = some m ∧ P m = true) ∧
        log.loc p i = l := by
  simp [settled, mem_positions_iff]

/- A receiver holds no more than was sent. -/
theorem tally_le_total
    (log : BroadcastLog n M L)
    (p : Fin n) (l : L) (P : M → Bool) :
    log.tally p l P ≤ log.total P :=
  Finset.card_filter_le _ _

/- A receiver that holds everything holds the total. -/
theorem tally_eq_total
    (log : BroadcastLog n M L)
    (p : Fin n) (l : L) (P : M → Bool)
    (hAll :
      ∀ i m, log.sent[i]? = some m → P m = true →
        log.loc p i = l) :
    log.tally p l P = log.total P := by
  have hEq : log.settled p l P = log.positions P := by
    ext i
    rw [mem_settled_iff, mem_positions_iff]
    constructor
    · exact fun h => h.1
    · rintro ⟨m, hm, hP⟩
      exact ⟨⟨m, hm, hP⟩, hAll i m hm hP⟩
  rw [tally, total, hEq]

omit [DecidableEq L] in
/- The total counts the list of messages. -/
theorem total_eq_countP
    (log : BroadcastLog n M L)
    (P : M → Bool) :
    log.total P = log.sent.countP P := by
  rcases log with ⟨sent, loc⟩
  unfold total positions
  dsimp only
  induction sent using List.reverseRecOn with
  | nil => rfl
  | append_singleton sent m ih =>
      have hOld :
          ((Finset.range sent.length).filter fun i =>
              ((sent ++ [m])[i]?).any P = true) =
            (Finset.range sent.length).filter fun i =>
              (sent[i]?).any P = true := by
        apply Finset.filter_congr
        intro i hi
        rw [List.getElem?_append_left
          (Finset.mem_range.mp hi)]
      rw [List.length_append, List.length_singleton,
        Finset.range_add_one, Finset.filter_insert, hOld,
        List.getElem?_concat_length, List.countP_append,
        List.countP_singleton, ← ih]
      by_cases hP : P m = true
      · simp [hP]
      · simp [hP]

omit [DecidableEq L] in
/- Where at most one message has a property, it is one. -/
theorem eq_of_total_le_one
    (log : BroadcastLog n M L)
    {P : M → Bool} (hOne : log.total P ≤ 1)
    {i j : Nat} {m m' : M}
    (hm : log.sent[i]? = some m) (hP : P m = true)
    (hm' : log.sent[j]? = some m') (hP' : P m' = true) :
    i = j :=
  Finset.card_le_one.mp hOne i
    ((log.mem_positions_iff P i).mpr ⟨m, hm, hP⟩) j
    ((log.mem_positions_iff P j).mpr ⟨m', hm', hP'⟩)

omit [DecidableEq L] in
/- A weaker property has no fewer positions. -/
theorem total_mono
    (log : BroadcastLog n M L)
    {P Q : M → Bool}
    (hImp : ∀ m, P m = true → Q m = true) :
    log.total P ≤ log.total Q := by
  apply Finset.card_le_card
  intro i hi
  rw [mem_positions_iff] at hi ⊢
  rcases hi with ⟨m, hm, hP⟩
  exact ⟨m, hm, hImp m hP⟩

end BroadcastLog

end Protocol

------------------------------------------------------------
-- How Posting and Moving Change the Counts
------------------------------------------------------------

namespace Protocol

namespace BroadcastLog

variable {n : Nat} {M L : Type} [DecidableEq L]

omit [DecidableEq L] in
theorem getElem?_postAll_of_lt
    (log : BroadcastLog n M L)
    (src : Fin n) (own away : L) (ms : List M) {i : Nat}
    (hLt : i < log.sent.length) :
    (log.postAll src own away ms).sent[i]? =
      log.sent[i]? := by
  rw [postAll_sent, List.getElem?_append_left hLt]

/- Posting to places other than `l` keeps counts at `l`. -/
theorem tally_postAll
    (log : BroadcastLog n M L)
    (src p : Fin n) {own away l : L} (ms : List M)
    (P : M → Bool)
    (hOwn : own ≠ l) (hAway : away ≠ l) :
    (log.postAll src own away ms).tally p l P =
      log.tally p l P := by
  unfold tally
  congr 1
  ext i
  rw [mem_settled_iff, mem_settled_iff]
  by_cases hLt : i < log.sent.length
  · rw [getElem?_postAll_of_lt _ _ _ _ _ hLt,
      postAll_loc_of_lt _ _ _ _ _ _ hLt]
  · have hNone : log.sent[i]? = none :=
      List.getElem?_eq_none (Nat.le_of_not_lt hLt)
    constructor
    · rintro ⟨⟨m, hm, _⟩, hLoc⟩
      have hBound :
          i < log.sent.length + ms.length := by
        have hSome := (List.getElem?_eq_some_iff.mp hm).1
        simpa using hSome
      rw [postAll_loc_of_ge _ _ _ _ _ _
        (Nat.le_of_not_lt hLt) hBound] at hLoc
      split at hLoc
      · exact absurd hLoc hOwn
      · exact absurd hLoc hAway
    · rintro ⟨⟨m, hm, _⟩, _⟩
      rw [hNone] at hm
      cases hm

/- Places that agree at `l` give equal counts at `l`. -/
theorem tally_relocate
    (log : BroadcastLog n M L)
    (p q : Fin n) (places : Nat → L) (l : L)
    (P : M → Bool)
    (hKeep : ∀ i, places i = l ↔ log.loc p i = l) :
    (log.relocate p places).tally q l P =
      log.tally q l P := by
  unfold tally
  congr 1
  ext i
  rw [mem_settled_iff, mem_settled_iff]
  by_cases hq : q = p
  · subst hq
    simp [relocate, hKeep]
  · simp [relocate, hq]

/- Moving a message between other places keeps counts. -/
theorem tally_move_other
    (log : BroadcastLog n M L)
    (p q : Fin n) (i : Nat) {l l' : L}
    (P : M → Bool)
    (hTo : l' ≠ l) (hFrom : log.loc p i ≠ l) :
    (log.move p i l').tally q l P = log.tally q l P := by
  apply tally_relocate
  intro j
  by_cases hj : j = i
  · subst hj
    simp [hTo, hFrom]
  · simp [hj]

/- Moving a message does not touch other receivers. -/
theorem tally_move_of_ne
    (log : BroadcastLog n M L)
    {p q : Fin n} (i : Nat) (l l' : L)
    (P : M → Bool)
    (hNe : q ≠ p) :
    (log.move p i l').tally q l P = log.tally q l P := by
  unfold tally
  congr 1
  ext j
  rw [mem_settled_iff, mem_settled_iff]
  simp [move, relocate, hNe]

/- Moving a message to `l` adds it to the counts at `l`. -/
theorem tally_move_to
    (log : BroadcastLog n M L)
    (p : Fin n) {i : Nat} {l : L} {m : M}
    (P : M → Bool)
    (hMsg : log.sent[i]? = some m)
    (hFrom : log.loc p i ≠ l) :
    (log.move p i l).tally p l P =
      log.tally p l P + if P m = true then 1 else 0 := by
  have hNot : i ∉ log.settled p l P := by
    rw [mem_settled_iff]
    exact fun h => hFrom h.2
  by_cases hP : P m = true
  · have hInsert :
        (log.move p i l).settled p l P =
          insert i (log.settled p l P) := by
      ext j
      rw [Finset.mem_insert, mem_settled_iff,
        mem_settled_iff]
      by_cases hj : j = i
      · subst hj
        simp [move_loc_self, hMsg, hP]
      · simp [move_loc_of_ne, hj]
    rw [tally, hInsert, Finset.card_insert_of_notMem hNot,
      if_pos hP, tally]
  · have hSame :
        (log.move p i l).settled p l P =
          log.settled p l P := by
      ext j
      rw [mem_settled_iff, mem_settled_iff]
      by_cases hj : j = i
      · subst hj
        simp [hMsg, hP]
      · simp [move_loc_of_ne, hj]
    rw [tally, hSame, if_neg hP, tally, Nat.add_zero]

/- Posting takes nothing away from what is held. -/
theorem tally_le_postAll
    (log : BroadcastLog n M L)
    (src p : Fin n) (own away l : L) (ms : List M)
    (P : M → Bool) :
    log.tally p l P ≤
      (log.postAll src own away ms).tally p l P := by
  apply Finset.card_le_card
  intro i hi
  rw [mem_settled_iff] at hi ⊢
  rcases hi with ⟨⟨m, hm, hP⟩, hLoc⟩
  have hLt := (List.getElem?_eq_some_iff.mp hm).1
  rw [getElem?_postAll_of_lt _ _ _ _ _ hLt,
    postAll_loc_of_lt _ _ _ _ _ _ hLt]
  exact ⟨⟨m, hm, hP⟩, hLoc⟩

/- The sender holds what it posts. -/
theorem tally_postAll_pos
    (log : BroadcastLog n M L)
    (src : Fin n) (own away : L) {ms : List M}
    {P : M → Bool} {m : M}
    (hMem : m ∈ ms) (hP : P m = true) :
    0 < (log.postAll src own away ms).tally src own P := by
  rcases List.mem_iff_getElem?.mp hMem with ⟨i, hm⟩
  have hLt := (List.getElem?_eq_some_iff.mp hm).1
  apply Finset.card_pos.mpr
  refine ⟨log.sent.length + i, ?_⟩
  rw [mem_settled_iff]
  refine ⟨⟨m, ?_, hP⟩, ?_⟩
  · rw [postAll_sent,
      List.getElem?_append_right (Nat.le_add_right _ _),
      Nat.add_sub_cancel_left]
    exact hm
  · rw [postAll_loc_of_ge _ _ _ _ _ _
      (Nat.le_add_right _ _)
      (Nat.add_lt_add_left hLt _), if_pos rfl]

/- Moving a message to a place adds to what is held there. -/
theorem tally_le_move
    (log : BroadcastLog n M L)
    (p q : Fin n) (i : Nat) (l : L) (P : M → Bool) :
    log.tally q l P ≤ (log.move p i l).tally q l P := by
  apply Finset.card_le_card
  intro j hj
  rw [mem_settled_iff] at hj ⊢
  refine ⟨hj.1, ?_⟩
  by_cases hSame : q = p ∧ j = i
  · rcases hSame with ⟨rfl, rfl⟩
    exact move_loc_self _ _ _ _
  · rw [move_loc_of_ne _ _ (not_and_or.mp hSame)]
    exact hj.2

end BroadcastLog

end Protocol

------------------------------------------------------------
-- Senders
------------------------------------------------------------

namespace Protocol

namespace BroadcastLog

variable {n : Nat} {M L : Type} [DecidableEq L]

/- The parties that sent some message with a property. -/
def senders
    (log : BroadcastLog n M L)
    (src : M → Fin n)
    (P : M → Bool) : Finset (Fin n) :=
  Finset.univ.filter fun q =>
    ∃ m ∈ log.sent, P m = true ∧ src m = q

omit [DecidableEq L] in
/- Somebody is a sender if one of its messages is there. -/
theorem mem_senders_iff
    (log : BroadcastLog n M L)
    (src : M → Fin n) (P : M → Bool) (q : Fin n) :
    q ∈ log.senders src P ↔
      ∃ m ∈ log.sent, P m = true ∧ src m = q := by
  simp [senders]

/- No sender has two messages with the property. -/
def OncePerSender
    (log : BroadcastLog n M L)
    (src : M → Fin n)
    (P : M → Bool) : Prop :=
  ∀ (i j : Nat) (m m' : M),
    log.sent[i]? = some m → log.sent[j]? = some m' →
      P m = true → P m' = true →
        src m = src m' → i = j

omit [DecidableEq L] in
/- A list without repeats by one sender is such a log. -/
theorem oncePerSender_of_pairwise
    (log : BroadcastLog n M L)
    (src : M → Fin n) (P : M → Bool)
    (hPair :
      log.sent.Pairwise fun m m' =>
        P m = true → P m' = true → src m ≠ src m') :
    log.OncePerSender src P := by
  have hLt :
      ∀ (i j : Nat) (m m' : M), i < j →
        log.sent[i]? = some m → log.sent[j]? = some m' →
          P m = true → P m' = true → src m ≠ src m' := by
    intro i j m m' hij hm hm' hP hP'
    rcases List.getElem?_eq_some_iff.mp hm with ⟨hi, rfl⟩
    rcases List.getElem?_eq_some_iff.mp hm' with ⟨hj, rfl⟩
    exact List.pairwise_iff_getElem.mp hPair i j hi hj hij
      hP hP'
  intro i j m m' hm hm' hP hP' hEq
  rcases Nat.lt_trichotomy i j with hij | hij | hij
  · exact absurd hEq (hLt i j m m' hij hm hm' hP hP')
  · exact hij
  · exact absurd hEq.symm (hLt j i m' m hij hm' hm hP' hP)

/- The senders of what a receiver holds at one place. -/
def heldFrom
    (log : BroadcastLog n M L)
    (p : Fin n) (l : L)
    (src : M → Fin n)
    (P : M → Bool) : Finset (Fin n) :=
  Finset.univ.filter fun q =>
    ∃ i ∈ log.settled p l P,
      (log.sent[i]?).any (fun m => decide (src m = q)) = true

/- A party holds from those whose message is at the place. -/
theorem mem_heldFrom_iff
    (log : BroadcastLog n M L)
    (p : Fin n) (l : L)
    (src : M → Fin n) (P : M → Bool) (q : Fin n) :
    q ∈ log.heldFrom p l src P ↔
      ∃ i m, log.sent[i]? = some m ∧ log.loc p i = l ∧
        P m = true ∧ src m = q := by
  simp only [heldFrom, Finset.mem_filter, Finset.mem_univ,
    true_and, mem_settled_iff, Option.any_eq_true,
    decide_eq_true_eq]
  constructor
  · rintro ⟨i, ⟨⟨m, hm, hP⟩, hLoc⟩, m', hm', hSrc⟩
    rw [hm] at hm'
    cases hm'
    exact ⟨i, m, hm, hLoc, hP, hSrc⟩
  · rintro ⟨i, m, hm, hLoc, hP, hSrc⟩
    exact ⟨i, ⟨⟨m, hm, hP⟩, hLoc⟩, m, hm, hSrc⟩

/- Nothing is held from a party that has sent nothing. -/
theorem heldFrom_subset_senders
    (log : BroadcastLog n M L)
    (p : Fin n) (l : L)
    (src : M → Fin n) (P : M → Bool) :
    log.heldFrom p l src P ⊆ log.senders src P := by
  intro q hq
  rcases (log.mem_heldFrom_iff p l src P q).mp hq with
    ⟨i, m, hm, _, hP, hSrc⟩
  rw [mem_senders_iff]
  exact ⟨m, List.mem_of_getElem? hm, hP, hSrc⟩

/-
  When a receiver holds at one place no two messages of one
  sender, what it holds there is counted by its senders.
-/
theorem tally_le_card_heldFrom
    (log : BroadcastLog n M L)
    (src : M → Fin n) (P : M → Bool)
    (p : Fin n) (l : L)
    (hOnce :
      ∀ (i j : Nat) (m m' : M),
        log.sent[i]? = some m → log.sent[j]? = some m' →
          log.loc p i = l → log.loc p j = l →
            P m = true → P m' = true →
              src m = src m' → i = j) :
    log.tally p l P ≤ (log.heldFrom p l src P).card := by
  classical
  let sender : Nat → Option (Fin n) := fun i =>
    (log.sent[i]?).map src
  have hMaps :
      Set.MapsTo sender (log.settled p l P)
        ((log.heldFrom p l src P).image some) := by
    intro i hi
    rw [Finset.mem_coe, mem_settled_iff] at hi
    rcases hi with ⟨⟨m, hm, hP⟩, hLoc⟩
    simp only [Finset.coe_image, Set.mem_image,
      Finset.mem_coe]
    refine ⟨src m, ?_, by simp [sender, hm]⟩
    rw [mem_heldFrom_iff]
    exact ⟨i, m, hm, hLoc, hP, rfl⟩
  have hInj :
      Set.InjOn sender (log.settled p l P) := by
    intro i hi j hj hEq
    rw [Finset.mem_coe, mem_settled_iff] at hi hj
    rcases hi with ⟨⟨m, hm, hP⟩, hLoc⟩
    rcases hj with ⟨⟨m', hm', hP'⟩, hLoc'⟩
    apply hOnce i j m m' hm hm' hLoc hLoc' hP hP'
    simpa [sender, hm, hm'] using hEq
  calc
    log.tally p l P
        ≤ ((log.heldFrom p l src P).image some).card :=
      Finset.card_le_card_of_injOn sender hMaps hInj
    _ ≤ (log.heldFrom p l src P).card :=
      Finset.card_image_le

/- So it is counted by those that sent such a message. -/
theorem tally_le_card_senders_of_local
    (log : BroadcastLog n M L)
    (src : M → Fin n) (P : M → Bool)
    (p : Fin n) (l : L)
    (hOnce :
      ∀ (i j : Nat) (m m' : M),
        log.sent[i]? = some m → log.sent[j]? = some m' →
          log.loc p i = l → log.loc p j = l →
            P m = true → P m' = true →
              src m = src m' → i = j) :
    log.tally p l P ≤ (log.senders src P).card :=
  (log.tally_le_card_heldFrom src P p l hOnce).trans
    (Finset.card_le_card
      (log.heldFrom_subset_senders p l src P))

/- The same bound when no sender repeats itself at all. -/
theorem tally_le_card_senders
    (log : BroadcastLog n M L)
    (src : M → Fin n) (P : M → Bool)
    (p : Fin n) (l : L)
    (hOnce : log.OncePerSender src P) :
    log.tally p l P ≤ (log.senders src P).card :=
  log.tally_le_card_senders_of_local src P p l
    fun i j m m' hm hm' _ _ hP hP' hEq =>
      hOnce i j m m' hm hm' hP hP' hEq

omit [DecidableEq L] in
/- Every sender contributes to the total. -/
theorem card_senders_le_total
    (log : BroadcastLog n M L)
    (src : M → Fin n) (P : M → Bool) :
    (log.senders src P).card ≤ log.total P := by
  classical
  have hSub :
      (log.senders src P).image some ⊆
        (log.positions P).image fun i =>
          (log.sent[i]?).map src := by
    intro o ho
    rw [Finset.mem_image] at ho ⊢
    rcases ho with ⟨q, hq, rfl⟩
    rw [mem_senders_iff] at hq
    rcases hq with ⟨m, hMem, hP, rfl⟩
    rcases List.mem_iff_getElem?.mp hMem with ⟨i, hi⟩
    exact ⟨i, (mem_positions_iff log P i).mpr ⟨m, hi, hP⟩,
      by simp [hi]⟩
  have hImage :
      ((log.senders src P).image some).card =
        (log.senders src P).card :=
    Finset.card_image_of_injective _
      (Option.some_injective _)
  rw [← hImage]
  exact (Finset.card_le_card hSub).trans
    Finset.card_image_le

/- A receiver that holds a message of each holds enough. -/
theorem card_le_tally
    (log : BroadcastLog n M L)
    (src : M → Fin n) (P : M → Bool)
    (p : Fin n) (l : L) (A : Finset (Fin n))
    (hAll :
      ∀ q ∈ A, ∃ i m, log.sent[i]? = some m ∧
        P m = true ∧ src m = q ∧ log.loc p i = l) :
    A.card ≤ log.tally p l P := by
  classical
  have hSub :
      A.image some ⊆
        (log.settled p l P).image fun i =>
          (log.sent[i]?).map src := by
    intro o ho
    rw [Finset.mem_image] at ho ⊢
    rcases ho with ⟨q, hq, rfl⟩
    rcases hAll q hq with ⟨i, m, hm, hP, hSrc, hLoc⟩
    exact ⟨i,
      (mem_settled_iff log p l P i).mpr ⟨⟨m, hm, hP⟩, hLoc⟩,
      by simp [hm, hSrc]⟩
  calc
    A.card
        = (A.image some).card :=
      (Finset.card_image_of_injective _
        (Option.some_injective _)).symm
    _ ≤ ((log.settled p l P).image fun i =>
          (log.sent[i]?).map src).card :=
      Finset.card_le_card hSub
    _ ≤ log.tally p l P := Finset.card_image_le

/- A count is zero when nothing with the property is held. -/
theorem tally_eq_zero_iff
    (log : BroadcastLog n M L)
    (p : Fin n) (l : L) (P : M → Bool) :
    log.tally p l P = 0 ↔
      ∀ i m, log.sent[i]? = some m → log.loc p i = l →
        P m = false := by
  rw [tally, Finset.card_eq_zero,
    Finset.eq_empty_iff_forall_notMem]
  constructor
  · intro hNone i m hm hLoc
    by_contra hP
    exact hNone i ((mem_settled_iff log p l P i).mpr
      ⟨⟨m, hm, by simpa using hP⟩, hLoc⟩)
  · intro hNone i hi
    rw [mem_settled_iff] at hi
    rcases hi with ⟨⟨m, hm, hP⟩, hLoc⟩
    rw [hNone i m hm hLoc] at hP
    cases hP

end BroadcastLog

end Protocol
